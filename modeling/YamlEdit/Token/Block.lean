import YamlEdit.Token.Chars

/-!
# Block scalars

A literal or folded scalar: a header line, then all lines that are indented by its indentation,
which the header gives or the first line with text shows. Blank lines may be indented by less. The
header also says what becomes of the line breaks at the end: one stays, none, or all of them.
-/

namespace YamlEdit.Scan.Block

/-- What becomes of the line breaks at the end. -/
inductive Chomp where
  /-- One stays. -/
  | clip
  /-- None stays. -/
  | strip
  /-- All stay. -/
  | keep
deriving DecidableEq, Repr

/-- What a header says. -/
structure Header where
  chomp : Chomp
  /-- The indentation on top of that of the surrounding block. -/
  increment : Option Nat
deriving Repr

/-- Reads an indentation digit, if there is one. -/
def increment? : Text → Answer (Option Nat × Text)
  | c :: r =>
    if c == '0' then .error (.zeroIndentation, c :: r)
    else if c.isDigit then .ok (some (c.toNat - '0'.toNat), r)
    else .ok (none, c :: r)
  | [] => .ok (none, [])

/-- Reads a sign for the line breaks at the end, if there is one. -/
def chomp? : Text → Option Chomp × Text
  | '+' :: r => (some .keep, r)
  | '-' :: r => (some .strip, r)
  | s => (none, s)

/-- Reads the marks behind the sign of the scalar, in either order. -/
def marks (s : Text) : Answer (Header × Text) := do
  let (first, s) := chomp? s
  let (increment, s) ← increment? s
  let (second, s) := if first.isNone && increment.isSome then chomp? s else (none, s)
  return (⟨(first.or second).getD .clip, increment⟩, s)

/-- Reads a header behind its sign, up to the first line. -/
def header (s : Text) : Answer (Header × Text) := do
  let (h, s) ← marks s
  if !atGap s then throw (.blockHeader s.head?, s)
  let s := skipComment s
  if !atLineEnd s then throw (.blockHeaderEnd s.head?, s)
  return (h, (afterBreak? s).getD s)

/-- The blank lines before the first line with text. -/
structure Lead where
  breaks : Text
  /-- The widest indentation seen. -/
  widest : Nat
  /-- The indentation of the line with text. -/
  column : Nat
  /-- What is left behind the last break. -/
  stop : Text
  rest : Text
deriving Repr

/-- Reads blank lines and the indentation of the line after them. -/
def leadFrom (l : Lead) (s : Text) : Lead :=
  match s with
  | [] => { l with rest := [] }
  | c :: r =>
    if c == ' ' then
      leadFrom { l with column := l.column + 1, widest := max l.widest (l.column + 1) } r
    else if isReturnOfPair c r then leadFrom l r
    else if isBreak c then
      leadFrom { l with breaks := l.breaks ++ [breakChar c], column := 0, stop := r } r
    else { l with rest := c :: r }
termination_by structural s

/-- What was read of a block scalar. -/
structure Reading where
  text : Text
  /-- What is left behind the last line break that belongs to the scalar. -/
  stop : Text
  /-- What is left where its lines end. -/
  rest : Text
deriving Repr

/-- A reading with text in front. -/
def Reading.after (text : Text) (r : Reading) : Reading :=
  { r with text := text ++ r.text }

/-- Where the place of reading is. -/
inductive Place where
  /-- Inside of a line; `flush` says that the line starts with no blank. -/
  | line (flush : Bool)
  /-- Behind a line: the line's break, the breaks of blank lines after it, the indentation so far on
  this line, and what was left behind the last break. -/
  | between (flush : Bool) (first : Option Char) (breaks : Text) (column : Nat) (stop : Text)
deriving Repr

/-- The line breaks that stay at the end. -/
def Chomp.tail (chomp : Chomp) (first : Option Char) (breaks : Text) : Text :=
  match chomp with
  | strip => []
  | clip => first.toList
  | keep => first.toList ++ breaks

/-- What stands between two lines: in a folded scalar a space for a lone line feed between two lines
that start with no blank, and otherwise all the breaks. -/
def joint (folds flush flushNext : Bool) (first : Option Char) (breaks : Text) : Text :=
  if folds && first == some '\n' && flush && flushNext then
    if breaks.isEmpty then [' '] else breaks
  else first.toList ++ breaks

/-- Reads lines from a place on. -/
def linesFrom (folds : Bool) (indent : Nat) (chomp : Chomp) (place : Place) (s : Text) : Reading :=
  match s with
  | [] =>
    match place with
    | .line _ => ⟨[], [], []⟩
    | .between _ first breaks _ stop => ⟨chomp.tail first breaks, stop, []⟩
  | c :: r =>
    if isReturnOfPair c r then linesFrom folds indent chomp place r
    else
      match place with
      | .line flush =>
        if isBreak c then
          linesFrom folds indent chomp (.between flush (some (breakChar c)) [] 0 r) r
        else (linesFrom folds indent chomp (.line flush) r).after [c]
      | .between flush first breaks column stop =>
        if isBreak c then
          linesFrom folds indent chomp (.between flush first (breaks ++ [breakChar c]) 0 r) r
        else if c == ' ' && column < indent then
          linesFrom folds indent chomp (.between flush first breaks (column + 1) stop) r
        else if column == indent then
          let flushNext := c ≠ ' ' && c ≠ '\t'
          (linesFrom folds indent chomp (.line flushNext) r).after
            (joint folds flush flushNext first breaks ++ [c])
        else ⟨chomp.tail first breaks, stop, c :: r⟩
termination_by structural s

/-- Reads a block scalar behind its sign. Its indentation is at least `least`. -/
def read (folds : Bool) (least : Nat) (s : Text) : Answer Reading := do
  let (h, s) ← header s
  let least := max least 1
  match h.increment with
  | some n => return linesFrom folds (least + n - 1) h.chomp (.between true none [] 0 s) s
  | none =>
    let l := leadFrom ⟨[], 0, 0, s, s⟩ s
    return linesFrom folds (max least l.widest) h.chomp
      (.between true none l.breaks l.column l.stop) l.rest

end YamlEdit.Scan.Block
