import YamlEdit.Outline.Scalar

/-!
# Writing an outline

Lays an outline out as a document: collections as indented blocks, empty ones and all those inside
of brackets in flow form, and no line ever broken for its length.
-/

namespace YamlEdit.Outline

/-- The text written so far, last character first, and where the next one will stand. -/
structure Pen where
  written : Text := []
  column : Nat := 0
  /-- The last character separates words. -/
  atGap : Bool := true
  /-- The line holds nothing but indentation and indicators that count as such. -/
  inIndent : Bool := true
  /-- The text could go on, so a document end marker has to follow it. -/
  openEnded : Bool := false
  /-- Some line was indented. -/
  indented : Bool := false

namespace Pen

/-- Writes characters as they are. -/
def put (p : Pen) (s : Text) : Pen :=
  { p with written := s.reverse ++ p.written, column := p.column + s.length }

/-- Writes an indicator, behind a space if it needs a gap and there is none. -/
def indicator (p : Pen) (s : Text) (needsGap : Bool) (isGap inIndent : Bool := false) : Pen :=
  let p := p.put (if p.atGap || !needsGap then s else ' ' :: s)
  { p with atGap := isGap, inIndent := p.inIndent && inIndent, openEnded := false }

/-- Ends the line with the given break. -/
def newLine (p : Pen) (c : Char := '\n') : Pen :=
  { p with written := c :: p.written, column := 0, atGap := true, inIndent := true }

/-- Goes to a column, on a new line if this one holds text or is past the column. -/
def indentTo (p : Pen) (column : Nat) : Pen :=
  let p :=
    if !p.inIndent || column < p.column || (p.column == column && !p.atGap) then p.newLine else p
  if p.column < column then
    { p.put (List.replicate (column - p.column) ' ') with atGap := true, indented := true }
  else p

/-- Writes a plain scalar. -/
def plain (p : Pen) (isRoot : Bool) (s : Text) : Pen :=
  let p := { p with openEnded := p.openEnded || isRoot }
  if s.isEmpty then p
  else
    let p := if p.atGap then p else p.put [' ']
    { p.put s with atGap := false, inIndent := false }

/-- Writes the line breaks of a single-quoted scalar: one more if the first is a line feed, as a
lone one would be read as a space. -/
def foldedBreaks (p : Pen) (column : Nat) (breaks : Text) : Pen :=
  let p := if breaks.head? = some '\n' then p.newLine else p
  (breaks.foldl (fun p c => p.newLine c) p).indentTo column

/-- Writes the inside of a single-quoted scalar; `breaks` are the line breaks met right before, last
one first. -/
def singleQuotedFrom (p : Pen) (column : Nat) (breaks : Text) : Text → Pen
  | [] => if breaks.isEmpty then p else p.foldedBreaks column breaks.reverse
  | c :: r =>
    if isLineEnd c then singleQuotedFrom p column (c :: breaks) r
    else
      let p := if breaks.isEmpty then p else p.foldedBreaks column breaks.reverse
      singleQuotedFrom (p.put (if c == '\'' then ['\'', '\''] else [c])) column [] r

/-- Writes a single-quoted scalar. -/
def singleQuoted (p : Pen) (column : Nat) (s : Text) : Pen :=
  ((p.indicator ['\''] true).singleQuotedFrom column [] s).indicator ['\''] false

/-- Writes a double-quoted scalar. -/
def doubleQuoted (p : Pen) (s : Text) : Pen :=
  ((p.indicator ['"'] true).put (s.flatMap escaped)).indicator ['"'] false

/-- The marks behind the sign of a block scalar: its indentation if its first line does not show it,
and whether the line breaks at its end are dropped or all kept. -/
def blockHints (step : Nat) (s : Text) : Text :=
  let lead := if s.head?.any fun c => c == ' ' || isLineEnd c then Text.ofNat step else []
  let tail :=
    match s.reverse with
    | [] => []
    | [c] => if isLineEnd c then ['+'] else ['-']
    | c :: d :: _ => if !isLineEnd c then ['-'] else if isLineEnd d then ['+'] else []
  lead ++ tail

/-- Writes the lines of a literal scalar; `atStart` says that a line starts here. -/
def literalFrom (p : Pen) (column : Nat) (atStart : Bool) : Text → Pen
  | [] => if atStart then p else p.newLine
  | c :: r =>
    if isLineEnd c then literalFrom (p.newLine c) column true r
    else
      let p := if atStart then p.indentTo column else p
      literalFrom (p.put [c]) column false r

/-- Writes a literal scalar. -/
def literal (p : Pen) (step column : Nat) (s : Text) : Pen :=
  let hints := blockHints step s
  let p := p.indicator ('|' :: hints) true
  let p := { p with openEnded := hints.getLast? = some '+' }
  p.newLine.literalFrom column true s

/-- Writes an anchor, if there is one. -/
def anchor (p : Pen) : Option Text → Pen
  | none => p
  | some name => p.indicator ('&' :: name) true

/-- Writes a scalar with its tag where that is not implied. -/
def scalar (p : Pen) (place : Place) (step column : Nat) (tag : Tag) (text : Text) (style : Style) :
    Pen :=
  let f := form place tag text style
  let p := if tagIsImplied tag text f then p else p.indicator (shortTag tag) true
  match f with
  | .plain => p.plain place.isRoot text
  | .singleQuoted => p.singleQuoted column text
  | .doubleQuoted => p.doubleQuoted text
  | .literal => p.literal step column text

end Pen

/-- The room that a key takes for its anchor. -/
def anchorRoom (anchor : Option Text) : Nat :=
  (anchor.getD []).length

/-- Whether a key goes on one line with its value: a short scalar on one line, an alias or an empty
collection. -/
def isSimpleKey : Outline → Bool
  | .aliasOf name => name.length < 128
  | .scalar anchor tag text _ =>
    anchorRoom anchor + (shortTag tag).length + text.length < 128 &&
      !text.isEmpty && !text.any isLineEnd
  | .sequence anchor items => items.isEmpty && anchorRoom anchor + (shortTag .seq).length < 128
  | .mapping anchor tag pairs => pairs.isEmpty && anchorRoom anchor + (shortTag tag).length < 128

/-- The indentation below a node: the root itself has none, and `first` is the indentation that it
gives to what it holds. -/
def deeper (step first : Nat) : Option Nat → Nat
  | none => first
  | some column => column + step

mutual

/-- Writes a node at a place, with the indentation of the collection around it. -/
def write (step : Nat) (flow : Bool) (place : Place) (indent : Option Nat) (o : Outline) (p : Pen) :
    Pen :=
  match o with
  | .aliasOf name => p.indicator ('*' :: name) true
  | .scalar anchor tag text style =>
    (p.anchor anchor).scalar place step (deeper step step indent) tag text style
  | .sequence anchor items =>
    let p := p.anchor anchor
    if place.inFlow || flow || items.isEmpty then
      let p := p.indicator ['['] true true
      (writeFlowItems step (deeper step step indent) false items p).indicator [']'] false
    else
      let column :=
        if place.inMapping && !p.inIndent then indent.getD 0 else deeper step 0 indent
      writeItems step column items p
  | .mapping anchor tag pairs =>
    let p := p.anchor anchor
    let p := if tag = .map then p else p.indicator (shortTag tag) true
    if place.inFlow || flow || pairs.isEmpty then
      let p := p.indicator ['\x7b'] true true
      (writeFlowPairs step (deeper step step indent) false pairs p).indicator ['\x7d'] false
    else writePairs step (deeper step 0 indent) pairs p
termination_by structural o

/-- Writes the entries of a block sequence, each behind a dash. -/
def writeItems (step column : Nat) (items : List Outline) (p : Pen) : Pen :=
  match items with
  | [] => p
  | o :: r =>
    let p := (p.indentTo column).indicator ['-'] true false true
    writeItems step column r (write step false {} (some column) o p)
termination_by structural items

/-- Writes the pairs of a block mapping. -/
def writePairs (step column : Nat) (pairs : List (Outline × Outline)) (p : Pen) : Pen :=
  match pairs with
  | [] => p
  | (k, v) :: r =>
    let p := p.indentTo column
    let p :=
      if isSimpleKey k then
        let place : Place := { inMapping := true, isSimpleKey := true }
        (write step false place (some column) k p).indicator [':'] false
      else
        let p := p.indicator ['?'] true false true
        let p := write step false { inMapping := true } (some column) k p
        (p.indentTo column).indicator [':'] true false true
    writePairs step column r (write step false { inMapping := true } (some column) v p)
termination_by structural pairs

/-- Writes the items inside of brackets; `more` says that an item came before. -/
def writeFlowItems (step column : Nat) (more : Bool) (items : List Outline) (p : Pen) : Pen :=
  match items with
  | [] => p
  | o :: r =>
    let p := if more then p.indicator [','] false else p
    writeFlowItems step column true r (write step true { inFlow := true } (some column) o p)
termination_by structural items

/-- Writes the pairs inside of braces; `more` says that a pair came before. -/
def writeFlowPairs (step column : Nat) (more : Bool) (pairs : List (Outline × Outline)) (p : Pen) :
    Pen :=
  match pairs with
  | [] => p
  | (k, v) :: r =>
    let p := if more then p.indicator [','] false else p
    let p :=
      if isSimpleKey k then
        let place : Place := { inMapping := true, isSimpleKey := true, inFlow := true }
        (write step true place (some column) k p).indicator [':'] false
      else
        let p := p.indicator ['?'] true
        let p := write step true { inMapping := true, inFlow := true } (some column) k p
        p.indicator [':'] true
    let place : Place := { inMapping := true, inFlow := true }
    writeFlowPairs step column true r (write step true place (some column) v p)
termination_by structural pairs

end

/-- Ends the document: a line break, and the end marker if the text could go on. -/
def Pen.close (p : Pen) : Text :=
  let p := p.indentTo 0
  let p := if p.openEnded then (p.indicator "...".toList true).indentTo 0 else p
  p.written.reverse

/-- The indentation step that is used for the one asked for: two unless that is between two and
nine. -/
def usedStep (step : Nat) : Nat :=
  if 1 < step && step < 10 then step else 2

/-- Writes an outline as a document, without its end. -/
def draw (o : Outline) (step : Nat) (flow : Bool) : Pen :=
  write (usedStep step) flow { isRoot := true } none o {}

/-- An outline as a document. -/
def render (o : Outline) (step : Nat) (flow : Bool) : Text :=
  (draw o step flow).close

/-- Whether a document has indented lines, or dashes of one line at several columns. This does not
hang on the step. -/
def isIndented (o : Outline) (flow : Bool) : Bool :=
  (draw o 2 flow).indented

end YamlEdit.Outline
