import YamlEdit.Token.Chars

/-!
# Plain scalars

A plain scalar is a chain of words. It ends where a word is followed by nothing but blanks, by a
comment, by a colon that makes it a key, by a line that is not indented enough, or by a mark between
documents. A line break inside of it reads as a space, and further ones as themselves.
-/

namespace YamlEdit.Scan

/-- The text of a chain of line breaks inside of a scalar: a lone line feed joins its lines with a
space, and a first line feed before others is dropped. Without a first break they all stay. -/
def folded (first : Option Char) (breaks : Text) : Text :=
  match first with
  | none => breaks
  | some b => if b ≠ '\n' then b :: breaks else if breaks.isEmpty then [' '] else breaks

namespace Plain

/-- What was read of a plain scalar. -/
structure Reading where
  text : Text
  /-- What is left behind the last word. -/
  stop : Text
  /-- What is left behind the blanks after it too. -/
  rest : Text
  /-- The blanks hold a line break. -/
  brokeLine : Bool
deriving Repr

/-- What lies between the last word and the place of reading. -/
inductive Gap where
  /-- Nothing: the place is inside of a word. -/
  | word
  | spaces (count : Nat)
  /-- Line breaks, and the spaces on the last line. -/
  | lines (first : Char) (breaks : Text) (column : Nat)
deriving Repr

/-- The text that a gap is read as. -/
def Gap.text : Gap → Text
  | word => []
  | spaces count => List.replicate count ' '
  | lines first breaks _ => folded (some first) breaks

/-- Whether a gap holds a line break. -/
def Gap.broke : Gap → Bool
  | lines .. => true
  | _ => false

/-- The gap with one more space. -/
def Gap.space : Gap → Gap
  | word => spaces 1
  | spaces count => spaces (count + 1)
  | lines first breaks column => lines first breaks (column + 1)

/-- The gap with one more line break. -/
def Gap.line (b : Char) : Gap → Gap
  | word | spaces _ => lines b [] 0
  | lines first breaks _ => lines first (breaks ++ [b]) 0

/-- Whether a word may go on behind a gap: not with a comment, and not on a line that is indented by
less than `least`, which counts outside of brackets. -/
def Gap.mayResume (flow : Bool) (least : Nat) (c : Char) : Gap → Bool
  | word => true
  | spaces count => count ≠ 0 && c ≠ '#'
  | lines _ _ column => c ≠ '#' && (flow || least ≤ column)

/-- Whether a word ends here. -/
def endsWord (flow : Bool) (s : Text) : Bool :=
  match s with
  | [] => true
  | c :: r =>
    c == ' ' || c == '\t' || isBreak c ||
      (c == ':' && (atSpace r || (flow && r.head?.any fun d => ",[]\x7b\x7d".toList.contains d))) ||
      (flow && ",?[]\x7b\x7d".toList.contains c)

/-- A reading that adds nothing to what was read before. -/
def Reading.done (gap : Gap) (stop rest : Text) : Reading :=
  ⟨[], stop, rest, gap.broke⟩

/-- A reading with text in front. -/
def Reading.after (text : Text) (r : Reading) : Reading :=
  { r with text := text ++ r.text }

/-- Reads on from a gap; `stop` is what was left behind the last word. -/
def readFrom (flow : Bool) (least : Nat) (gap : Gap) (stop : Text) (s : Text) : Reading :=
  match s with
  | [] => .done gap (match gap with | .word => [] | _ => stop) []
  | c :: r =>
    let stop := match gap with | .word => c :: r | _ => stop
    if isReturnOfPair c r then
      readFrom flow least (match gap with | .word => .spaces 0 | gap => gap) stop r
    else if isBreak c then
      let gap := gap.line (breakChar c)
      if atSeparator r then .done gap stop r else readFrom flow least gap stop r
    else if c == ' ' then readFrom flow least gap.space stop r
    else if gap.mayResume flow least c && !endsWord flow (c :: r) then
      (readFrom flow least .word stop r).after (gap.text ++ [c])
    else .done gap stop (c :: r)
termination_by structural s

/-- Reads a plain scalar. -/
def read (flow : Bool) (least : Nat) (s : Text) : Reading :=
  readFrom flow least .word s s

end Plain

end YamlEdit.Scan
