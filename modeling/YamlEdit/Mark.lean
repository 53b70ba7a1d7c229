import YamlEdit.Text.Basic

/-!
# Marks

Places in a text by line and column, and how an error message shows one: the line that it is in, cut
to a window around it, with a caret below.

A line ends at a line feed, a carriage return or the two together, and at the three line ends of
Unicode; the byte order mark takes no column.
-/

namespace YamlEdit

/-- A place in a text. All three numbers start at zero. -/
structure Mark where
  index : Nat
  line : Nat
  column : Nat
deriving DecidableEq, Repr, Inhabited

namespace Mark

/-- The start of a text. -/
def zero : Mark := ⟨0, 0, 0⟩

/-- Whether a character always ends a line. A carriage return does unless a line feed follows. -/
def endsLine (c : Char) : Bool :=
  c == '\n' || c == '\x85' || c == '\u2028' || c == '\u2029'

/-- The place behind a character, given what follows the character. -/
def past (m : Mark) (c : Char) (rest : Text) : Mark :=
  if endsLine c || (c == '\r' && rest.head? != some '\n') then ⟨m.index + 1, m.line + 1, 0⟩
  else if c == '\uFEFF' then ⟨m.index + 1, m.line, m.column⟩
  else ⟨m.index + 1, m.line, m.column + 1⟩

/-- Line and column, counted from one. -/
def text (m : Mark) : Text :=
  "line ".toList ++ Text.ofNat (m.line + 1) ++ ", column ".toList ++ Text.ofNat (m.column + 1)

/-- Whether a character ends the line that a message shows. -/
def endsShownLine (c : Char) : Bool :=
  c == '\x00' || c == '\r' || endsLine c

/-- The most characters shown on either side of a place. -/
def window : Nat := 37

/-- The part of a line next to a place, nearest character first, and whether it was cut. A line that
fills the window loses five characters to the mark of the cut. -/
def side (s : Text) : Text × Bool :=
  let line := s.takeWhile fun c => !endsShownLine c
  if window ≤ line.length then (line.take (window - 5), true) else (line, false)

/-- The line of a place in a text with a caret under the place. -/
def snippet (m : Mark) (source : Text) : Text :=
  let (before, cutBefore) := side (source.take m.index).reverse
  let (after, cutAfter) := side (source.drop m.index)
  let cut := " ... ".toList
  let head := if cutBefore then cut else []
  let tail := if cutAfter then cut else []
  "    ".toList ++ head ++ before.reverse ++ after ++ tail ++ '\n' ::
    List.replicate (4 + before.length + head.length) ' ' ++ ['^']

/-- A place as a message shows it. -/
def describe (m : Mark) (source : Text) : Text :=
  "  in \"<unicode string>\", ".toList ++ m.text ++ ":\n".toList ++ m.snippet source

theorem index_past (m : Mark) (c : Char) (rest : Text) : (m.past c rest).index = m.index + 1 := by
  unfold past
  split
  · rfl
  · split <;> rfl

end Mark

end YamlEdit
