import YamlEdit.Token.Fault

/-!
# Characters of a document

The character classes that cut a document into tokens, and the cursor that moves through it. What is
left of the text stands for the place in it: a reader of some construct takes the rest of the text
and answers a shorter rest, and the cursor finds the mark of a rest by walking to it.
-/

namespace YamlEdit.Scan

/-- Whether a character is a line break. -/
def isBreak (c : Char) : Bool :=
  c == '\r' || c == '\n' || c == '\x85' || c == '\u2028' || c == '\u2029'

/-- What a line break is read as: a line feed, except for the two separators. -/
def breakChar (c : Char) : Char :=
  if c == '\u2028' || c == '\u2029' then c else '\n'

/-- Whether a carriage return comes first and its line feed next: the two are one line break, read
at the line feed. -/
def isReturnOfPair (c : Char) (rest : Text) : Bool :=
  c == '\r' && rest.head? == some '\n'

/-- The text behind the line break that it starts with, if it starts with one. -/
def afterBreak? : Text → Option Text
  | '\r' :: '\n' :: r => some r
  | c :: r => if isBreak c then some r else none
  | [] => none

/-- Whether a text is at its end or at a character of a class. -/
def endOr (p : Char → Bool) : Text → Bool
  | [] => true
  | c :: _ => p c

/-- At the end of a line. -/
def atLineEnd : Text → Bool :=
  endOr isBreak

/-- At a space, or at the end of a line. -/
def atGap : Text → Bool :=
  endOr fun c => c == ' ' || isBreak c

/-- At a space or a tab, or at the end of a line. -/
def atSpace : Text → Bool :=
  endOr fun c => c == ' ' || c == '\t' || isBreak c

/-- At a mark between documents. -/
def atSeparator (s : Text) : Bool :=
  (s.take 3 == "---".toList || s.take 3 == "...".toList) && atSpace (s.drop 3)

/-- Whether a character may be in a name. -/
def isNameChar (c : Char) : Bool :=
  c.isDigit || ('A' ≤ c && c ≤ 'Z') || ('a' ≤ c && c ≤ 'z') || c == '-' || c == '_'

/-- The value of a digit of base sixteen. -/
def hexValue? (c : Char) : Option Nat :=
  if '0' ≤ c ∧ c ≤ '9' then some (c.toNat - '0'.toNat)
  else if 'a' ≤ c ∧ c ≤ 'f' then some (c.toNat - 'a'.toNat + 10)
  else if 'A' ≤ c ∧ c ≤ 'F' then some (c.toNat - 'A'.toNat + 10)
  else none

/-- The number that digits of base sixteen spell behind the number `acc`, if all are digits. -/
def hexNumber? (acc : Nat) : Text → Option Nat
  | [] => some acc
  | c :: r =>
    match hexValue? c with
    | some d => hexNumber? (acc * 16 + d) r
    | none => none

/-- The first character that is no digit of base sixteen. -/
def firstNoHex (s : Text) : Option Char :=
  (s.dropWhile fun c => (hexValue? c).isSome).head?

/-- The text behind its leading spaces. -/
def skipSpaces (s : Text) : Text :=
  s.dropWhile (· == ' ')

/-- The text from the end of its first line on. -/
def skipLine (s : Text) : Text :=
  s.dropWhile fun c => !isBreak c

/-- The end of the line behind spaces and a comment. -/
def skipComment (s : Text) : Text :=
  let s := skipSpaces s
  if s.head? == some '#' then skipLine s else s

/-- A failure, and the rest of the text at the place of it. -/
abbrev Failure := ScanFault × Text

/-- A reader's answer. -/
abbrev Answer := Except Failure

end YamlEdit.Scan

namespace YamlEdit

/-- A place in a text: what is left of the text, and the mark. -/
structure Cursor where
  rest : Text
  mark : Mark
deriving Repr, Inhabited

namespace Cursor

/-- The start of a text. -/
def start (s : Text) : Cursor :=
  ⟨s, .zero⟩

/-- The place behind `n` characters. -/
def advance : Nat → Cursor → Cursor
  | 0, c => c
  | n + 1, c =>
    match c.rest with
    | [] => c
    | ch :: r => advance n ⟨r, c.mark.past ch r⟩

/-- The place at which `rest` is left. -/
def reach (c : Cursor) (rest : Text) : Cursor :=
  advance (c.rest.length - rest.length) c

theorem length_rest_advance (n : Nat) (c : Cursor) :
    (advance n c).rest.length = c.rest.length - n := by
  induction n generalizing c with
  | zero => rfl
  | succ n ih =>
    obtain ⟨rest, mark⟩ := c
    cases rest with
    | nil => simp [advance]
    | cons ch r => simp [advance, ih]

theorem rest_advance (n : Nat) (c : Cursor) : (advance n c).rest = c.rest.drop n := by
  induction n generalizing c with
  | zero => rfl
  | succ n ih =>
    obtain ⟨rest, mark⟩ := c
    cases rest with
    | nil => simp [advance]
    | cons ch r => simp [advance, ih]

end Cursor

end YamlEdit
