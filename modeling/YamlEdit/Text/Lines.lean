import YamlEdit.Text.Blank

/-!
# Lines of a text

The line helpers of the editor. Here a line ends at a line feed, at a carriage return or at the
two together; a comment runs from a number sign to the end of its line.
-/

namespace YamlEdit

/-- The line break written into new text. -/
inductive LineBreak where
  | lf
  | crlf
  | cr
deriving DecidableEq, Repr, Inhabited

namespace LineBreak

/-- The characters of a line break. -/
def text : LineBreak → Text
  | lf => ['\n']
  | crlf => ['\r', '\n']
  | cr => ['\r']

/-- The line break that a text spells, if it spells one. -/
def ofText? (s : Text) : Option LineBreak :=
  if s = ['\n'] then some lf
  else if s = ['\r', '\n'] then some crlf
  else if s = ['\r'] then some cr
  else none

theorem ofText?_text (b : LineBreak) : ofText? b.text = some b := by
  cases b <;> rfl

theorem text_of_ofText? {s : Text} {b : LineBreak} (h : ofText? s = some b) : b.text = s := by
  unfold ofText? at h
  split at h
  · cases h; simp_all [text]
  · split at h
    · cases h; simp_all [text]
    · split at h
      · cases h; simp_all [text]
      · cases h

end LineBreak

namespace Text

/-- Whether a character ends a line. -/
def isBreak (c : Char) : Bool :=
  c == '\n' || c == '\r'

/-- Whether a character is the space or the tab. -/
def isSpaceOrTab (c : Char) : Bool :=
  c == ' ' || c == '\t'

theorem isBlank_of_isBreak {c : Char} (h : isBreak c = true) : isBlank c = true := by
  simp only [isBreak, Bool.or_eq_true, beq_iff_eq] at h
  rcases h with rfl | rfl <;> rfl

theorem isBlank_of_isSpaceOrTab {c : Char} (h : isSpaceOrTab c = true) : isBlank c = true := by
  simp only [isSpaceOrTab, Bool.or_eq_true, beq_iff_eq] at h
  rcases h with rfl | rfl <;> rfl

theorem isSpaceOrTab_of_isBreak {c : Char} (h : isBreak c = true) : isSpaceOrTab c = false := by
  simp only [isBreak, Bool.or_eq_true, beq_iff_eq] at h
  rcases h with rfl | rfl <;> rfl

theorem not_isBreak_of_isSpaceOrTab {c : Char} (h : isSpaceOrTab c = true) : isBreak c = false := by
  simp only [isSpaceOrTab, Bool.or_eq_true, beq_iff_eq] at h
  rcases h with rfl | rfl <;> rfl

/-- Where the line that holds `pos` starts. -/
def lineStart (s : Text) (pos : Nat) : Nat :=
  let before := s.take pos
  before.length - (before.reverse.takeWhile fun c => !isBreak c).length

/-- What is left of a text from its first line break on. -/
def fromBreak (s : Text) : Text :=
  s.dropWhile fun c => !isBreak c

/-- What is left of a text after the blanks and the comment that lead it, if a line break or the end
of the text comes next. -/
def afterComment? (s : Text) : Option Text :=
  match s.dropWhile isSpaceOrTab with
  | [] => some []
  | c :: r =>
    if c == '#' then some (fromBreak r)
    else if isBreak c then some (c :: r)
    else none

/-- One character of the search: a blank is passed, and anything else decides. -/
theorem afterComment?_cons (c : Char) (s : Text) :
    afterComment? (c :: s) =
      if isSpaceOrTab c then afterComment? s
      else if c == '#' then some (fromBreak s)
      else if isBreak c then some (c :: s)
      else none := by
  by_cases blank : isSpaceOrTab c = true
  · rw [if_pos blank, afterComment?, List.dropWhile_cons_of_pos blank, afterComment?]
  · rw [if_neg blank, afterComment?, List.dropWhile_cons_of_neg blank]

/-- Where the line that holds `pos` ends, if only blanks and a comment follow `pos` on it. -/
def lineTail? (s : Text) (pos : Nat) : Option Nat :=
  (afterComment? (s.drop pos)).map fun rest => s.length - rest.length

/-- The length of the line break that a text starts with; zero if there is none. -/
def breakLength : Text → Nat
  | '\r' :: '\n' :: _ => 2
  | c :: _ => if isBreak c then 1 else 0
  | [] => 0

/-- The position behind the line break at `pos`, or `pos` itself when there is none. -/
def skipBreak (s : Text) (pos : Nat) : Nat :=
  pos + breakLength (s.drop pos)

/-- Where the line break that ends at `pos` starts; `pos` is not zero. -/
def breakBefore (s : Text) (pos : Nat) : Nat :=
  if 2 ≤ pos && slice s (pos - 2) pos == ['\r', '\n'] then pos - 2 else pos - 1

/-- A line behind `depth` spaces; a line of blanks becomes empty. -/
def indentLine (depth : Nat) (line : Text) : Text :=
  if isBlankText line then [] else List.replicate depth ' ' ++ line

/-- Every line of a text behind `depth` spaces, where lines of blanks become empty. Lines are what
stands between the occurrences of `lineBreak`. -/
def indent (s : Text) (depth : Nat) (lineBreak : Text) : Text :=
  lineBreak.intercalate ((splitOn s lineBreak).map (indentLine depth))

theorem lineStart_le (s : Text) (pos : Nat) : lineStart s pos ≤ pos := by
  simp only [lineStart, List.length_take]
  omega

theorem le_skipBreak (s : Text) (pos : Nat) : pos ≤ skipBreak s pos :=
  Nat.le_add_right ..

theorem length_fromBreak_le (s : Text) : (fromBreak s).length ≤ s.length :=
  (List.dropWhile_suffix _).length_le

theorem length_le_of_afterComment? {s r : Text} (h : afterComment? s = some r) :
    r.length ≤ s.length := by
  have blanks := (List.dropWhile_suffix (l := s) isSpaceOrTab).length_le
  unfold afterComment? at h
  split at h
  · next hs => simp_all
  · next c t hs =>
    rw [hs, List.length_cons] at blanks
    split at h
    · have := length_fromBreak_le t
      cases h
      omega
    · split at h
      · cases h
        simpa using blanks
      · cases h

end Text

end YamlEdit
