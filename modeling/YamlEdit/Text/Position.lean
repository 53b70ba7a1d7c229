import YamlEdit.Text.Lines

/-!
# Positions below zero

A caller may name a position of a text by a negative number, which counts from the end: -1 is the
last character. A cut takes every number, and one outside of the text stands for the nearer end; to
read a character the position has to be inside.
-/

namespace YamlEdit.Text

/-- The place where a cut at a position goes. -/
def place (s : Text) (pos : Int) : Nat :=
  min s.length (if pos < 0 then pos + s.length else pos).toNat

/-- The characters from one position up to another; none when the first lies behind the second. -/
def between (s : Text) (start stop : Int) : Text :=
  slice s (place s start) (place s stop)

/-- The character at a position, if that is inside of the text. -/
def charAt? (s : Text) (pos : Int) : Option Char :=
  if pos < -s.length then none else s[(if pos < 0 then pos + s.length else pos).toNat]?

/-- What is read from a position on. The position may be the end of the text; after one below zero
come the last characters, and then the whole text from zero on. -/
def readFrom? (s : Text) (pos : Int) : Option Text :=
  if pos < -s.length ∨ (s.length : Int) < pos then none
  else if pos < 0 then some (s.drop (place s pos) ++ s)
  else some (s.drop (place s pos))

/-- A position that lies outside of a text. -/
structure Outside where
  position : Int
deriving DecidableEq, Repr

/-- Where the line that holds `pos` ends, if only blanks and a comment follow `pos` on it. -/
def lineTailAt (s : Text) (pos : Int) : Except Outside (Option Int) :=
  match readFrom? s pos with
  | none => .error ⟨pos⟩
  | some rest => .ok ((afterComment? rest).map fun r => (s.length : Int) - r.length)

/-- The position behind the line break at `pos`, or `pos` itself when there is none. -/
def skipBreakAt (s : Text) (pos : Int) : Int :=
  pos + breakLength (s.drop (place s pos))

/-- Whether a dash at a position opens an entry of a sequence at a column. -/
def isDashAt (s : Text) (pos : Nat) (column : Int) : Bool :=
  match s.drop pos with
  | '-' :: r =>
    (pos : Int) - lineStart s pos == column &&
      r.head?.all fun c => c == ' ' || c == '\t' || c == '\r' || c == '\n'
  | _ => false

/-- The last dash at or before a position that opens an entry at a column; the start of the text if
there is none behind it. -/
def lastDash (s : Text) (column : Int) : (pos : Nat) → Nat
  | 0 => 0
  | pos + 1 => if isDashAt s (pos + 1) column then pos + 1 else lastDash s column pos

/-- The dash, at a column, that opens the entry at a position. Without a dash it is the start of the
text, or the position before the entry where that comes first. -/
def dashBefore (s : Text) (pos column : Int) : Except Outside Int :=
  let last := pos - 1
  if last ≤ 0 then .ok last
  else if (s.length : Int) ≤ last then .error ⟨last⟩
  else .ok (lastDash s column last.toNat)

theorem place_natCast (s : Text) (pos : Nat) : place s pos = min s.length pos := by
  have h : ¬ (pos : Int) < 0 := by omega
  simp [place, h]

theorem place_le (s : Text) (pos : Int) : place s pos ≤ s.length :=
  Nat.min_le_left ..

theorem between_natCast (s : Text) (start stop : Nat) :
    between s start stop = slice s start stop := by
  simp only [between, place_natCast, slice]
  rcases Nat.le_total s.length start with h | h
  · simp [List.drop_eq_nil_of_le, h]
  · rcases Nat.le_total s.length stop with h' | h'
    · rw [Nat.min_eq_right h, Nat.min_eq_left h', List.take_of_length_le (by simp),
        List.take_of_length_le (by simp; omega)]
    · rw [Nat.min_eq_right h, Nat.min_eq_right h']

theorem readFrom?_natCast {s : Text} {pos : Nat} (h : pos ≤ s.length) :
    readFrom? s pos = some (s.drop pos) := by
  have h1 : ¬ ((pos : Int) < -s.length ∨ (s.length : Int) < pos) := by omega
  have h2 : ¬ (pos : Int) < 0 := by omega
  rw [readFrom?, if_neg h1, if_neg h2, place_natCast, Nat.min_eq_right h]

theorem lineTailAt_natCast {s : Text} {pos : Nat} (h : pos ≤ s.length) :
    lineTailAt s pos = .ok ((lineTail? s pos).map Int.ofNat) := by
  simp only [lineTailAt, readFrom?_natCast h, lineTail?, Option.map_map]
  have bound : ∀ r ∈ afterComment? (s.drop pos), r.length ≤ s.length := fun r hr =>
    Nat.le_trans (length_le_of_afterComment? hr) (by simp)
  cases hr : afterComment? (s.drop pos) with
  | none => rfl
  | some r =>
    have := bound r hr
    simp only [Option.map_some, Function.comp, Except.ok.injEq, Option.some.injEq]
    exact (Int.ofNat_sub this).symm

theorem skipBreakAt_natCast {s : Text} {pos : Nat} (h : pos ≤ s.length) :
    skipBreakAt s pos = skipBreak s pos := by
  simp [skipBreakAt, skipBreak, place_natCast, Nat.min_eq_right h]

end YamlEdit.Text
