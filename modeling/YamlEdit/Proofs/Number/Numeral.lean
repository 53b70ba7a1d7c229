import YamlEdit.Number.Numeral

/-!
# Texts of digits

A text of digits, of whatever script and dress, spells a number exactly if all are decimal digits and
there are not too many of them: digits need no trimming, and none of them is a sign.
-/

namespace YamlEdit.Numeral

open Text

/-- The code points of the blank characters. -/
def blankCodes : List Nat :=
  List.range' 0x9 5 ++ List.range' 0x1C 5 ++ [0x85, 0xA0, 0x1680] ++ List.range' 0x2000 11 ++
    [0x2028, 0x2029, 0x202F, 0x205F, 0x3000]

theorem mem_blankCodes {c : Char} (h : isBlank c = true) : c.toNat ∈ blankCodes := by
  simp only [isBlank, Bool.or_eq_true, Bool.and_eq_true, decide_eq_true_eq, beq_iff_eq] at h
  simp only [blankCodes, List.mem_append, List.mem_range'_1, List.mem_cons, List.not_mem_nil]
  omega

theorem not_isDigitLike_of_blank : ∀ n ∈ blankCodes, isDigitLike (Char.ofNat n) = false := by
  decide +kernel

/-- No digit is a blank. -/
theorem isPadding_of_isDigitLike {c : Char} (digit : isDigitLike c = true) : isPadding c = false := by
  rw [isPadding, Bool.and_eq_false_iff]
  left
  cases blank : isBlank c with
  | false => rfl
  | true =>
    have none := not_isDigitLike_of_blank _ (mem_blankCodes blank)
    rw [Char.ofNat_toNat, digit] at none
    cases none

theorem trimBy_of_all {p : Char → Bool} {s : Text} (none : ∀ c ∈ s, p c = false) : trimBy s p = s := by
  have keep {t : Text} (none : ∀ c ∈ t, p c = false) : t.dropWhile p = t := by
    cases t with
    | nil => rfl
    | cons c r => exact List.dropWhile_cons_of_neg (by simp [none c List.mem_cons_self])
  rw [trimBy, keep none, dropEndWhile, keep (by simpa using none), List.reverse_reverse]

theorem bare_of_digits {s : Text} (digits : ∀ c ∈ s, isDigitLike c = true) :
    bare s = s.map toAscii := by
  rw [bare, trimBy_of_all fun c hc => isPadding_of_isDigitLike (digits c hc)]

theorem digitValue?_digitChar : ∀ n < 10, digitValue? (Nat.digitChar n) = some n := by
  decide

/-- A digit that is no decimal digit is no letter or sign either. -/
theorem code_of_dressed {c : Char} (digit : isDigitLike c = true) (dressed : decimalValue? c = none) :
    0x80 ≤ c.toNat := by
  rw [isDigitLike, dressed, Option.isSome_none, Bool.false_or, List.any_eq_true] at digit
  obtain ⟨range, listed, inside⟩ := digit
  have above : ∀ range ∈ dressedDigits, 0x80 ≤ range.1 := by decide
  have := above range listed
  simp only [Bool.and_eq_true, decide_eq_true_eq] at inside
  omega

theorem digitValue?_of_code {c : Char} (code : 0x80 ≤ c.toNat) : digitValue? c = none := by
  have above (d : Char) (low : d.toNat < 0x80) : ¬ c ≤ d := by
    intro h
    have : c.toNat ≤ d.toNat := h
    omega
  rw [digitValue?, if_neg fun h => above '9' (by decide) h.2, if_neg fun h => above 'z' (by decide) h.2,
    if_neg fun h => above 'Z' (by decide) h.2]

/-- What a digit is worth as it is read. -/
theorem digitValue?_toAscii {c : Char} (digit : isDigitLike c = true) :
    digitValue? (toAscii c) = decimalValue? c := by
  rw [toAscii]
  cases value : decimalValue? c with
  | none => exact digitValue?_of_code (code_of_dressed digit value)
  | some n => exact digitValue?_digitChar n (decimalValue?_lt value)

theorem digitsFrom?_isSome {s : Text} (digits : ∀ c ∈ s, isDigitLike c = true) (acc : Nat) :
    (digitsFrom? 10 acc (s.map toAscii)).isSome = s.all fun c => (decimalValue? c).isSome := by
  induction s generalizing acc with
  | nil => rfl
  | cons c r ih =>
    obtain ⟨first, rest⟩ := List.forall_mem_cons.mp digits
    rw [List.map_cons, digitsFrom?, digitValue?_toAscii first, List.all_cons]
    cases value : decimalValue? c with
    | none => rfl
    | some n =>
      dsimp only
      rw [if_pos (decimalValue?_lt value), ih rest]
      rfl

/-- A digit is not read as a sign. -/
theorem toAscii_ne_sign {c : Char} (digit : isDigitLike c = true) :
    toAscii c ≠ '-' ∧ toAscii c ≠ '+' := by
  rw [toAscii]
  cases value : decimalValue? c with
  | none =>
    have := code_of_dressed digit value
    constructor <;> (rintro rfl; revert this; decide)
  | some n =>
    have none : ∀ n < 10, Nat.digitChar n ≠ '-' ∧ Nat.digitChar n ≠ '+' := by decide
    exact none n (decimalValue?_lt value)

theorem unsigned_of_digits {s : Text} (digits : ∀ c ∈ s, isDigitLike c = true) :
    unsigned (s.map toAscii) = (false, s.map toAscii) := by
  cases s with
  | nil => rfl
  | cons c r =>
    obtain ⟨minus, plus⟩ := toAscii_ne_sign (digits c List.mem_cons_self)
    rw [List.map_cons]
    unfold unsigned
    split
    · next h => exact absurd (List.cons.inj h).1 minus
    · next h => exact absurd (List.cons.inj h).1 plus
    · rfl

theorem withoutBaseSign_ten (s : Text) : withoutBaseSign 10 s = s := by
  unfold withoutBaseSign
  split
  · rw [if_neg (by simp)]
  · rfl

/-- A text of digits spells a number exactly if all are decimal digits and they are not too many. -/
theorem int?_isSome_of_digits {s : Text} (nonempty : s ≠ [])
    (digits : ∀ c ∈ s, isDigitLike c = true) :
    (int? 10 s).isSome = true ↔
      (∀ c ∈ s, (decimalValue? c).isSome = true) ∧ s.length ≤ maxDecimalDigits := by
  rw [int?, bare_of_digits digits, unsigned_of_digits digits]
  dsimp only
  rw [List.length_map, withoutBaseSign_ten, digits?]
  by_cases many : maxDecimalDigits < s.length
  · simp [many, Nat.not_le.mpr many]
  · have filled : (s.map toAscii).isEmpty = false := by simpa using nonempty
    have read := digitsFrom?_isSome digits 0
    rw [if_neg (by simpa using many), Option.isSome_map, filled, if_neg Bool.false_ne_true,
      ← List.all_eq_true, ← read, and_iff_left (Nat.not_lt.mp many)]
    cases digitsFrom? 10 0 (s.map toAscii) <;> rfl

end YamlEdit.Numeral
