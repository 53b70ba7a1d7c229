import Mathlib.Tactic.Ring
import YamlEdit.Load.Literal
import YamlEdit.Proofs.Outcome

/-!
# Numbers have one form

Of all ways to write a number as a mantissa times a power of two, rounding gives the one with a
mantissa of 53 bits, or with the least exponent where that is out of reach. So two numbers that come
from a text and have the same size are the same number, but for the sign of a zero.
-/

namespace YamlEdit

namespace Binary64

/-- A mantissa and an exponent as rounding leaves them. -/
def IsNormal (mantissa : Nat) (exponent : Int) : Prop :=
  mantissa < 2 ^ 53 ∧ -1074 ≤ exponent ∧ (exponent = -1074 ∨ 2 ^ 52 ≤ mantissa)

/-- A number as rounding leaves it. -/
def Normalized : Binary64 → Prop
  | finite _ m e => IsNormal m e
  | _ => True

theorem power_pos {b : Nat} (positive : 0 < b) (e : Int) : 0 < power b e :=
  Nat.pow_pos positive

theorem power_two (e : Int) : power 2 e = 2 ^ e.toNat := rfl

/-! ## Rounding -/

/-- A fraction below a power of two, from the sizes of its parts. -/
theorem scaled_lt {num den : Nat} {e : Int} {k : Nat} (some_ : den ≠ 0)
    (h : (num.log2 : Int) + 1 ≤ den.log2 + e + k) :
    (scaled num den e).1 < 2 ^ k * (scaled num den e).2 := by
  have above : num < 2 ^ (num.log2 + 1) := Nat.lt_log2_self
  have below : 2 ^ den.log2 ≤ den := Nat.log2_self_le some_
  show num * power 2 (-e) < 2 ^ k * (den * power 2 e)
  rw [power_two, power_two]
  calc num * 2 ^ (-e).toNat
      < 2 ^ (num.log2 + 1) * 2 ^ (-e).toNat := Nat.mul_lt_mul_of_pos_right above (Nat.two_pow_pos _)
    _ = 2 ^ (num.log2 + 1 + (-e).toNat) := (Nat.pow_add ..).symm
    _ ≤ 2 ^ (k + (den.log2 + e.toNat)) := Nat.pow_le_pow_right (by decide) (by omega)
    _ = 2 ^ k * (2 ^ den.log2 * 2 ^ e.toNat) := by rw [Nat.pow_add, Nat.pow_add]
    _ ≤ 2 ^ k * (den * 2 ^ e.toNat) := Nat.mul_le_mul_left _ (Nat.mul_le_mul_right _ below)

/-- A fraction from a power of two on, from the sizes of its parts. -/
theorem le_scaled {num den : Nat} {e : Int} {k : Nat} (some_ : num ≠ 0)
    (h : (den.log2 : Int) + 1 + e + k ≤ num.log2) :
    2 ^ k * (scaled num den e).2 ≤ (scaled num den e).1 := by
  have above : den < 2 ^ (den.log2 + 1) := Nat.lt_log2_self
  have below : 2 ^ num.log2 ≤ num := Nat.log2_self_le some_
  show 2 ^ k * (den * power 2 e) ≤ num * power 2 (-e)
  rw [power_two, power_two]
  calc 2 ^ k * (den * 2 ^ e.toNat)
      ≤ 2 ^ k * (2 ^ (den.log2 + 1) * 2 ^ e.toNat) :=
        Nat.mul_le_mul_left _ (Nat.mul_le_mul_right _ (Nat.le_of_lt above))
    _ = 2 ^ (k + (den.log2 + 1 + e.toNat)) := by rw [← Nat.pow_add, ← Nat.pow_add]
    _ ≤ 2 ^ (num.log2 + (-e).toNat) := Nat.pow_le_pow_right (by decide) (by omega)
    _ = 2 ^ num.log2 * 2 ^ (-e).toNat := Nat.pow_add ..
    _ ≤ num * 2 ^ (-e).toNat := Nat.mul_le_mul_right _ below

/-- One more in the exponent halves the fraction. -/
theorem scaled_succ {num den : Nat} {e : Int} {k : Nat}
    (h : 2 ^ (k + 1) * (scaled num den e).2 ≤ (scaled num den e).1) :
    2 ^ k * (scaled num den (e + 1)).2 ≤ (scaled num den (e + 1)).1 := by
  have h : 2 ^ (k + 1) * (den * 2 ^ e.toNat) ≤ num * 2 ^ (-e).toNat := h
  show 2 ^ k * (den * 2 ^ (e + 1).toNat) ≤ num * 2 ^ (-(e + 1)).toNat
  rcases Int.lt_or_le e 0 with negative | positive
  · have lower : (-e).toNat = (-(e + 1)).toNat + 1 := by omega
    have same : (e + 1).toNat = e.toNat := by omega
    rw [lower, Nat.pow_succ, Nat.pow_succ] at h
    rw [same]
    refine Nat.le_of_mul_le_mul_right ?_ (show 0 < 2 by decide)
    calc 2 ^ k * (den * 2 ^ e.toNat) * 2
        = 2 ^ k * 2 * (den * 2 ^ e.toNat) := by ring
      _ ≤ num * (2 ^ (-(e + 1)).toNat * 2) := h
      _ = num * 2 ^ (-(e + 1)).toNat * 2 := by ring
  · have higher : (e + 1).toNat = e.toNat + 1 := by omega
    have none : (-(e + 1)).toNat = 0 := by omega
    have none' : (-e).toNat = 0 := by omega
    rw [none', Nat.pow_succ] at h
    rw [higher, none, Nat.pow_succ]
    calc 2 ^ k * (den * (2 ^ e.toNat * 2))
        = 2 ^ k * 2 * (den * 2 ^ e.toNat) := by ring
      _ ≤ num * 2 ^ 0 := h

theorem scaled_pos {num den : Nat} (some_ : den ≠ 0) (e : Int) : 0 < (scaled num den e).2 :=
  Nat.mul_pos (Nat.pos_of_ne_zero some_) (power_pos (by decide) e)

/-- At the exponent that is chosen the quotient has 53 bits, or the exponent is the least. -/
theorem exponentFor_spec {num den : Nat} (above : num ≠ 0) (below : den ≠ 0) :
    IsNormal ((scaled num den (exponentFor num den)).1 / (scaled num den (exponentFor num den)).2)
      (exponentFor num den) := by
  let e : Int := max ((num.log2 : Int) - den.log2 - 53) (-1074)
  have least : -1074 ≤ e := Int.le_max_right ..
  have size : (num.log2 : Int) - den.log2 - 53 ≤ e := Int.le_max_left ..
  have choice : exponentFor num den =
      if 2 ^ 53 ≤ (scaled num den e).1 / (scaled num den e).2 then e + 1 else e := rfl
  by_cases carries : 2 ^ 53 ≤ (scaled num den e).1 / (scaled num den e).2
  · rw [choice, if_pos carries]
    have large := (Nat.le_div_iff_mul_le (scaled_pos below e)).mp carries
    refine ⟨?_, by omega, .inr ?_⟩
    · rw [Nat.div_lt_iff_lt_mul (scaled_pos below _)]
      exact scaled_lt below (by omega)
    · rw [Nat.le_div_iff_mul_le (scaled_pos below _)]
      exact scaled_succ large
  · rw [choice, if_neg carries]
    refine ⟨Nat.not_le.mp carries, least, ?_⟩
    rcases Int.le_total ((num.log2 : Int) - den.log2 - 53) (-1074) with small | normal
    · exact .inl (Int.max_eq_right small)
    · have exact_ : e = (num.log2 : Int) - den.log2 - 53 := Int.max_eq_left normal
      refine .inr ?_
      rw [Nat.le_div_iff_mul_le (scaled_pos below _)]
      exact le_scaled above (by omega)

theorem roundDiv_bounds (num den : Nat) :
    num / den ≤ roundDiv num den ∧ roundDiv num den ≤ num / den + 1 := by
  rw [roundDiv]
  split <;> omega

theorem normalized_ofRatio (negative : Bool) (num : Nat) {den : Nat} (below : den ≠ 0) :
    (ofRatio negative num den).Normalized := by
  rw [ofRatio]
  split
  · exact ⟨by decide, by decide, .inl rfl⟩
  · next above =>
    obtain ⟨small, least, form⟩ := exponentFor_spec above below
    obtain ⟨low, high⟩ := roundDiv_bounds (scaled num den (exponentFor num den)).1
      (scaled num den (exponentFor num den)).2
    have top : power 2 53 = 2 ^ 53 := rfl
    have half : power 2 52 = 2 ^ 52 := rfl
    dsimp only
    split
    · split
      · trivial
      · show IsNormal (power 2 52) _
        rw [half]
        exact ⟨by decide, by omega, .inr (Nat.le_refl _)⟩
    · next other =>
      rw [top] at other
      split
      · trivial
      · exact ⟨by omega, least, form.imp id fun h => Nat.le_trans h low⟩

/-! ## Arithmetic -/

theorem normalized_zeroOf (negative : Bool) : (zeroOf negative).Normalized :=
  ⟨by decide, by decide, .inl rfl⟩

theorem normalized_neg {x : Binary64} (h : x.Normalized) : x.neg.Normalized := by
  cases x <;> exact h

theorem normalized_ofDecimal (negative : Bool) (digits : Nat) (exponent : Int) :
    (ofDecimal negative digits exponent).Normalized := by
  rw [ofDecimal]
  split
  · exact normalized_zeroOf negative
  · split
    · trivial
    · exact normalized_ofRatio _ _ (Nat.ne_of_gt (power_pos (by decide) _))

theorem normalized_mul (x y : Binary64) : (x.mul y).Normalized := by
  cases x <;> cases y <;> simp only [mul] <;> first
    | trivial
    | exact normalized_ofRatio _ _ (Nat.ne_of_gt (power_pos (by decide) _))
    | (split <;> trivial)

theorem normalized_add (x y : Binary64) : (x.add y).Normalized := by
  cases x <;> cases y <;> simp only [add] <;> first
    | trivial
    | (split
       · trivial
       · trivial)
    | skip
  split
  · exact normalized_zeroOf _
  · exact normalized_ofRatio _ _ (Nat.ne_of_gt (power_pos (by decide) _))

/-! ## Numbers of one size -/

/-- What a whole number that a mantissa, an exponent and a sign make says about them. -/
theorem toInt?_eq_some {s : Bool} {m : Nat} {e a : Int} (h : (finite s m e).toInt? = some a) :
    a.natAbs * 2 ^ (-e).toNat = m * 2 ^ e.toNat ∧ (s = true → a ≤ 0) ∧ (s = false → 0 ≤ a) := by
  rw [toInt?] at h
  dsimp only at h
  split at h
  · next whole =>
    rw [power_two] at whole
    have parts : m = 2 ^ (-e).toNat * (m / 2 ^ (-e).toNat) :=
      (Nat.mul_div_cancel' (Nat.dvd_of_mod_eq_zero whole)).symm
    have size : a.natAbs = m / 2 ^ (-e).toNat * 2 ^ e.toNat := by
      have h := Option.some.inj h
      simp only [power_two] at h
      rw [← h]
      split <;> omega
    refine ⟨?_, ?_, ?_⟩
    · rw [size]
      conv => rhs; rw [parts]
      ring
    · rintro rfl
      rw [← Option.some.inj h, if_pos rfl]
      omega
    · rintro rfl
      rw [← Option.some.inj h, if_neg Bool.false_ne_true]
      omega
  · cases h

/-- Of two forms of one size the one with the smaller exponent has the larger mantissa. -/
theorem le_of_same_size {n m m' : Nat} {e e' : Int} (h : n * 2 ^ (-e).toNat = m * 2 ^ e.toNat)
    (h' : n * 2 ^ (-e').toNat = m' * 2 ^ e'.toNat) (le : e ≤ e') :
    m = m' * 2 ^ (e' - e).toNat := by
  have exponents : e'.toNat + (-e).toNat = (e' - e).toNat + (e.toNat + (-e').toNat) := by omega
  refine Nat.eq_of_mul_eq_mul_right (Nat.two_pow_pos (e.toNat + (-e').toNat)) ?_
  calc m * 2 ^ (e.toNat + (-e').toNat)
      = m * 2 ^ e.toNat * 2 ^ (-e').toNat := by rw [Nat.pow_add, Nat.mul_assoc]
    _ = n * 2 ^ (-e').toNat * 2 ^ (-e).toNat := by rw [← h]; ring
    _ = m' * 2 ^ (e'.toNat + (-e).toNat) := by rw [h', Nat.pow_add, Nat.mul_assoc]
    _ = m' * 2 ^ (e' - e).toNat * 2 ^ (e.toNat + (-e').toNat) := by
      rw [exponents, Nat.pow_add, Nat.mul_assoc]

/-- Rounding leaves one form for a size. -/
theorem form_unique {n m m' : Nat} {e e' : Int} (normal : IsNormal m e) (normal' : IsNormal m' e')
    (h : n * 2 ^ (-e).toNat = m * 2 ^ e.toNat) (h' : n * 2 ^ (-e').toNat = m' * 2 ^ e'.toNat) :
    m = m' ∧ e = e' := by
  have no_gap : ∀ {m m' : Nat} {e e' : Int}, IsNormal m e → IsNormal m' e' → e < e' →
      m = m' * 2 ^ (e' - e).toNat → False := by
    intro m m' e e' normal normal' lt same
    have bits : 2 ^ 52 ≤ m' := normal'.2.2.resolve_left (by have := normal.2.1; omega)
    have twice : 2 ^ 1 ≤ 2 ^ (e' - e).toNat := Nat.pow_le_pow_right (by decide) (by omega)
    have large : 2 ^ 52 * 2 ^ 1 ≤ m := same ▸ Nat.mul_le_mul bits twice
    have small := normal.1
    omega
  rcases Int.lt_trichotomy e e' with lt | rfl | gt
  · exact (no_gap normal normal' lt (le_of_same_size h h' (Int.le_of_lt lt))).elim
  · have same := le_of_same_size h h' (Int.le_refl e)
    rw [Int.sub_self] at same
    exact ⟨same.trans (Nat.mul_one m'), rfl⟩
  · exact (no_gap normal' normal gt (le_of_same_size h' h (Int.le_of_lt gt))).elim

/-- Numbers of the size of one whole number are equal. -/
theorem numEq_of_toInt? {x y : Binary64} (hx : x.Normalized) (hy : y.Normalized) {a : Int}
    (h : x.toInt? = some a) (h' : y.toInt? = some a) : x.numEq y = true := by
  cases x with
  | nan => cases h
  | infinite s => cases h
  | finite s m e =>
    cases y with
    | nan => cases h'
    | infinite s' => cases h'
    | finite s' m' e' =>
      obtain ⟨size, negative, positive⟩ := toInt?_eq_some h
      obtain ⟨size', negative', positive'⟩ := toInt?_eq_some h'
      obtain ⟨rfl, rfl⟩ := form_unique hx hy size size'
      by_cases zero : m = 0
      · simp [numEq, zero]
      · have some_ : a ≠ 0 := by
          rintro rfl
          have positive := Nat.mul_pos (Nat.pos_of_ne_zero zero) (Nat.two_pow_pos e.toNat)
          rw [← size] at positive
          simp at positive
        have signs : s = s' := by
          cases s <;> cases s' <;> grind
        simp [numEq, signs]

/-- Equal numbers are the same whole number, or both are none. -/
theorem toInt?_of_numEq {x y : Binary64} (h : x.numEq y = true) : x.toInt? = y.toInt? := by
  cases x with
  | nan => cases y <;> cases h
  | infinite s => cases y <;> first | rfl | cases h
  | finite s m e =>
    cases y with
    | nan => cases h
    | infinite s' => cases h
    | finite s' m' e' =>
      simp only [numEq, Bool.and_eq_true, beq_iff_eq, Bool.or_eq_true] at h
      obtain ⟨rfl, rfl | ⟨rfl, rfl⟩⟩ := h
      · simp [toInt?]
      · rfl

/-- Numbers that are equal to a third are equal. -/
theorem numEq_of_numEq {x y z : Binary64} (h : x.numEq z = true) (h' : y.numEq z = true) :
    x.numEq y = true := by
  cases z with
  | nan => cases x <;> cases h
  | infinite s =>
    cases x <;> cases y <;> simp_all [numEq]
  | finite s m e =>
    cases x <;> cases y <;> simp_all [numEq]
    grind

end Binary64

/-! ## Numbers of a text -/

namespace Numeral

theorem normalized_decimal? {negative : Bool} {s : Text} {x : Binary64}
    (h : decimal? negative s = some x) : x.Normalized := by
  rw [decimal?] at h
  split at h
  · split at h
    · cases h
      exact Binary64.normalized_ofDecimal ..
    · cases h

theorem normalized_float? {s : Text} {x : Binary64} (h : float? s = some x) : x.Normalized := by
  rw [float?] at h
  split at h
  · split at h
    · cases h
      trivial
    · split at h
      · cases h
        trivial
      · exact normalized_decimal? h

end Numeral

namespace Literal

theorem normalized_floatSixties {parts : List Binary64} {sum x : Binary64} {base : Int}
    (start : sum.Normalized) (h : floatSixties sum base parts = .ok x) : x.Normalized := by
  induction parts generalizing sum base with
  | nil =>
    cases h
    exact start
  | cons d r ih =>
    rw [floatSixties] at h
    split at h
    · cases h
    · exact ih (Binary64.normalized_add ..) h

theorem normalized_floatSize {s : Text} {x : Binary64} (h : floatSize s = .ok x) :
    x.Normalized := by
  rw [floatSize] at h
  split at h
  · obtain ⟨parts, -, h⟩ := bind_eq_ok.mp h
    exact normalized_floatSixties (Binary64.normalized_zeroOf false) h
  · cases number : Numeral.float? s with
    | none =>
      rw [number] at h
      cases h
    | some y =>
      rw [number] at h
      cases h
      exact Numeral.normalized_float? number

/-- A floating-point number is the one not-a-number or a number. -/
theorem nan_or_float {s : Text} {v : Value} (h : float s = .ok v) : v = .nan ∨ ∃ x, v = .float x := by
  rw [float] at h
  obtain ⟨⟨negative, size⟩, -, h⟩ := bind_eq_ok.mp h
  dsimp only at h
  split at h
  · cases h
    exact .inr ⟨_, rfl⟩
  · split at h
    · cases h
      exact .inl rfl
    · obtain ⟨y, -, h⟩ := bind_eq_ok.mp h
      cases h
      exact .inr ⟨_, rfl⟩

/-- The number that a text stands for has the form that rounding leaves. -/
theorem normalized_float {s : Text} {x : Binary64} (h : float s = .ok (.float x)) :
    x.Normalized := by
  rw [float] at h
  obtain ⟨⟨negative, size⟩, -, h⟩ := bind_eq_ok.mp h
  dsimp only at h
  split at h
  · cases h
    trivial
  · split at h
    · cases h
    · obtain ⟨y, number, h⟩ := bind_eq_ok.mp h
      cases h
      have normal := normalized_floatSize number
      split
      · exact Binary64.normalized_neg normal
      · exact normal

end Literal

end YamlEdit
