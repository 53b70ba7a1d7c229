import YamlEdit.Text.Basic

/-!
# Binary floating-point numbers of 64 bits

A finite number is a mantissa below 2^53 times a power of two, with its sign. All arithmetic is
exact arithmetic on naturals followed by one rounding to the nearest number, where a tie goes to
the even mantissa.
-/

namespace YamlEdit

/-- A 64-bit binary floating-point number. Normal numbers have a mantissa of 53 bits, and zero and
the subnormal ones the exponent -1074. -/
inductive Binary64 where
  | nan
  | infinite (negative : Bool)
  | finite (negative : Bool) (mantissa : Nat) (exponent : Int)
deriving DecidableEq, Repr, Inhabited

namespace Binary64

/-- Zero with a sign. -/
def zeroOf (negative : Bool) : Binary64 :=
  .finite negative 0 (-1074)

/-- A power with a natural value: one where the exponent is negative. With a fraction, `power b e`
goes on one side and `power b (-e)` on the other. -/
def power (b : Nat) (e : Int) : Nat :=
  Nat.pow b e.toNat

/-- The quotient `num / den` over the power of two `2 ^ e`, as a fraction of naturals. -/
def scaled (num den : Nat) (e : Int) : Nat × Nat :=
  (num * power 2 (-e), den * power 2 e)

/-- The nearest natural to `num / den`; a tie goes to the even one. -/
def roundDiv (num den : Nat) : Nat :=
  let q := num / den
  let r := num % den
  if den < 2 * r || (2 * r == den && q % 2 == 1) then q + 1 else q

/-- The exponent of the number nearest to `num / den`, before the rounding carries. -/
def exponentFor (num den : Nat) : Int :=
  let e : Int := max ((num.log2 : Int) - den.log2 - 53) (-1074)
  let (n, d) := scaled num den e
  if power 2 53 ≤ n / d then e + 1 else e

/-- The number nearest to the quotient `num / den`, where `den` is not zero. -/
def ofRatio (negative : Bool) (num den : Nat) : Binary64 :=
  if num = 0 then zeroOf negative
  else
    let e := exponentFor num den
    let (n, d) := scaled num den e
    let m := roundDiv n d
    let (m, e) := if m = power 2 53 then (power 2 52, e + 1) else (m, e)
    if 971 < e then .infinite negative else .finite negative m e

/-- The number nearest to `digits * 10 ^ exponent`. Powers far outside of the range are settled by
their size alone. -/
def ofDecimal (negative : Bool) (digits : Nat) (exponent : Int) : Binary64 :=
  let size : Int := exponent + (Nat.toDigits 10 digits).length
  if digits = 0 || size < -400 then zeroOf negative
  else if 400 < size then .infinite negative
  else ofRatio negative (digits * power 10 exponent) (power 10 (-exponent))

/-- The number nearest to a whole number; none when it is too large for any. -/
def ofInt? (n : Int) : Option Binary64 :=
  match ofRatio (n < 0) n.natAbs 1 with
  | .infinite _ => none
  | x => some x

/-- The number with the other sign. -/
def neg : Binary64 → Binary64
  | nan => nan
  | infinite s => .infinite !s
  | finite s m e => .finite (!s) m e

/-- The exact sum of two finite numbers, as a whole number over a power of two. -/
def exactSum (s : Bool) (m : Nat) (e : Int) (s' : Bool) (m' : Nat) (e' : Int) : Int × Int :=
  let low := min e e'
  let term := fun (s : Bool) (m : Nat) (e : Int) =>
    let size : Int := ((m * power 2 (e - low) : Nat) : Int)
    if s then -size else size
  (term s m e + term s' m' e', low)

/-- The rounded sum. -/
def add : Binary64 → Binary64 → Binary64
  | nan, _ => nan
  | _, nan => nan
  | infinite s, infinite s' => if s = s' then .infinite s else nan
  | infinite s, _ => .infinite s
  | _, infinite s => .infinite s
  | finite s m e, finite s' m' e' =>
    let (sum, low) := exactSum s m e s' m' e'
    if sum = 0 then zeroOf (s && s')
    else ofRatio (sum < 0) (sum.natAbs * power 2 low) (power 2 (-low))

/-- The rounded product. -/
def mul : Binary64 → Binary64 → Binary64
  | nan, _ => nan
  | _, nan => nan
  | infinite s, infinite s' => .infinite (s != s')
  | infinite s, finite s' m _ => if m = 0 then nan else .infinite (s != s')
  | finite s m _, infinite s' => if m = 0 then nan else .infinite (s != s')
  | finite s m e, finite s' m' e' =>
    ofRatio (s != s') (m * m' * power 2 (e + e')) (power 2 (-(e + e')))

/-- Numeric equality: the two zeros are equal, and not-a-number equals nothing. -/
def numEq : Binary64 → Binary64 → Bool
  | infinite s, infinite s' => s == s'
  | finite s m e, finite s' m' e' => m == m' && (m == 0 || (s == s' && e == e'))
  | _, _ => false

/-- The whole number that a floating-point number is, if it is one. -/
def toInt? : Binary64 → Option Int
  | finite s m e =>
    let den := power 2 (-e)
    if m % den = 0 then
      let size : Int := ((m / den * power 2 e : Nat) : Int)
      some (if s then -size else size)
    else none
  | _ => none

/-- Whether a number lies strictly between two whole ones. -/
def isBetween (low high : Nat) : Binary64 → Bool
  | finite false m e =>
    low * power 2 (-e) < m * power 2 e && m * power 2 e < high * power 2 (-e)
  | _ => false

theorem numEq_comm (x y : Binary64) : x.numEq y = y.numEq x := by
  have flip : ∀ a b : Bool, (a == b) = (b == a) := by decide
  cases x <;> cases y <;> simp only [numEq]
  · exact flip ..
  · next s m e s' m' e' =>
    by_cases h : m = m'
    · subst h
      simp only [flip s s', Bool.beq_comm (a := e)]
    · simp [beq_false_of_ne h, beq_false_of_ne (Ne.symm h)]

theorem numEq_self {x : Binary64} (h : x ≠ nan) : x.numEq x = true := by
  cases x <;> simp_all [numEq]

end Binary64

end YamlEdit
