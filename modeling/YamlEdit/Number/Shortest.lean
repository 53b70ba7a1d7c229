import YamlEdit.Number.Binary64

/-!
# The shortest decimal of a floating-point number

A finite number is written with the fewest digits that read back as the same number, and of those
decimals with the one nearest to it. Numbers from 0.0001 up to 10^16 are written with a point and at
least one digit after it, all others with an exponent of at least two digits.
-/

namespace YamlEdit.Binary64

/-- The decimal `digits * 10 ^ exponent`. -/
structure Decimal where
  digits : Nat
  exponent : Int
deriving DecidableEq, Repr, Inhabited

/-- The fraction `num / den` that `m * 2 ^ e` is. -/
def fraction (m : Nat) (e : Int) : Nat × Nat :=
  (m * power 2 e, power 2 (-e))

/-- Whether a fraction is below a power of ten. -/
def belowPower (num den : Nat) (k : Int) : Bool :=
  num * power 10 (-k) < den * power 10 k

/-- The least power of ten above `m * 2 ^ e`, found near its binary logarithm. -/
def decimalScale (m : Nat) (e : Int) : Int :=
  let (num, den) := fraction m e
  let guess : Int := ((m.log2 + e) * 30103).fdiv 100000
  match [guess - 1, guess, guess + 1].find? (belowPower num den) with
  | some k => k
  | none => guess + 2

/-- The decimal of `n` digits that reads back as `m * 2 ^ e` and is nearest to it, below
`10 ^ scale`. Only the two neighbours on the grid of that many digits can be it. -/
def withDigits? (m : Nat) (e scale : Int) (n : Nat) : Option Decimal :=
  let grid := scale - n
  let (num, den) := fraction m e
  let num := num * power 10 (-grid)
  let den := den * power 10 grid
  let q := num / den
  let readsBack := fun d : Nat => ofDecimal false d grid == .finite false m e
  match readsBack q, readsBack (q + 1) with
  | true, true => some ⟨roundDiv num den, grid⟩
  | true, false => some ⟨q, grid⟩
  | false, true => some ⟨q + 1, grid⟩
  | false, false => none

/-- Moves zeros at the end of the digits into the exponent; at most `steps` of them. -/
def stripZeros : (steps : Nat) → Decimal → Decimal
  | 0, d => d
  | steps + 1, d =>
    if d.digits ≠ 0 && d.digits % 10 == 0 then stripZeros steps ⟨d.digits / 10, d.exponent + 1⟩
    else d

/-- The shortest decimal that reads back as the positive number `m * 2 ^ e`, and the nearest of
those. Seventeen digits always read back. -/
def shortest (m : Nat) (e : Int) : Decimal :=
  let scale := decimalScale m e
  let found := ((List.range 17).map (· + 1)).findSome? (withDigits? m e scale)
  stripZeros 17 (found.getD ⟨m * power 2 e, 0⟩)

/-- A decimal with a point, or with an exponent when it is very small or very large. -/
def Decimal.text (d : Decimal) : Text :=
  let digits := Text.ofNat d.digits
  let point : Int := d.exponent + digits.length
  if -4 < point ∧ point ≤ 16 then
    if point ≤ 0 then
      "0.".toList ++ List.replicate (-point).toNat '0' ++ digits
    else if digits.length ≤ point then
      digits ++ List.replicate (point - digits.length).toNat '0' ++ ".0".toList
    else
      digits.take point.toNat ++ '.' :: digits.drop point.toNat
  else
    let power := point - 1
    let tail := digits.drop 1
    digits.take 1 ++ (if tail.isEmpty then [] else '.' :: tail) ++
      'e' :: (if power < 0 then '-' else '+') :: Text.padded 2 power.natAbs

/-- A floating-point number in decimal. -/
def text : Binary64 → Text
  | nan => "nan".toList
  | infinite s => (if s then "-inf" else "inf").toList
  | finite s m e =>
    let size := if m = 0 then "0.0".toList else (shortest m e).text
    if s then '-' :: size else size

end YamlEdit.Binary64
