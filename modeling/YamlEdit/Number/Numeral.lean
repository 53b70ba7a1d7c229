import YamlEdit.Number.Binary64
import YamlEdit.Text.Blank
import YamlEdit.Text.Digit

/-!
# Numerals

Reading whole and floating-point numbers from text. Blanks around a numeral are ignored, and a
decimal digit of any script counts as the digit it is.
-/

namespace YamlEdit.Numeral

/-- The space around a numeral; the separator controls are none. -/
def isPadding (c : Char) : Bool :=
  Text.isBlank c && !(0x1C ≤ c.toNat && c.toNat ≤ 0x1F)

/-- A digit of any script as its ASCII form; all other characters stay. -/
def toAscii (c : Char) : Char :=
  match Text.decimalValue? c with
  | some n => Nat.digitChar n
  | none => c

/-- The numeral between its padding, in ASCII digits. -/
def bare (s : Text) : Text :=
  (Text.trimBy s isPadding).map toAscii

/-- Takes the sign off; the flag says that it was a minus. -/
def unsigned : Text → Bool × Text
  | '-' :: r => (true, r)
  | '+' :: r => (false, r)
  | s => (false, s)

/-- The value of an ASCII digit, where letters of both cases follow nine. -/
def digitValue? (c : Char) : Option Nat :=
  if '0' ≤ c ∧ c ≤ '9' then some (c.toNat - '0'.toNat)
  else if 'a' ≤ c ∧ c ≤ 'z' then some (c.toNat - 'a'.toNat + 10)
  else if 'A' ≤ c ∧ c ≤ 'Z' then some (c.toNat - 'A'.toNat + 10)
  else none

/-- The number that digits of a base spell behind the number `acc`. -/
def digitsFrom? (base : Nat) : Nat → Text → Option Nat
  | acc, [] => some acc
  | acc, c :: r =>
    match digitValue? c with
    | some d => if d < base then digitsFrom? base (acc * base + d) r else none
    | none => none

/-- The number that digits of a base spell; there is at least one. -/
def digits? (base : Nat) (s : Text) : Option Nat :=
  if s.isEmpty then none else digitsFrom? base 0 s

/-- Takes the sign of a base off: `0b`, `0o` or `0x` in either case. -/
def withoutBaseSign (base : Nat) (s : Text) : Text :=
  match s with
  | '0' :: c :: r =>
    if (base, c.toLower) ∈ [(2, 'b'), (8, 'o'), (16, 'x')] then r else s
  | _ => s

/-- The most digits that a decimal numeral may have. -/
def maxDecimalDigits : Nat := 4300

/-- Reads a whole number. The base may be repeated in front as its sign. -/
def int? (base : Nat) (s : Text) : Option Int :=
  let (negative, size) := unsigned (bare s)
  if base == 10 && maxDecimalDigits < size.length then none
  else
    (digits? base (withoutBaseSign base size)).map fun n =>
      if negative then -(n : Int) else n

/-- The decimal exponent at the end of a numeral: none when nothing is left, or what a sign and at
least one digit after an `e` say. -/
def exponent? : Text → Option Int
  | [] => some 0
  | c :: r =>
    if c == 'e' then
      let (negative, size) := unsigned r
      (digits? 10 size).map fun n => if negative then -(n : Int) else n
    else none

/-- Reads a decimal numeral without a sign, in small letters: digits with or without a point, at
least one of them, and maybe an exponent. -/
def decimal? (negative : Bool) (s : Text) : Option Binary64 :=
  let whole := s.takeWhile Char.isDigit
  let rest := s.dropWhile Char.isDigit
  let (fraction, rest) :=
    match rest with
    | '.' :: r => (r.takeWhile Char.isDigit, r.dropWhile Char.isDigit)
    | r => ([], r)
  match digits? 10 (whole ++ fraction), exponent? rest with
  | some n, some e => some (.ofDecimal negative n (e - fraction.length))
  | _, _ => none

/-- Reads a floating-point number, also the words for infinity and not-a-number. -/
def float? (s : Text) : Option Binary64 :=
  let (negative, size) := unsigned (Text.lower (bare s))
  if size = "inf".toList ∨ size = "infinity".toList then some (.infinite negative)
  else if size = "nan".toList then some .nan
  else decimal? negative size

end YamlEdit.Numeral
