import YamlEdit.Load.Error
import YamlEdit.Number.Numeral
import YamlEdit.Time.Stamp
import YamlEdit.Value.Basic

/-!
# Values of scalars

What the text of a scalar stands for under the tags of the repository. Underscores in numbers are
ignored; numbers may be written to base two, eight, ten, sixteen and sixty.
-/

namespace YamlEdit.Literal

/-- A number of the text, or the fault of having none. -/
def orMalformed {α : Type} : Option α → Except LiteralFault α
  | some x => .ok x
  | none => .error .malformed

/-- The value of a word for true or false. -/
def bool (s : Text) : Except LiteralFault Value :=
  let words := [("yes", true), ("no", false), ("true", true), ("false", false), ("on", true),
    ("off", false)]
  match words.find? fun w => w.1.toList = Text.lower s with
  | some w => .ok (.bool w.2)
  | none => .error .notBool

/-- A text without the underscores that stand between digits. -/
def digitsOnly (s : Text) : Text :=
  s.filter (· ≠ '_')

/-- Takes the sign off a number that is not empty; the flag says that it was a minus. -/
def signed (s : Text) : Except LiteralFault (Bool × Text) :=
  match s with
  | [] => .error .emptyNumber
  | '-' :: r => .ok (true, r)
  | '+' :: r => .ok (false, r)
  | s => .ok (false, s)

/-- The size of a whole number to base sixty, from its parts. -/
def sixties (parts : List Int) : Int :=
  parts.foldl (fun n d => n * 60 + d) 0

/-- The size of a whole number without its sign. -/
def wholeSize (s : Text) : Except LiteralFault Int :=
  match s with
  | [] => .error .emptyNumber
  | ['0'] => .ok 0
  | '0' :: 'b' :: r => orMalformed (Numeral.int? 2 r)
  | '0' :: 'x' :: r => orMalformed (Numeral.int? 16 r)
  | '0' :: _ => orMalformed (Numeral.int? 8 s)
  | _ =>
    if s.contains ':' then do
      return sixties (← (Text.splitOn s [':']).mapM fun part => orMalformed (Numeral.int? 10 part))
    else orMalformed (Numeral.int? 10 s)

/-- The value of a whole number. -/
def int (s : Text) : Except LiteralFault Value := do
  let (negative, s) ← signed (digitsOnly s)
  let n ← wholeSize s
  return .int (if negative then -n else n)

/-- Adds the parts of a floating-point number to base sixty from the last one on; `base` is the
weight of the first part given. -/
def floatSixties (sum : Binary64) (base : Int) : List Binary64 → Except LiteralFault Binary64
  | [] => .ok sum
  | d :: r =>
    match Binary64.ofInt? base with
    | none => .error .overflow
    | some weight => floatSixties (sum.add (d.mul weight)) (base * 60) r

/-- The size of a floating-point number without its sign. -/
def floatSize (s : Text) : Except LiteralFault Binary64 :=
  if s.contains ':' then do
    let parts ← (Text.splitOn s [':']).mapM fun part => orMalformed (Numeral.float? part)
    floatSixties (.zeroOf false) 1 parts.reverse
  else orMalformed (Numeral.float? s)

/-- The value of a floating-point number. -/
def float (s : Text) : Except LiteralFault Value := do
  let (negative, s) ← signed (Text.lower (digitsOnly s))
  if s = ".inf".toList then return .float (.infinite negative)
  if s = ".nan".toList then return .nan
  let x ← floatSize s
  return .float (if negative then x.neg else x)

/-- The value of a date or a time. -/
def timestamp (s : Text) : Except LiteralFault Value :=
  match Stamp.read? s with
  | none => .error .notStamp
  | some stamp =>
    match stamp.clock with
    | none => if stamp.date.isValid then .ok (.date none stamp.date) else .error .malformed
    | some clock =>
      let t := clock.on stamp.date
      if t.isValid then .ok (.dateTime none t) else .error .malformed

/-- The bytes that a text in base 64 spells. -/
def binary (s : Text) : Except ConstructFault Value :=
  let ascii := s.takeWhile fun c => c.toNat < 128
  match s.dropWhile fun c => c.toNat < 128 with
  | [] => (Base64.decode s).mapError .base64 |>.map .bytes
  | c :: r =>
    let run := c :: r.takeWhile fun c => 128 ≤ c.toNat
    .error (.notAscii ascii.length run.length c)

end YamlEdit.Literal
