import YamlEdit.Text.Basic

/-!
# Base 64

Bytes as letters, digits and two signs, six bits each. Reading skips every other character and stops
at the padding that completes a group of four.
-/

namespace YamlEdit.Base64

/-- The sixty-four characters in the order of their values. -/
def alphabet : Text :=
  "ABCDEFGHIJKLMNOPQRSTUVWXYZabcdefghijklmnopqrstuvwxyz0123456789+/".toList

/-- The character for six bits. -/
def char (n : Nat) : Char :=
  alphabet.getD n 'A'

/-- The six bits of a character. -/
def value? (c : Char) : Option Nat :=
  alphabet.findIdx? (· == c)

/-- Bytes in groups of four characters, the last one padded. -/
def encode : List UInt8 → Text
  | [] => []
  | [a] =>
    let n := a.toNat * 65536
    [char (n / 262144), char (n / 4096 % 64), '=', '=']
  | [a, b] =>
    let n := a.toNat * 65536 + b.toNat * 256
    [char (n / 262144), char (n / 4096 % 64), char (n / 64 % 64), '=']
  | a :: b :: c :: r =>
    let n := a.toNat * 65536 + b.toNat * 256 + c.toNat
    char (n / 262144) :: char (n / 4096 % 64) :: char (n / 64 % 64) :: char (n % 64) :: encode r

/-- Cuts a text after every `width` characters and ends each piece with a line feed; the text has
fewer than `pieces` pieces. -/
def feedLines (width : Nat) : (pieces : Nat) → Text → Text
  | 0, _ => []
  | pieces + 1, s =>
    if s.isEmpty then []
    else s.take width ++ '\n' :: feedLines width pieces (s.drop width)

/-- Bytes in lines of 76 characters. -/
def encodeLines (bytes : List UInt8) : Text :=
  let s := encode bytes
  feedLines 76 (s.length + 1) s

/-- Why a text is no base 64. -/
inductive Fault where
  /-- One character is left over, which is less than a byte. -/
  | leftover (dataChars : Nat)
  /-- The last group is not filled with padding. -/
  | padding
deriving DecidableEq, Repr

/-- What a fault is called. -/
def Fault.message : Fault → Text
  | leftover n =>
    "Invalid base64-encoded string: number of data characters (".toList ++ Text.ofNat n ++
      ") cannot be 1 more than a multiple of 4".toList
  | padding => "Incorrect padding".toList

/-- The state of reading: the bytes so far, last one first, the number of characters in the open
group, the bits carried over from it, and the padding seen since the last character. -/
structure Reader where
  bytes : List UInt8 := []
  filled : Nat := 0
  carry : Nat := 0
  pads : Nat := 0

/-- Takes the six bits of one more character. -/
def Reader.push (r : Reader) (n : Nat) : Reader :=
  match r.filled with
  | 0 => ⟨r.bytes, 1, n, 0⟩
  | 1 => ⟨UInt8.ofNat (r.carry * 4 + n / 16) :: r.bytes, 2, n % 16, 0⟩
  | 2 => ⟨UInt8.ofNat (r.carry * 16 + n / 4) :: r.bytes, 3, n % 4, 0⟩
  | _ => ⟨UInt8.ofNat (r.carry * 64 + n) :: r.bytes, 0, 0, 0⟩

/-- The bytes at the end of the text, unless a group is left open. -/
def Reader.finish (r : Reader) : Except Fault (List UInt8) :=
  match r.filled with
  | 0 => .ok r.bytes.reverse
  | 1 => .error (.leftover (r.bytes.length / 3 * 4 + 1))
  | _ => .error .padding

/-- Reads on from a state. -/
def decodeFrom (r : Reader) : Text → Except Fault (List UInt8)
  | [] => r.finish
  | c :: s =>
    if c == '=' then
      if r.filled < 2 then decodeFrom r s
      else if 4 ≤ r.filled + r.pads + 1 then .ok r.bytes.reverse
      else decodeFrom { r with pads := r.pads + 1 } s
    else
      match value? c with
      | none => decodeFrom r s
      | some n => decodeFrom (r.push n) s

/-- The bytes of a text in base 64. -/
def decode (s : Text) : Except Fault (List UInt8) :=
  decodeFrom {} s

end YamlEdit.Base64
