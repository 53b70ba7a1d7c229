import YamlEdit.Text.Basic

/-!
# UTF-8

Reading bytes as characters. A sequence that breaks off or has a wrong byte inside is refused from
its first byte up to the last one that could belong to it.
-/

namespace YamlEdit.Utf8

/-- Why bytes are no text. -/
inductive Reason where
  | startByte
  | continuationByte
  | endOfData
deriving DecidableEq, Repr

/-- The bytes that are at fault: where they start, how many they are, and the first of them. -/
structure Fault where
  reason : Reason
  start : Nat
  length : Nat
  byte : UInt8
deriving DecidableEq, Repr

/-- What a fault is called. -/
def Fault.message (f : Fault) : Text :=
  let reason :=
    match f.reason with
    | .startByte => "invalid start byte"
    | .continuationByte => "invalid continuation byte"
    | .endOfData => "unexpected end of data"
  let place :=
    if f.length = 1 then
      "byte 0x".toList ++ Text.hex 2 f.byte.toNat ++ " in position ".toList ++ Text.ofNat f.start
    else
      "bytes in position ".toList ++ Text.ofNat f.start ++ '-' ::
        Text.ofNat (f.start + f.length - 1)
  "'utf-8' codec can't decode ".toList ++ place ++ ": ".toList ++ reason.toList

/-- Whether a byte can follow in a sequence. -/
def isContinuation (b : UInt8) : Bool :=
  0x80 ≤ b && b < 0xC0

/-- The length of the sequence that a byte starts; none for a byte that starts none. -/
def sequenceLength? (b : UInt8) : Option Nat :=
  if b < 0x80 then some 1
  else if b < 0xC2 then none
  else if b < 0xE0 then some 2
  else if b < 0xF0 then some 3
  else if b < 0xF5 then some 4
  else none

/-- Whether a byte can be the second of a sequence. The bounds keep out numbers that a shorter
sequence can hold, the surrogates, and numbers past the last character. -/
def isSecond (first second : UInt8) : Bool :=
  isContinuation second &&
    !(first == 0xE0 && second < 0xA0) && !(first == 0xED && 0xA0 ≤ second) &&
    !(first == 0xF0 && second < 0x90) && !(first == 0xF4 && 0x90 ≤ second)

/-- How many bytes behind the first fit its sequence, out of those that are there. -/
def fitting (first : UInt8) (rest : List UInt8) : Nat :=
  match rest with
  | [] => 0
  | b :: r => if isSecond first b then 1 + (r.takeWhile isContinuation).length else 0

/-- The six bits of a continuation byte. -/
def bits (b : UInt8) : Nat :=
  b.toNat % 64

/-- The character of a whole sequence. -/
def assemble : List UInt8 → Char
  | [a] => Char.ofNat a.toNat
  | [a, b] => Char.ofNat (a.toNat % 32 * 64 + bits b)
  | [a, b, c] => Char.ofNat (a.toNat % 16 * 4096 + bits b * 64 + bits c)
  | [a, b, c, d] => Char.ofNat (a.toNat % 8 * 262144 + bits b * 4096 + bits c * 64 + bits d)
  | _ => '\x00'

/-- Reads bytes from a position on; the first `skip` bytes belong to a character read already. -/
def decodeFrom (position : Nat) : (skip : Nat) → List UInt8 → Except Fault Text
  | _, [] => .ok []
  | skip + 1, _ :: r => decodeFrom (position + 1) skip r
  | 0, b :: r =>
    match sequenceLength? b with
    | none => .error ⟨.startByte, position, 1, b⟩
    | some length =>
      let wanted := length - 1
      let present := min (fitting b (r.take wanted)) wanted
      if present = wanted then
        (decodeFrom (position + 1) wanted r).map (assemble (b :: r.take wanted) :: ·)
      else if present = r.length then .error ⟨.endOfData, position, present + 1, b⟩
      else .error ⟨.continuationByte, position, present + 1, b⟩

/-- The text that bytes spell. -/
def decode (bytes : List UInt8) : Except Fault Text :=
  decodeFrom 0 0 bytes

end YamlEdit.Utf8
