/-!
# Text

A document, a scalar and a log line are all lists of characters. Positions count characters from
zero, and a range runs from its start up to, and without, its stop.
-/

namespace YamlEdit

/-- A text is the list of its characters. -/
abbrev Text := List Char

namespace Text

/-- The characters from `start` up to `stop`; none when `stop ≤ start`. -/
def slice (s : Text) (start stop : Nat) : Text :=
  (s.drop start).take (stop - start)

/-- Cuts a text at every occurrence of `sep`, taken from the left without overlap; the first `skip`
characters belong to an occurrence that was already cut. An empty `sep` cuts nowhere. -/
def splitAfter (sep : Text) : Nat → Text → List Text
  | _, [] => [[]]
  | skip + 1, _ :: r => splitAfter sep skip r
  | 0, c :: r =>
    if !sep.isEmpty && sep.isPrefixOf (c :: r) then
      [] :: splitAfter sep (sep.length - 1) r
    else
      match splitAfter sep 0 r with
      | [] => [[c]]
      | piece :: pieces => (c :: piece) :: pieces

/-- The pieces of a text between the occurrences of `sep`: one more than there are occurrences. -/
def splitOn (s sep : Text) : List Text :=
  splitAfter sep 0 s

/-- Every occurrence of `old`, taken from the left without overlap, gives way to `new`. -/
def replaceAll (s old new : Text) : Text :=
  new.intercalate (splitOn s old)

/-- Whether `needle` stands somewhere in `s`. -/
def includes (s needle : Text) : Bool :=
  match s with
  | [] => needle.isEmpty
  | c :: r => needle.isPrefixOf (c :: r) || includes r needle

/-- The text without its longest end made of characters of `p`. -/
def dropEndWhile (s : Text) (p : Char → Bool) : Text :=
  (s.reverse.dropWhile p).reverse

/-- The text without the characters of `p` at its two ends. -/
def trimBy (s : Text) (p : Char → Bool) : Text :=
  dropEndWhile (s.dropWhile p) p

/-- Small letters in place of the capital letters A to Z. -/
def lower (s : Text) : Text :=
  s.map Char.toLower

/-- A number in decimal digits. -/
def ofNat (n : Nat) : Text :=
  Nat.toDigits 10 n

/-- A whole number in decimal digits, with a sign only when it is negative. -/
def ofInt (n : Int) : Text :=
  if n < 0 then '-' :: ofNat n.natAbs else ofNat n.natAbs

/-- A whole number in decimal digits with its sign always written. -/
def ofSigned (n : Int) : Text :=
  (if n < 0 then '-' else '+') :: ofNat n.natAbs

/-- A number in decimal digits, led by zeros up to `width` characters. -/
def padded (width n : Nat) : Text :=
  let digits := ofNat n
  List.replicate (width - digits.length) '0' ++ digits

/-- The last `width` digits of a number in base sixteen. -/
def hex : (width : Nat) → Nat → Text
  | 0, _ => []
  | width + 1, n => hex width (n / 16) ++ [Nat.digitChar (n % 16)]

@[simp] theorem splitAfter_nil (sep : Text) (skip : Nat) : splitAfter sep skip [] = [[]] := by
  cases skip <;> rfl

theorem getElem?_slice {s : Text} {start stop i : Nat} (h : start + i < stop) :
    (slice s start stop)[i]? = s[start + i]? := by
  rw [slice, List.getElem?_take_of_lt (by omega), List.getElem?_drop]

theorem length_slice_le (s : Text) (start stop : Nat) :
    (slice s start stop).length ≤ stop - start := by
  simp only [slice, List.length_take]
  exact Nat.min_le_left _ _

@[simp] theorem length_hex (width n : Nat) : (hex width n).length = width := by
  induction width generalizing n with
  | zero => rfl
  | succ width ih => simp [hex, ih]

end Text

end YamlEdit
