import YamlEdit.Token.Basic
import YamlEdit.Token.Chars

/-!
# Names, tags and directives

The tokens that are made of names: anchors and aliases, tags with a handle or between angle
brackets, and directive lines.
-/

namespace YamlEdit.Scan

/-- Whether an anchor or alias may end before the rest of a text. -/
def endsName : Text → Bool
  | [] => true
  | c :: r => atSpace (c :: r) || "?:,]\x7d%@\x60".toList.contains c

/-- Reads the name of an anchor or an alias. -/
def anchorName (of : ScanFault.Owner) (s : Text) : Answer (Text × Text) :=
  let name := s.takeWhile isNameChar
  let rest := s.dropWhile isNameChar
  if name.isEmpty then .error (.name of s.head?, s)
  else if endsName rest then .ok (name, rest)
  else .error (.name of rest.head?, rest)

/-! ## Tags -/

/-- Whether a character of a tag stands for itself. -/
def isUriChar (c : Char) : Bool :=
  isNameChar c || ";/?:@&=+$,.!~*'()[]".toList.contains c

/-- Reads the bytes of a chain of escapes, each a percent sign and two digits of base sixteen. -/
def escapedBytes (of : ScanFault.Owner) (s : Text) : Answer (List UInt8 × Text) :=
  match s with
  | [] => .ok ([], [])
  | [c] => if c == '%' then .error (.uriEscape of none, []) else .ok ([], [c])
  | [c, a] => if c == '%' then .error (.uriEscape of (firstNoHex [a]), [a]) else .ok ([], [c, a])
  | c :: a :: b :: r =>
    if c == '%' then
      match hexValue? a, hexValue? b with
      | some x, some y =>
        match escapedBytes of r with
        | .ok (bytes, rest) => .ok (UInt8.ofNat (x * 16 + y) :: bytes, rest)
        | .error e => .error e
      | _, _ => .error (.uriEscape of (firstNoHex [a, b]), a :: b :: r)
    else .ok ([], c :: a :: b :: r)
termination_by structural s

/-- Reads the characters of a tag: those that stand for themselves, and escapes for the bytes of
others. Every step takes at least one character, so there are fewer than `steps` of them. -/
def uriChars (of : ScanFault.Owner) : (steps : Nat) → Text → Answer (Text × Text)
  | 0, s => .ok ([], s)
  | steps + 1, s =>
    match s with
    | [] => .ok ([], [])
    | c :: r =>
      if c == '%' then do
        let (bytes, rest) ← escapedBytes of s
        match Utf8.decode bytes with
        | .error fault => .error (.uriBytes of fault, s)
        | .ok text => do
          let (more, rest) ← uriChars of steps rest
          return (text ++ more, rest)
      else if isUriChar c then do
        let (more, rest) ← uriChars of steps r
        return (c :: more, rest)
      else .ok ([], s)

/-- Reads the characters of a tag; there is at least one. -/
def uri (of : ScanFault.Owner) (s : Text) : Answer (Text × Text) :=
  match s with
  | [] => .error (.uri of none, s)
  | c :: _ =>
    if c == '%' || isUriChar c then uriChars of (s.length + 1) s else .error (.uri of (some c), s)

/-- Reads a tag's handle: an exclamation mark, or a name between two of them. -/
def handle (of : ScanFault.Owner) (s : Text) : Answer (Text × Text) :=
  match s with
  | '!' :: ' ' :: r => .ok (['!'], ' ' :: r)
  | '!' :: r =>
    let name := r.takeWhile isNameChar
    match r.dropWhile isNameChar with
    | '!' :: rest => .ok ('!' :: name ++ ['!'], rest)
    | rest => .error (.handle of rest.head?, rest)
  | _ => .error (.handle of s.head?, s)

/-- Whether a second exclamation mark follows before the next gap. -/
def hasHandle (s : Text) : Bool :=
  (s.takeWhile fun c => c ≠ ' ' && !isBreak c).contains '!'

/-- Reads a tag behind its exclamation mark: a full name between angle brackets, nothing, or a
handle and the rest of a name. -/
def tagName (s : Text) : Answer ((Option Text × Text) × Text) := do
  match s with
  | '<' :: r =>
    let (name, rest) ← uri .tag r
    match rest with
    | '>' :: rest => return ((none, name), rest)
    | _ => throw (.tagClose rest.head?, rest)
  | _ =>
    if atSpace s then return ((none, ['!']), s)
    let (handle, s) ← if hasHandle s then handle .tag ('!' :: s) else pure (['!'], s)
    let (name, rest) ← uri .tag s
    return ((some handle, name), rest)

/-- Reads a tag behind its exclamation mark up to a gap. -/
def tag (s : Text) : Answer ((Option Text × Text) × Text) := do
  let (tag, rest) ← tagName s
  if !atGap rest then throw (.spaceAfter .tag rest.head?, rest)
  return (tag, rest)

/-! ## Directives -/

/-- Reads a number of a version. -/
def versionNumber (s : Text) : Answer (Nat × Text) :=
  let ds := s.takeWhile Char.isDigit
  if ds.isEmpty then .error (.versionDigit s.head?, s)
  else .ok (ds.foldl (fun n c => n * 10 + (c.toNat - '0'.toNat)) 0, s.dropWhile Char.isDigit)

/-- Reads the version of a version directive. -/
def version (s : Text) : Answer (Directive × Text) := do
  let (major, s) ← versionNumber (skipSpaces s)
  match s with
  | '.' :: s =>
    let (minor, s) ← versionNumber s
    if !atGap s then throw (.versionEnd s.head?, s)
    return (.version major minor, s)
  | _ => throw (.versionDot s.head?, s)

/-- Reads the handle of a tag directive and what it stands for. -/
def handleRule (s : Text) : Answer (Directive × Text) := do
  let (handle, s) ← handle .directive (skipSpaces s)
  if s.head? ≠ some ' ' then throw (.spaceAfter .directive s.head?, s)
  let (start, s) ← uri .directive (skipSpaces s)
  if !atGap s then throw (.spaceAfter .directive s.head?, s)
  return (.handle handle start, s)

/-- A directive, with what is left behind it and behind the end of its line. -/
structure DirectiveLine where
  directive : Directive
  stop : Text
  rest : Text

/-- Reads a directive behind its percent sign, with the rest of its line. -/
def directive (s : Text) : Answer DirectiveLine := do
  let name := s.takeWhile isNameChar
  let rest := s.dropWhile isNameChar
  if name.isEmpty then throw (.name .directive s.head?, s)
  if !atGap rest then throw (.name .directive rest.head?, rest)
  let (d, stop) ←
    if name = "YAML".toList then version rest
    else if name = "TAG".toList then handleRule rest
    else pure (.reserved name, rest)
  let line := if name = "YAML".toList ∨ name = "TAG".toList then stop else skipLine stop
  let after := skipComment line
  if !atLineEnd after then throw (.directiveEnd after.head?, after)
  return ⟨d, stop, (afterBreak? after).getD after⟩

end YamlEdit.Scan
