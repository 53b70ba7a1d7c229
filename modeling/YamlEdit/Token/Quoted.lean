import YamlEdit.Token.Plain

/-!
# Quoted scalars

Between single quotes only the quote itself is special, which is written twice. Between double
quotes a backslash starts an escape. In both, blanks around a line break are dropped and line breaks
are folded as in plain scalars; a backslash before a line break joins the lines without a space.
-/

namespace YamlEdit.Scan.Quoted

/-- What lies between the last character and the place of reading. -/
inductive Gap where
  /-- Blanks, last one first. -/
  | blanks (reversed : Text)
  /-- Line breaks; the first one is missing when it was escaped. -/
  | lines (first : Option Char) (breaks : Text)
deriving Repr

/-- The text that a gap is read as. -/
def Gap.text : Gap → Text
  | blanks reversed => reversed.reverse
  | lines first breaks => folded first breaks

/-- The gap with one more blank. -/
def Gap.blank (c : Char) : Gap → Gap
  | blanks reversed => blanks (c :: reversed)
  | gap => gap

/-- The gap with one more line break. -/
def Gap.line (b : Char) : Gap → Gap
  | blanks _ => lines (some b) []
  | lines first breaks => lines first (breaks ++ [b])

/-- The character for the letter of an escape. -/
def escape? (c : Char) : Option Char :=
  [('0', '\x00'), ('a', '\x07'), ('b', '\x08'), ('t', '\t'), ('\t', '\t'), ('n', '\n'),
   ('v', '\x0b'), ('f', '\x0c'), ('r', '\r'), ('e', '\x1b'), (' ', ' '), ('"', '"'), ('\\', '\\'),
   ('/', '/'), ('N', '\x85'), ('_', '\xa0'), ('L', '\u2028'), ('P', '\u2029')].lookup c

/-- How many digits of base sixteen follow the letter of an escape. -/
def escapeDigits? (c : Char) : Option Nat :=
  [('x', 2), ('u', 4), ('U', 8)].lookup c

/-- The text of the first part before that of the rest. -/
def prepend (text : Text) : Answer (Text × Text) → Answer (Text × Text)
  | .ok (t, rest) => .ok (text ++ t, rest)
  | .error e => .error e

/-- The character of an escape by number, behind its letter. -/
def numbered (digits : Nat) (s : Text) : Answer Char :=
  let ds := s.take digits
  match hexNumber? 0 ds with
  | some n =>
    if ds.length < digits then .error (.hexEscape digits none, s)
    else if 0x10FFFF < n then .error (.noCharacter n, s)
    else .ok (Char.ofNat n)
  | none => .error (.hexEscape digits (firstNoHex ds), s)

/-- Reads on from a gap. The first `skip` characters were read already as part of an escape. The
answer is the text up to the closing quote and what is left behind it. -/
def readFrom (double : Bool) (gap : Gap) (skip : Nat) (s : Text) : Answer (Text × Text) :=
  match s with
  | [] => .error (.quoteOpen, [])
  | c :: r =>
    match skip with
    | skip + 1 => readFrom double gap skip r
    | 0 =>
      if isReturnOfPair c r then readFrom double gap 0 r
      else if isBreak c then
        if atSeparator r then .error (.separatorInQuotes, r)
        else readFrom double (gap.line (breakChar c)) 0 r
      else if c == ' ' || c == '\t' then readFrom double (gap.blank c) 0 r
      else if !double && c == '\'' then
        if r.head? == some '\'' then
          prepend (gap.text ++ ['\'']) (readFrom double (.blanks []) 1 r)
        else .ok (gap.text, r)
      else if double && c == '"' then .ok (gap.text, r)
      else if double && c == '\\' then
        match r with
        | [] => .error (.unknownEscape none, [])
        | e :: behind =>
          match escape? e, escapeDigits? e with
          | some x, _ => prepend (gap.text ++ [x]) (readFrom double (.blanks []) 1 r)
          | none, some digits =>
            match numbered digits behind with
            | .ok x => prepend (gap.text ++ [x]) (readFrom double (.blanks []) (digits + 1) r)
            | .error e => .error e
          | none, none =>
            if isBreak e then
              let width := if isReturnOfPair e behind then 2 else 1
              if atSeparator (r.drop width) then .error (.separatorInQuotes, r.drop width)
              else prepend gap.text (readFrom double (.lines none []) width r)
            else .error (.unknownEscape (some e), r)
      else prepend (gap.text ++ [c]) (readFrom double (.blanks []) 0 r)
termination_by structural s

/-- Reads a quoted scalar behind its opening quote. -/
def read (double : Bool) (s : Text) : Answer (Text × Text) :=
  readFrom double (.blanks []) 0 s

end YamlEdit.Scan.Quoted
