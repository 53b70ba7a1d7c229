import YamlEdit.Outline.Basic
import YamlEdit.Tag.Implicit

/-!
# Forms of a scalar

Which of the four forms of a scalar, plain, single-quoted, double-quoted and literal, can hold a
text, and which one is taken. A plain scalar must not look like anything else: it holds no indicator
where one would count, no blank at its ends and no line break.
-/

namespace YamlEdit.Outline

/-- Whether a character ends a line of a scalar. -/
def isLineEnd (c : Char) : Bool :=
  c == '\n' || c == '\x85' || c == '\u2028' || c == '\u2029'

/-- Whether a character separates words for an indicator beside it. -/
def isGap (c : Char) : Bool :=
  c == '\x00' || c == ' ' || c == '\t' || c == '\r' || isLineEnd c

/-- Whether a text ends here or goes on with a gap. -/
def gapNext : Text → Bool
  | [] => true
  | c :: _ => isGap c

/-- Whether only an escape can write a character. -/
def needsEscape (c : Char) : Bool :=
  let n := c.toNat
  !(c == '\n' || (0x20 ≤ n && n ≤ 0x7E) || n == 0x85 ||
    (((0xA0 ≤ n && n ≤ 0xD7FF) || (0xE000 ≤ n && n ≤ 0xFFFD) || (0x10000 ≤ n && n < 0x10FFFF)) &&
      n != 0xFEFF))

/-- Where indicators forbid a plain scalar. -/
structure Indicators where
  flow : Bool := false
  block : Bool := false

/-- Indicators of both. -/
def Indicators.or (a b : Indicators) : Indicators :=
  ⟨a.flow || b.flow, a.block || b.block⟩

/-- The indicators at the start of a text. -/
def leadingIndicators (s : Text) : Indicators :=
  let marker := "---".toList.isPrefixOf s || "...".toList.isPrefixOf s
  match s with
  | [] => {}
  | c :: r =>
    let always := marker || "#,[]\x7b\x7d&*!|>'\"%@\x60".toList.contains c
    let alone := (c == '?' || c == ':' || c == '-') && gapNext r
    ⟨always || c == '?' || c == ':' || alone, always || alone⟩

/-- The indicators inside of a text, behind its first character; `afterGap` says that the character
before is a gap. -/
def innerIndicators (afterGap : Bool) : Text → Indicators
  | [] => {}
  | c :: r =>
    let comment := c == '#' && afterGap
    let here : Indicators :=
      ⟨",?[]\x7b\x7d:".toList.contains c || comment, (c == ':' && gapNext r) || comment⟩
    here.or (innerIndicators (isGap c) r)

/-- The indicators of a text. -/
def indicators (s : Text) : Indicators :=
  match s with
  | [] => {}
  | c :: r => (leadingIndicators s).or (innerIndicators (isGap c) r)

/-- Whether a character of one class stands right before one of another. -/
def hasPair (p q : Char → Bool) : Text → Bool
  | a :: b :: r => (p a && q b) || hasPair p q (b :: r)
  | _ => false

/-- What a text allows. -/
structure Allowed where
  multiline : Bool
  flowPlain : Bool
  blockPlain : Bool
  singleQuoted : Bool
  literal : Bool

/-- The forms that can hold a text. -/
def allowed (s : Text) : Allowed :=
  let atEnds := fun p : Char → Bool => s.head?.any p || s.getLast?.any p
  let isSpace := fun c : Char => c == ' '
  let multiline := s.any isLineEnd
  let special := s.any needsEscape || hasPair isSpace isLineEnd s
  let plain := !atEnds isSpace && !multiline && !special
  let found := indicators s
  { multiline
    flowPlain := !s.isEmpty && plain && !found.flow
    blockPlain := plain && !found.block
    singleQuoted := !special && !hasPair isLineEnd isSpace s
    literal := !s.isEmpty && !special && !s.getLast?.any isSpace }

/-- A form of a written scalar. -/
inductive Form where
  | plain
  | singleQuoted
  | doubleQuoted
  | literal
deriving DecidableEq, Repr

/-- Where a node stands. -/
structure Place where
  /-- It is the whole document. -/
  isRoot : Bool := false
  /-- It is a key or a value of a mapping. -/
  inMapping : Bool := false
  /-- It is a key on one line with its value. -/
  isSimpleKey : Bool := false
  /-- It is inside of brackets or braces. -/
  inFlow : Bool := false

/-- The form that a scalar takes at a place. A scalar is plain if its tag is the one its text looks
like; only a string goes without a tag in the other forms. -/
def form (place : Place) (tag : Tag) (text : Text) (style : Style) : Form :=
  let a := allowed text
  let fits := if place.inFlow then a.flowPlain else a.blockPlain
  let keyFits := !(place.isSimpleKey && (text.isEmpty || a.multiline))
  match style with
  | .doubleQuoted => .doubleQuoted
  | .literal =>
    if !place.inFlow && !place.isSimpleKey && a.literal then .literal else .doubleQuoted
  | .any =>
    if tag = Tag.implicit text && keyFits && fits then .plain
    else if a.singleQuoted && !(place.isSimpleKey && a.multiline) then .singleQuoted
    else .doubleQuoted

/-- Whether a scalar of a form is written without its tag. -/
def tagIsImplied (tag : Tag) (text : Text) : Form → Bool
  | .plain => tag = Tag.implicit text
  | _ => tag = .str

/-- The short form of a tag of the repository. -/
def shortTag (tag : Tag) : Text :=
  '!' :: '!' :: tag.name.drop Tag.repositoryName.length

/-- The letter after the backslash for characters with an escape of their own. -/
def escapeLetter? (c : Char) : Option Char :=
  [('\x00', '0'), ('\x07', 'a'), ('\x08', 'b'), ('\t', 't'), ('\n', 'n'), ('\x0b', 'v'),
   ('\x0c', 'f'), ('\r', 'r'), ('\x1b', 'e'), ('"', '"'), ('\\', '\\'), ('\x85', 'N'),
   ('\xa0', '_'), ('\u2028', 'L'), ('\u2029', 'P')].lookup c

/-- Whether a double-quoted scalar shows a character as it is. -/
def isShown (c : Char) : Bool :=
  let n := c.toNat
  !(c == '"' || c == '\\' || n == 0x2028 || n == 0x2029 || n == 0xFEFF) &&
    ((0x20 ≤ n && n ≤ 0x7E) || (0xA0 ≤ n && n ≤ 0xD7FF) || (0xE000 ≤ n && n ≤ 0xFFFD))

/-- A character inside double quotes. -/
def escaped (c : Char) : Text :=
  if isShown c then [c]
  else
    match escapeLetter? c with
    | some letter => ['\\', letter]
    | none =>
      let upper := fun s : Text => s.map Char.toUpper
      if c.toNat ≤ 0xFF then '\\' :: 'x' :: upper (Text.hex 2 c.toNat)
      else if c.toNat ≤ 0xFFFF then '\\' :: 'u' :: upper (Text.hex 4 c.toNat)
      else '\\' :: 'U' :: upper (Text.hex 8 c.toNat)

/-- A text between double quotes; it never breaks a line. -/
def doubleQuoted (s : Text) : Text :=
  '"' :: s.flatMap escaped ++ ['"']

end YamlEdit.Outline
