import YamlEdit.Tag.Basic
import YamlEdit.Time.Stamp

/-!
# Tags of plain scalars

A plain scalar without a tag has the type that its text looks like: the words for booleans and null,
the forms of whole and floating-point numbers, time stamps, the merge key and the value key; all
other text is a string. A line feed at the end of the text does not count.
-/

namespace YamlEdit.Tag

/-- Whether a character is a decimal digit or the underscore that may stand between digits. -/
def isDigitOrLine (c : Char) : Bool :=
  c.isDigit || c == '_'

/-- The text without its sign. -/
def withoutSign : Text → Text
  | '-' :: r | '+' :: r => r
  | s => s

/-- Whether a text is not empty and all its characters are in a class. -/
def allSome (p : Char → Bool) (s : Text) : Bool :=
  !s.isEmpty && s.all p

/-- The words for true and false. -/
def boolWords : List String :=
  ["yes", "Yes", "YES", "no", "No", "NO", "true", "True", "TRUE", "false", "False", "FALSE",
   "on", "On", "ON", "off", "Off", "OFF"]

/-- The words for null. -/
def nullWords : List String :=
  ["~", "null", "Null", "NULL", ""]

/-- Whether a text is one of some words. -/
def isOneOf (words : List String) (s : Text) : Bool :=
  words.any fun w => w.toList == s

/-- What is left after the parts of a number to base sixty, each a colon and a number below it. -/
def afterSixties : Text → Text
  | ':' :: a :: b :: r =>
    if a.isDigit && b.isDigit then
      if a ≤ '5' then afterSixties r else ':' :: a :: b :: r
    else if a.isDigit then afterSixties (b :: r)
    else ':' :: a :: b :: r
  | [':', a] => if a.isDigit then [] else [':', a]
  | s => s

/-- Whether a text is nothing or a signed power of ten. -/
def isPower : Text → Bool
  | [] => true
  | e :: sign :: digits =>
    (e == 'e' || e == 'E') && (sign == '+' || sign == '-') && allSome Char.isDigit digits
  | _ => false

/-- Whether a text is what may follow the point of a floating-point number. -/
def isFraction (s : Text) : Bool :=
  isPower (s.dropWhile isDigitOrLine)

/-- Whether a text is a floating-point number that starts with a digit: with a point, or to base
sixty with a point. -/
def isDottedNumber (s : Text) : Bool :=
  match s with
  | d :: r =>
    d.isDigit &&
      match r.dropWhile isDigitOrLine with
      | '.' :: fraction => isFraction fraction
      | ':' :: sixties =>
        match afterSixties (':' :: sixties) with
        | '.' :: fraction => fraction.all isDigitOrLine
        | _ => false
      | _ => false
  | [] => false

/-- Whether a text has the form of a floating-point number. -/
def isFloat (s : Text) : Bool :=
  isDottedNumber (withoutSign s) ||
    (match s with
      | '.' :: d :: r => d.isDigit && isFraction r
      | _ => false) ||
    isOneOf [".inf", ".Inf", ".INF"] (withoutSign s) ||
    isOneOf [".nan", ".NaN", ".NAN"] s

/-- Whether a character is a digit of base sixteen or the underscore. -/
def isHexOrLine (c : Char) : Bool :=
  isDigitOrLine c || ('a' ≤ c && c ≤ 'f') || ('A' ≤ c && c ≤ 'F')

/-- Whether a text without a sign has the form of a whole number: to base two, eight, ten, sixteen
or sixty. -/
def isWhole (s : Text) : Bool :=
  match s with
  | ['0'] => true
  | '0' :: 'b' :: r => allSome (fun c => c == '0' || c == '1' || c == '_') r
  | '0' :: 'x' :: r => allSome isHexOrLine r
  | '0' :: r => allSome (fun c => ('0' ≤ c && c ≤ '7') || c == '_') r
  | d :: r =>
    d.isDigit &&
      match r.dropWhile isDigitOrLine with
      | [] => true
      | rest => rest.head? == some ':' && afterSixties rest == []
  | [] => false

/-- Whether a text has the form of a whole number. -/
def isInt (s : Text) : Bool :=
  isWhole (withoutSign s)

/-- Whether a text has the form of a date or a time. -/
def isTimestamp (s : Text) : Bool :=
  match Stamp.read? s with
  | some stamp => stamp.isImplicit
  | none => false

/-- The text without a line feed at its end. -/
def withoutFinalFeed (s : Text) : Text :=
  if s.getLast? = some '\n' then s.dropLast else s

/-- The tag of a plain scalar with this text. -/
def implicit (s : Text) : Tag :=
  let t := withoutFinalFeed s
  if s = ['\n'] then str
  else if isOneOf boolWords t then bool
  else if isFloat t then float
  else if isInt t then int
  else if t = ['<', '<'] then merge
  else if isOneOf nullWords t then null
  else if isTimestamp s then timestamp
  else if t = ['='] then value
  else if isOneOf ["!", "&", "*"] t then ofName "tag:yaml.org,2002:yaml".toList
  else str

end YamlEdit.Tag
