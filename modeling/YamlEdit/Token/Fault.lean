import YamlEdit.Located
import YamlEdit.Text.Utf8

/-!
# Scan faults

Why a text cannot be cut into tokens.
-/

namespace YamlEdit

/-- What a name or a tag belongs to. -/
inductive ScanFault.Owner where
  | aliasName
  | anchorName
  | tag
  | directive
deriving DecidableEq, Repr

/-- How messages name an owner. -/
def ScanFault.Owner.label : ScanFault.Owner → String
  | aliasName => "an alias"
  | anchorName => "an anchor"
  | tag => "a tag"
  | directive => "a directive"

/-- A character that is not the one expected; none at the end of the text. -/
abbrev ScanFault.Found := Option Char

/-- Why a text cannot be cut into tokens. -/
inductive ScanFault where
  /-- No token starts with this character. -/
  | noToken (found : ScanFault.Found)
  /-- A key that has to have a value on its line has none. -/
  | keyWithoutValue
  /-- A dash, a question mark or a colon where no entry, key or value may stand. -/
  | entryNotAllowed
  | keyNotAllowed
  | valueNotAllowed
  /-- An alias, an anchor or a directive has no name, or its name does not end. -/
  | name (of : ScanFault.Owner) (found : ScanFault.Found)
  | versionDigit (found : ScanFault.Found)
  | versionDot (found : ScanFault.Found)
  | versionEnd (found : ScanFault.Found)
  | directiveEnd (found : ScanFault.Found)
  /-- A tag or a part of a directive does not end. -/
  | spaceAfter (of : ScanFault.Owner) (found : ScanFault.Found)
  | handle (of : ScanFault.Owner) (found : ScanFault.Found)
  | uri (of : ScanFault.Owner) (found : ScanFault.Found)
  | uriEscape (of : ScanFault.Owner) (found : ScanFault.Found)
  | uriBytes (of : ScanFault.Owner) (fault : Utf8.Fault)
  | tagClose (found : ScanFault.Found)
  | blockHeader (found : ScanFault.Found)
  | blockHeaderEnd (found : ScanFault.Found)
  | zeroIndentation
  | unknownEscape (found : ScanFault.Found)
  | hexEscape (digits : Nat) (found : ScanFault.Found)
  /-- An escape for a number that no character has. -/
  | noCharacter (code : Nat)
  | quoteOpen
  | separatorInQuotes
deriving DecidableEq, Repr

namespace ScanFault

/-- What was being read. -/
def context? : ScanFault → Option String
  | noToken _ => some "while scanning for the next token"
  | keyWithoutValue => some "while scanning a simple key"
  | entryNotAllowed | keyNotAllowed | valueNotAllowed => none
  | name of _ => some ("while scanning " ++ of.label)
  | versionDigit _ | versionDot _ | versionEnd _ | directiveEnd _ =>
    some "while scanning a directive"
  | spaceAfter of _ | handle of _ | uriEscape of _ | uriBytes of _ =>
    some ("while scanning " ++ of.label)
  | uri of _ => some ("while parsing " ++ of.label)
  | tagClose _ => some "while parsing a tag"
  | blockHeader _ | blockHeaderEnd _ | zeroIndentation => some "while scanning a block scalar"
  | unknownEscape _ | hexEscape .. | noCharacter _ => some "while scanning a double-quoted scalar"
  | quoteOpen | separatorInQuotes => some "while scanning a quoted scalar"

/-- A complaint that something else was found than expected. -/
def expected (what : String) (found : Found) : Text :=
  "expected ".toList ++ what.toList ++ ", but found ".toList ++ foundChar found

/-- What is wrong. -/
def problem : ScanFault → Text
  | noToken found =>
    "found character ".toList ++ foundChar found ++ " that cannot start any token".toList
  | keyWithoutValue => "could not find expected ':'".toList
  | entryNotAllowed => "sequence entries are not allowed here".toList
  | keyNotAllowed => "mapping keys are not allowed here".toList
  | valueNotAllowed => "mapping values are not allowed here".toList
  | name _ found => expected "alphabetic or numeric character" found
  | versionDigit found => expected "a digit" found
  | versionDot found => expected "a digit or '.'" found
  | versionEnd found => expected "a digit or ' '" found
  | directiveEnd found => expected "a comment or a line break" found
  | spaceAfter _ found => expected "' '" found
  | handle _ found => expected "'!'" found
  | uri _ found => expected "URI" found
  | uriEscape _ found => expected "URI escape sequence of 2 hexadecimal numbers" found
  | uriBytes _ fault => fault.message
  | tagClose found => expected "'>'" found
  | blockHeader found => expected "chomping or indentation indicators" found
  | blockHeaderEnd found => expected "a comment or a line break" found
  | zeroIndentation => "expected indentation indicator in the range 1-9, but found 0".toList
  | unknownEscape found => "found unknown escape character ".toList ++ foundChar found
  | hexEscape digits found =>
    "expected escape sequence of ".toList ++ Text.ofNat digits ++
      " hexadecimal numbers, but found ".toList ++ foundChar found
  | noCharacter _ => "no character has this number".toList
  | quoteOpen => "found unexpected end of stream".toList
  | separatorInQuotes => "found unexpected document separator".toList

instance : Complaint ScanFault where
  context? f := f.context?.map String.toList
  problem := problem

end ScanFault

end YamlEdit
