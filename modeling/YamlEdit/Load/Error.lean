import YamlEdit.Event.Basic
import YamlEdit.Text.Base64
import YamlEdit.Tree.Basic

/-!
# Errors of loading

Everything that can keep a text from being loaded, from a character that no document may hold to a
number that cannot be read.
-/

namespace YamlEdit

/-- Why the nodes of a text are no document. -/
inductive ComposeFault where
  | undefinedAlias (name : Text)
  | duplicateAnchor (name : Text)
  | secondDocument
  /-- A value is asked for that holds an alias without a node. -/
  | danglingAlias
deriving DecidableEq, Repr

namespace ComposeFault

/-- What was found before. -/
def context? : ComposeFault → Option Text
  | duplicateAnchor name =>
    some ("found duplicate anchor ".toList ++ Text.quoted name ++ "; first occurrence".toList)
  | secondDocument => some "expected a single document in the stream".toList
  | _ => none

/-- What is wrong. -/
def problem : ComposeFault → Text
  | undefinedAlias name => "found undefined alias ".toList ++ Text.quoted name
  | duplicateAnchor _ => "second occurrence".toList
  | secondDocument => "but found another document".toList
  | danglingAlias => "found undefined alias".toList

instance : Complaint ComposeFault where
  context? := context?
  problem := problem

end ComposeFault

/-- Why a node has no value. -/
inductive ConstructFault where
  | notScalar (found : Node.Kind)
  | notSequence (found : Node.Kind)
  | notMapping (found : Node.Kind)
  /-- A key is a list, a dictionary or a set. -/
  | unhashableKey
  | mergeItem (found : Node.Kind)
  | mergeValue (found : Node.Kind)
  /-- A list of pairs, ordered by key or not, is made of something else. -/
  | pairsSequence (keyed : Bool) (found : Node.Kind)
  | pairsMapping (keyed : Bool) (found : Node.Kind)
  | pairsCount (keyed : Bool) (count : Nat)
  /-- Text that should be base 64 holds other characters from a position on. -/
  | notAscii (position length : Nat) (first : Char)
  | base64 (fault : Base64.Fault)
  | unknownTag (tag : Tag)
deriving DecidableEq, Repr

namespace ConstructFault

/-- What was being built. -/
def context? : ConstructFault → Option String
  | unhashableKey | mergeItem _ | mergeValue _ => some "while constructing a mapping"
  | pairsSequence keyed _ | pairsMapping keyed _ | pairsCount keyed _ =>
    some (if keyed then "while constructing an ordered map" else "while constructing pairs")
  | _ => none

/-- A complaint about a node of another kind. -/
def butFound (what : String) (found : Node.Kind) : Text :=
  "expected ".toList ++ what.toList ++ ", but found ".toList ++ found.label.toList

/-- A complaint about characters outside of ASCII. -/
def notAsciiText (position length : Nat) (first : Char) : Text :=
  let escape :=
    if first.toNat ≤ 0xFF then '\\' :: 'x' :: Text.hex 2 first.toNat
    else if first.toNat ≤ 0xFFFF then '\\' :: 'u' :: Text.hex 4 first.toNat
    else '\\' :: 'U' :: Text.hex 8 first.toNat
  let place :=
    if length = 1 then
      "character '".toList ++ escape ++ "' in position ".toList ++ Text.ofNat position
    else
      "characters in position ".toList ++ Text.ofNat position ++ '-' ::
        Text.ofNat (position + length - 1)
  "failed to convert base64 data into ascii: 'ascii' codec can't encode ".toList ++ place ++
    ": ordinal not in range(128)".toList

/-- What is wrong. -/
def problem : ConstructFault → Text
  | notScalar found => butFound "a scalar node" found
  | notSequence found => butFound "a sequence node" found
  | notMapping found => butFound "a mapping node" found
  | unhashableKey => "found unhashable key".toList
  | mergeItem found => butFound "a mapping for merging" found
  | mergeValue found => butFound "a mapping or list of mappings for merging" found
  | pairsSequence _ found => butFound "a sequence" found
  | pairsMapping _ found => butFound "a mapping of length 1" found
  | pairsCount _ count =>
    "expected a single mapping item, but found ".toList ++ Text.ofNat count ++ " items".toList
  | notAscii position length first => notAsciiText position length first
  | base64 fault => "failed to decode base64 data: ".toList ++ fault.message
  | unknownTag tag =>
    "could not determine a constructor for the tag ".toList ++ Text.quoted tag.name

instance : Complaint ConstructFault where
  context? f := f.context?.map String.toList
  problem := problem

end ConstructFault

/-- Why a scalar's text is no value of its tag. -/
inductive LiteralFault where
  /-- It does not have the form of a number, or of a date in the calendar. -/
  | malformed
  /-- It is empty where a number starts with a digit. -/
  | emptyNumber
  /-- It is no word for true or false. -/
  | notBool
  /-- It does not have the form of a time stamp. -/
  | notStamp
  /-- It comes from inside of a mapping, where a time stamp has to be a scalar of its own. -/
  | nestedStamp
  /-- A part of a number is too large. -/
  | overflow
deriving DecidableEq, Repr

/-- Why a text cannot be loaded. -/
inductive LoadError where
  /-- No document may hold this character. -/
  | unreadable (character : Char) (position : Nat)
  | scan (e : ScanError)
  | parse (e : Located ParseFault)
  | compose (e : Located ComposeFault)
  | construct (e : Located ConstructFault)
  | literal (fault : LiteralFault)

namespace LoadError

/-- The error behind the last event. -/
def ofEvent : EventError → LoadError
  | .scan e => .scan e
  | .parse e => .parse e

/-- What is said about a character that no document may hold. -/
def unreadableText (character : Char) (position : Nat) : Text :=
  let digits := Nat.toDigits 16 character.toNat
  "unacceptable character #x".toList ++ List.replicate (4 - digits.length) '0' ++ digits ++
    ": special characters are not allowed\n  in \"<unicode string>\", position ".toList ++
    Text.ofNat position

/-- Whether the error is about the text as a document; the others are about single values and
characters by number. -/
def isAboutDocument : LoadError → Bool
  | literal _ => false
  | scan e =>
    match e.cause with
    | .noCharacter _ => false
    | _ => true
  | _ => true

/-- The message of an error about the document. -/
def message : LoadError → Text
  | unreadable character position => unreadableText character position
  | scan e => e.message
  | parse e => e.message
  | compose e => e.message
  | construct e => e.message
  | literal _ => []

end LoadError

/-- Whether a document may hold a character. -/
def isReadable (c : Char) : Bool :=
  let n := c.toNat
  n == 0x9 || n == 0xA || n == 0xD || (0x20 ≤ n && n ≤ 0x7E) || n == 0x85 ||
    (0xA0 ≤ n && n ≤ 0xD7FF) || (0xE000 ≤ n && n ≤ 0xFFFD) || 0x10000 ≤ n

/-- The first character that no document may hold. -/
def firstUnreadable? (s : Text) : Option LoadError :=
  (s.zipIdx.find? fun e => !isReadable e.1).map fun e => .unreadable e.1 e.2

end YamlEdit
