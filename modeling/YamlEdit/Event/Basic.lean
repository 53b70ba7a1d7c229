import YamlEdit.Tag.Basic
import YamlEdit.Token.Feed

/-!
# Events

A document as the events of walking through its nodes: scalars and aliases, and the start and the
end of every collection, each with its place and, where it is a node, with its tag.
-/

namespace YamlEdit

/-- The kinds of events. -/
inductive Event.Kind where
  | streamStart
  | streamEnd
  | documentStart
  | documentEnd
  | aliasOf (name : Text)
  | scalar (anchor : Option Text) (tag : Tag) (text : Text) (quoting : Quoting)
  | sequenceStart (anchor : Option Text) (tag : Tag) (frame : Frame)
  | sequenceEnd
  | mappingStart (anchor : Option Text) (tag : Tag) (frame : Frame)
  | mappingEnd
deriving DecidableEq, Repr

/-- An event and its place. -/
structure Event where
  kind : Event.Kind
  start : Mark
  stop : Mark
deriving DecidableEq, Repr

/-- The anchor that an event defines. -/
def Event.Kind.anchor? : Event.Kind → Option Text
  | scalar anchor .. => anchor
  | sequenceStart anchor .. => anchor
  | mappingStart anchor .. => anchor
  | _ => none

/-- Why tokens are no document. -/
inductive ParseFault where
  | documentStart (found : Token.Kind)
  | duplicateVersion
  | incompatibleVersion
  | duplicateHandle (handle : Text)
  | undefinedHandle (handle : Text)
  /-- No node where there has to be one. -/
  | nodeContent (block : Bool) (found : Token.Kind)
  | sequenceEntry (found : Token.Kind)
  | mappingEntry (found : Token.Kind)
  | flowSequenceEntry (found : Token.Kind)
  | flowMappingEntry (found : Token.Kind)
deriving DecidableEq, Repr

namespace ParseFault

/-- What was being read. -/
def context? : ParseFault → Option String
  | undefinedHandle _ => some "while parsing a node"
  | nodeContent true _ => some "while parsing a block node"
  | nodeContent false _ => some "while parsing a flow node"
  | sequenceEntry _ => some "while parsing a block collection"
  | mappingEntry _ => some "while parsing a block mapping"
  | flowSequenceEntry _ => some "while parsing a flow sequence"
  | flowMappingEntry _ => some "while parsing a flow mapping"
  | _ => none

/-- A complaint about a token. -/
def butFound (what : String) (found : Token.Kind) : Text :=
  what.toList ++ Text.quoted found.label.toList

/-- What is wrong. -/
def problem : ParseFault → Text
  | documentStart found => butFound "expected '<document start>', but found " found
  | duplicateVersion => "found duplicate YAML directive".toList
  | incompatibleVersion => "found incompatible YAML document (version 1.* is required)".toList
  | duplicateHandle handle => "duplicate tag handle ".toList ++ Text.quoted handle
  | undefinedHandle handle => "found undefined tag handle ".toList ++ Text.quoted handle
  | nodeContent _ found => butFound "expected the node content, but found " found
  | sequenceEntry found | mappingEntry found => butFound "expected <block end>, but found " found
  | flowSequenceEntry found => butFound "expected ',' or ']', but got " found
  | flowMappingEntry found => butFound "expected ',' or '\x7d', but got " found

instance : Complaint ParseFault where
  context? f := f.context?.map String.toList
  problem := problem

end ParseFault

/-- Why a text has no more events: it cannot be cut into tokens, or its tokens are no document. -/
inductive EventError where
  | scan (e : ScanError)
  | parse (e : Located ParseFault)

/-- The events of a text. -/
abbrev EventFeed := Feed Event EventError

end YamlEdit
