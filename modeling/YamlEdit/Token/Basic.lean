import YamlEdit.Mark

/-!
# Tokens

The pieces that a document is made of: indicators, names, tags and scalars, and the marks for where
blocks begin and end, which stand for indentation.
-/

namespace YamlEdit

/-- How a scalar was written; none for a plain one. -/
inductive Quoting where
  | plain
  | single
  | double
  | literal
  | folded
deriving DecidableEq, Repr, Inhabited

namespace Quoting

/-- Whether a scalar was written as an indented block. -/
def isBlock : Quoting → Bool
  | literal | folded => true
  | _ => false

end Quoting

/-- How a collection was written. -/
inductive Frame where
  /-- In brackets or braces. -/
  | flow
  /-- As a block with indentation of its own. -/
  | block
  /-- As the entries of a sequence under a key, at the column of the key. -/
  | bare
deriving DecidableEq, Repr, Inhabited

/-- What a directive line says. -/
inductive Directive where
  | version (major minor : Nat)
  /-- A handle stands for the start of a tag's name. -/
  | handle (handle start : Text)
  /-- Any other directive; it has no effect. -/
  | reserved (name : Text)
deriving DecidableEq, Repr

/-- The kinds of tokens. -/
inductive Token.Kind where
  | streamStart
  | streamEnd
  | directive (d : Directive)
  | documentStart
  | documentEnd
  | blockSequenceStart
  | blockMappingStart
  | blockEnd
  | flowSequenceStart
  | flowSequenceEnd
  | flowMappingStart
  | flowMappingEnd
  | key
  | value
  | blockEntry
  | flowEntry
  | aliasOf (name : Text)
  | anchor (name : Text)
  /-- A tag as its handle, if it has one, and what follows the handle. -/
  | tag (handle : Option Text) (rest : Text)
  | scalar (text : Text) (quoting : Quoting)
deriving DecidableEq, Repr

/-- A token and its place. -/
structure Token where
  kind : Token.Kind
  start : Mark
  stop : Mark
deriving DecidableEq, Repr

/-- How a message names a token. -/
def Token.Kind.label : Token.Kind → String
  | streamStart => "<stream start>"
  | streamEnd => "<stream end>"
  | directive _ => "<directive>"
  | documentStart => "<document start>"
  | documentEnd => "<document end>"
  | blockSequenceStart => "<block sequence start>"
  | blockMappingStart => "<block mapping start>"
  | blockEnd => "<block end>"
  | flowSequenceStart => "["
  | flowSequenceEnd => "]"
  | flowMappingStart => "\x7b"
  | flowMappingEnd => "\x7d"
  | key => "?"
  | value => ":"
  | blockEntry => "-"
  | flowEntry => ","
  | aliasOf _ => "<alias>"
  | anchor _ => "<anchor>"
  | tag .. => "<tag>"
  | scalar .. => "<scalar>"

end YamlEdit
