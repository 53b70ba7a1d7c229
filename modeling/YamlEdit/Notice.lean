import YamlEdit.Tag.Basic
import YamlEdit.Tree.Basic
import YamlEdit.Value.Literal

/-!
# Notices

What an assignment reports of its work: every change it makes, and a warning when the changed text
had to be thrown away.
-/

namespace YamlEdit

/-- What is reported. -/
inductive Notice where
  | inserting (count point : Nat)
  | erasingKey (key : Value)
  | erasingEntry (start : Mark)
  | replacingBlock (kind : Node.Kind) (start : Mark)
  /-- The key is given as it is shown. -/
  | replacingValue (key : Text) (start : Mark)
  | overridingKey (key : Value)
  | expandingAlias (start : Mark)
  | unsetting
  | fillingEmpty
  | rootChanges (old new : Tag)
  | replacingRoot
  | patchingRoot (kind : Node.Kind)
  | patched (delta : Int)
  /-- The changed text does not load, for the reason given. -/
  | doesNotLoad (reason : Text)
  | loadsOther

namespace Notice

/-- How much a notice matters. -/
inductive Level where
  | debug
  | warning
deriving DecidableEq, Repr

/-- The part of the library that a notice comes from. -/
inductive Origin where
  | patching
  | document
deriving DecidableEq, Repr

/-- How much a notice matters. -/
def level : Notice → Level
  | doesNotLoad _ | loadsOther => .warning
  | _ => .debug

/-- Where a notice comes from. -/
def origin : Notice → Origin
  | inserting .. | erasingKey _ | erasingEntry _ | replacingBlock .. | replacingValue ..
  | overridingKey _ | expandingAlias _ => .patching
  | _ => .document

/-- The wording of a notice. -/
def message : Notice → Text
  | inserting count point =>
    "inserting ".toList ++ Text.ofNat count ++ " characters at ".toList ++ Text.ofNat point
  | erasingKey key => "erasing key ".toList ++ key.literal
  | erasingEntry start => "erasing sequence entry at ".toList ++ start.text
  | replacingBlock kind start =>
    "replacing ".toList ++ kind.label.toList ++ " at ".toList ++ start.text ++
      " with a new block".toList
  | replacingValue key start =>
    "replacing value of ".toList ++ key ++ " at ".toList ++ start.text
  | overridingKey key => "overriding merged key ".toList ++ key.literal
  | expandingAlias start => "expanding alias at ".toList ++ start.text
  | unsetting => "unsetting document".toList
  | fillingEmpty => "writing value into an empty document".toList
  | rootChanges old new =>
    "root changes from ".toList ++ old.name ++ " to ".toList ++ new.name
  | replacingRoot => "replacing root scalar".toList
  | patchingRoot kind => "patching root ".toList ++ kind.label.toList
  | patched delta =>
    "patched document, ".toList ++ Text.ofSigned delta ++ " characters".toList
  | doesNotLoad reason =>
    "patched text does not load (".toList ++ reason ++ "), rewriting".toList
  | loadsOther => "patched text loads another value, rewriting".toList

end Notice

end YamlEdit
