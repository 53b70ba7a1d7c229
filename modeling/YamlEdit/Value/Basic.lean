import YamlEdit.Number.Binary64
import YamlEdit.Text.Basic
import YamlEdit.Time.Calendar

/-!
# Values

What a document stands for: scalars, lists, dictionaries with their keys in insertion order, and the
tuples and sets that a few tags build. A container or a date may carry an identity: two places of
one value with the same identity hold one shared object. A container that lies inside itself appears
there as `back`, with the identity of the enclosing one.
-/

namespace YamlEdit

/-- A value, with sharing made visible by identities. -/
inductive Value where
  | null
  | bool (b : Bool)
  | int (n : Int)
  | float (x : Binary64)
  /-- The one not-a-number that every `.nan` of a text denotes. -/
  | nan
  | str (s : Text)
  | bytes (b : List UInt8)
  | date (id : Option Nat) (d : Date)
  | dateTime (id : Option Nat) (t : DateTime)
  | list (id : Option Nat) (items : List Value)
  | dict (id : Option Nat) (entries : List (Value × Value))
  | tuple (id : Option Nat) (items : List Value)
  | set (id : Option Nat) (members : List Value)
  /-- A container inside itself. -/
  | back (id : Nat)
  /-- An object that no document can hold. -/
  | foreign
  /-- The mark for "no value at all". -/
  | unset
deriving Inhabited

namespace Value

/-- Whether a value is written as a mapping or a sequence. -/
def isCollection : Value → Bool
  | dict .. => true
  | list .. => true
  | _ => false

/-- Whether a collection has entries. -/
def hasEntries : Value → Bool
  | dict _ (_ :: _) => true
  | list _ (_ :: _) => true
  | _ => false

/-- Whether a value counts as nothing: null, false, zero, and whatever has no parts. -/
def isNothing : Value → Bool
  | null | bool false | unset => true
  | int n => n == 0
  | float (.finite _ m _) => m == 0
  | str s => s.isEmpty
  | bytes b => b.isEmpty
  | list _ items | tuple _ items | set _ items => items.isEmpty
  | dict _ entries => entries.isEmpty
  | _ => false

/-- Whether a value is a not-a-number, of whatever source. -/
def isNan : Value → Bool
  | nan => true
  | float .nan => true
  | _ => false

/-- The value with an identity, if it is of a kind that can carry one. -/
def identified (id : Nat) : Value → Value
  | date _ d => date (some id) d
  | dateTime _ t => dateTime (some id) t
  | list _ items => list (some id) items
  | dict _ entries => dict (some id) entries
  | tuple _ items => tuple (some id) items
  | set _ members => set (some id) members
  | v => v

/-- The name of a value's type, as messages show it. -/
def typeName : Value → Text
  | null => "NoneType".toList
  | bool _ => "bool".toList
  | int _ => "int".toList
  | float _ | nan => "float".toList
  | str _ => "str".toList
  | bytes _ => "bytes".toList
  | date .. => "date".toList
  | dateTime .. => "datetime".toList
  | list .. => "list".toList
  | dict .. => "dict".toList
  | tuple .. => "tuple".toList
  | set .. => "set".toList
  | back _ => "list".toList
  | foreign => "Opaque".toList
  | unset => "_Unset".toList

end Value

end YamlEdit
