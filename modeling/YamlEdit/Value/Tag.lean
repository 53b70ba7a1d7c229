import YamlEdit.Tag.Basic
import YamlEdit.Value.Basic

/-!
# Tags of values

The tag that a value is written with. A number that ten divides counts as a whole number and every
other number as a floating-point one, whatever its type. Bytes, tuples, sets and foreign objects
have no tag.
-/

namespace YamlEdit.Value

/-- The tag of a number, by whether ten divides it. -/
def numberTag (n : Option Int) : Tag :=
  match n with
  | some n => if n % 10 = 0 then .int else .float
  | none => .float

/-- The tag a value is written with, if it has one. -/
def tag? : Value → Option Tag
  | list .. => some .seq
  | dict .. => some .map
  | null => some .null
  | bool _ => some .bool
  | int n => some (numberTag (some n))
  | float x => some (numberTag x.toInt?)
  | nan => some .float
  | str _ => some .str
  | date .. => some .timestamp
  | dateTime .. => some .timestamp
  | _ => none

theorem tag?_of_isCollection {v : Value} (h : v.isCollection) :
    v.tag? = some .map ∨ v.tag? = some .seq := by
  cases v <;> simp_all [isCollection, tag?]

end YamlEdit.Value
