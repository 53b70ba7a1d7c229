import YamlEdit.Value.Basic

/-!
# Equality of values

Two relations. `same` decides whether two values are one key of a dictionary: numbers, and also the
booleans as zero and one, are compared by size across their types. `equal` decides whether an
assignment changes anything: it tells booleans from numbers, ignores the order of keys, and takes
any two not-a-numbers for equal.
-/

namespace YamlEdit

/-- The size of a number, exact. -/
inductive Quantity where
  | whole (n : Int)
  | binary (x : Binary64)

namespace Quantity

/-- Numeric equality across the two kinds, without rounding. -/
def eq : Quantity → Quantity → Bool
  | whole a, whole b => a == b
  | whole a, binary y => y.toInt? == some a
  | binary x, whole b => x.toInt? == some b
  | binary x, binary y => x.numEq y

theorem eq_comm (a b : Quantity) : a.eq b = b.eq a := by
  cases a <;> cases b <;> simp only [eq]
  · exact Bool.beq_comm
  · exact Binary64.numEq_comm ..

end Quantity

namespace Value

/-- The size of a number; a boolean counts as zero or one. -/
def quantity? : Value → Option Quantity
  | bool b => some (.whole (if b then 1 else 0))
  | int n => some (.whole n)
  | float x => some (.binary x)
  | _ => none

/-- Sameness of values without parts. -/
def sameScalar : Value → Value → Bool
  | null, null => true
  | nan, nan => true
  | str s, str t => s == t
  | bytes b, bytes c => b == c
  | date _ d, date _ e => d == e
  | dateTime _ t, dateTime _ u => t.sameTime u
  | unset, unset => true
  | v, w =>
    match v.quantity?, w.quantity? with
    | some a, some b => a.eq b
    | _, _ => false

mutual

/-- Whether two values are one key. -/
def same : Value → Value → Bool
  | list _ xs, list _ ys => sameItems xs ys
  | tuple _ xs, tuple _ ys => sameItems xs ys
  | dict _ xs, dict _ ys => xs.length == ys.length && sameEntries xs ys
  | set _ xs, set _ ys => xs.length == ys.length && sameMembers xs ys
  | v, w => sameScalar v w
termination_by structural v => v

/-- Item by item. -/
def sameItems : List Value → List Value → Bool
  | [], [] => true
  | x :: xs, y :: ys => same x y && sameItems xs ys
  | _, _ => false

/-- Every key of the first dictionary is one of the second, with the same value. -/
def sameEntries : List (Value × Value) → List (Value × Value) → Bool
  | [], _ => true
  | (k, v) :: r, ys =>
    (match ys.find? fun e => same k e.1 with
      | some e => same v e.2
      | none => false) && sameEntries r ys

/-- Every member of the first set is one of the second. -/
def sameMembers : List Value → List Value → Bool
  | [], _ => true
  | x :: r, ys => ys.any (same x) && sameMembers r ys

end

/-- Whether one of the keys of a dictionary is `key`. -/
def hasKey (entries : List (Value × Value)) (key : Value) : Bool :=
  entries.any fun e => same key e.1

/-- The value of a key in a dictionary. -/
def find? (entries : List (Value × Value)) (key : Value) : Option Value :=
  (entries.find? fun e => same key e.1).map (·.2)

/-- Puts a value under a key: a key that is there keeps its place and its spelling. -/
def put (entries : List (Value × Value)) (key value : Value) : List (Value × Value) :=
  match entries with
  | [] => [(key, value)]
  | e :: r => if same key e.1 then (e.1, value) :: r else e :: put r key value

/-- Takes a key out of a dictionary. -/
def dropKey (entries : List (Value × Value)) (key : Value) : List (Value × Value) :=
  entries.filter fun e => !same key e.1

/-- Whether two dictionaries have the same keys, in whatever order. -/
def sameKeys (xs ys : List (Value × Value)) : Bool :=
  xs.length == ys.length && xs.all fun e => hasKey ys e.1

/-- Equality of values that are no collections. -/
def equalScalar : Value → Value → Bool
  | dict .., _ | _, dict .. | list .., _ | _, list .. => false
  | bool a, bool b => a == b
  | bool _, _ | _, bool _ => false
  | v, w => (v.isNan && w.isNan) || same v w

mutual

/-- Whether two values are equal as contents of a document. -/
def equal : Value → Value → Bool
  | dict _ xs, dict _ ys => sameKeys xs ys && equalEntries xs ys
  | list _ xs, list _ ys => equalItems xs ys
  | v, w => equalScalar v w

/-- Item by item. -/
def equalItems : List Value → List Value → Bool
  | [], [] => true
  | x :: xs, y :: ys => equal x y && equalItems xs ys
  | _, _ => false

/-- Every value of the first dictionary equals the one under the same key of the second. -/
def equalEntries : List (Value × Value) → List (Value × Value) → Bool
  | [], _ => true
  | (k, v) :: r, ys =>
    (match find? ys k with
      | some w => equal v w
      | none => false) && equalEntries r ys

end

@[simp] theorem put_nil (key value : Value) : put [] key value = [(key, value)] := rfl

theorem length_dropKey_le (entries : List (Value × Value)) (key : Value) :
    (dropKey entries key).length ≤ entries.length :=
  List.length_filter_le ..

end Value

end YamlEdit
