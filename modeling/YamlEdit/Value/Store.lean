import YamlEdit.Value.Equal

/-!
# Stores

Objects that refer to one another: the form in which a loaded document can be edited in place, so
that a change of a shared object shows wherever it is shared. `Store.read` unfolds an object to a
value and gives every container its reference as identity.
-/

namespace YamlEdit

/-- One object of a store. References are positions in the store. -/
inductive Object where
  /-- A value without parts. -/
  | leaf (v : Value)
  | list (items : List Nat)
  | dict (entries : List (Nat × Nat))
  | tuple (items : List Nat)
  | set (members : List Nat)
deriving Inhabited

/-- The objects made so far. -/
structure Store where
  objects : Array Object := #[]
deriving Inhabited

namespace Store

/-- Adds an object and answers its reference. -/
def add (s : Store) (o : Object) : Nat × Store :=
  (s.objects.size, ⟨s.objects.push o⟩)

/-- Puts an object in the place of an older one. -/
def replace (s : Store) (ref : Nat) (o : Object) : Store :=
  ⟨s.objects.setIfInBounds ref o⟩

/-- Unfolds an object below the containers `above`; one of those again is a container inside itself.
As a chain of containers never repeats, `depth` need not exceed the number of objects. -/
def unfold (s : Store) : (depth : Nat) → (above : List Nat) → (ref : Nat) → Value
  | 0, _, _ => .null
  | depth + 1, above, ref =>
    if above.contains ref then .back ref
    else
      let below := unfold s depth (ref :: above)
      match s.objects[ref]? with
      | none => .null
      | some (.leaf v) => v.identified ref
      | some (.list items) => .list (some ref) (items.map below)
      | some (.dict entries) => .dict (some ref) (entries.map fun e => (below e.1, below e.2))
      | some (.tuple items) => .tuple (some ref) (items.map below)
      | some (.set members) => .set (some ref) (members.map below)

/-- The value of an object. -/
def read (s : Store) (ref : Nat) : Value :=
  s.unfold (s.objects.size + 1) [] ref

/-- Whether two references are the same key of a dictionary: the same object, or values that are one
key. -/
def sameKey (s : Store) (a b : Nat) : Bool :=
  a == b || Value.same (s.read a) (s.read b)

/-- Puts an object under a key of a dictionary's entries; a key that is there keeps its spelling. -/
def putEntry (s : Store) (entries : List (Nat × Nat)) (key value : Nat) : List (Nat × Nat) :=
  match entries with
  | [] => [(key, value)]
  | e :: r =>
    if s.sameKey key e.1 then (e.1, value) :: r else e :: putEntry s r key value

/-- Adds a member to a set's members, unless it is one. -/
def putMember (s : Store) (members : List Nat) (member : Nat) : List Nat :=
  if members.any (s.sameKey member) then members else members ++ [member]

theorem length_le_length_putEntry (s : Store) (entries : List (Nat × Nat)) (key value : Nat) :
    entries.length ≤ (s.putEntry entries key value).length := by
  induction entries with
  | nil => simp
  | cons e r ih =>
    unfold putEntry
    split
    · simp
    · simpa using ih

end Store

/-- A store and the object in it that is the whole value. -/
structure Loaded where
  store : Store
  root : Nat
deriving Inhabited

/-- The value of a loaded document as it is now. -/
def Loaded.value (d : Loaded) : Value :=
  d.store.read d.root

end YamlEdit
