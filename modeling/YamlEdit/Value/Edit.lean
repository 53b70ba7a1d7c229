import YamlEdit.Value.Lookup
import YamlEdit.Value.Store

/-!
# Editing in place

Changes of a loaded value that a program makes before it assigns the value back. Each change names a
place by its path from the root: keys of dictionaries and positions of lists. All changes act on
objects, so they show at every place where an object is shared.
-/

namespace YamlEdit

/-- Why an edit could not be made. -/
inductive EditFault where
  | lookup (fault : LookupFault)
  /-- The object is no list. -/
  | notList
  /-- The path is empty where it has to name an entry. -/
  | noEntry
deriving DecidableEq, Repr

/-- A change of a value in place. The values and objects it brings are in the store already, given
by their references; keys too. -/
inductive Edit where
  /-- Puts an object at a path; at the empty path it becomes the whole value. -/
  | set (path : List Nat) (ref : Nat)
  /-- Removes the entry at a path. -/
  | delete (path : List Nat)
  /-- Adds an object at the end of the list at a path. -/
  | append (path : List Nat) (ref : Nat)
  /-- Adds an object at a position of the list at a path. -/
  | insert (path : List Nat) (position : Int) (ref : Nat)
  /-- Puts the object found at one path at another path too. -/
  | share (source path : List Nat)

namespace Loaded

/-- The place in a list that an index names, counted from the end when it is negative. -/
def place? (length : Nat) (index : Int) : Option Nat :=
  let place := if index < 0 then index + length else index
  if 0 ≤ place ∧ place < length then some place.toNat else none

/-- The object that another holds under a key. A piece of a text or of bytes is a new object. -/
def child (s : Store) (ref key : Nat) : Except EditFault (Nat × Store) :=
  match s.objects[ref]? with
  | some (.dict entries) =>
    if !(s.read key).isKey then .error (.lookup .notKey)
    else
      match entries.find? fun e => s.sameKey key e.1 with
      | some e => .ok (e.2, s)
      | none => .error (.lookup .noKey)
  | some (.list items) | some (.tuple items) =>
    match (s.read key).index? with
    | none => .error (.lookup .noParts)
    | some n => ((Value.itemAt items n).map fun ref => (ref, s)).mapError .lookup
  | some (.leaf v) => ((v.item (s.read key)).map fun piece => s.add (.leaf piece)).mapError .lookup
  | _ => .error (.lookup .noParts)

/-- The object at a path from another. -/
def follow (s : Store) : (ref : Nat) → (path : List Nat) → Except EditFault (Nat × Store)
  | ref, [] => .ok (ref, s)
  | ref, key :: r => do
    let (ref, s) ← child s ref key
    follow s ref r

/-- A path to an entry as the path to its container and the entry's key. -/
def entry (path : List Nat) : Except EditFault (List Nat × Nat) :=
  match path.getLast? with
  | some key => .ok (path.dropLast, key)
  | none => .error .noEntry

/-- Puts an object under a key of a dictionary or at a position of a list. -/
def assign (s : Store) (container key ref : Nat) : Except EditFault Store :=
  match s.objects[container]? with
  | some (.dict entries) =>
    if !(s.read key).isKey then .error (.lookup .notKey)
    else .ok (s.replace container (.dict (s.putEntry entries key ref)))
  | some (.list items) =>
    match (s.read key).index? with
    | none => .error (.lookup .noParts)
    | some n =>
      match place? items.length n with
      | none => .error (.lookup .outOfRange)
      | some i => .ok (s.replace container (.list (items.set i ref)))
  | _ => .error (.lookup .noParts)

/-- Removes the entry under a key of a dictionary or at a position of a list. -/
def remove (s : Store) (container key : Nat) : Except EditFault Store :=
  match s.objects[container]? with
  | some (.dict entries) =>
    if !(s.read key).isKey then .error (.lookup .notKey)
    else if entries.any fun e => s.sameKey key e.1 then
      .ok (s.replace container (.dict (entries.filter fun e => !s.sameKey key e.1)))
    else .error (.lookup .noKey)
  | some (.list items) =>
    match (s.read key).index? with
    | none => .error (.lookup .noParts)
    | some n =>
      match place? items.length n with
      | none => .error (.lookup .outOfRange)
      | some i => .ok (s.replace container (.list (items.eraseIdx i)))
  | _ => .error (.lookup .noParts)

/-- Adds an object to a list, before the item at `position`; a position outside of the list stands
for its nearer end. -/
def addItem (s : Store) (container ref : Nat) (position : Option Int) : Except EditFault Store :=
  match s.objects[container]? with
  | some (.list items) =>
    let n : Int := items.length
    let i := position.getD n
    let i := if i < 0 then max (i + n) 0 else min i n
    .ok (s.replace container (.list (items.insertIdx i.toNat ref)))
  | _ => .error .notList

/-- Changes the store at the object that a path leads to. -/
def changeAt (d : Loaded) (path : List Nat) (change : Store → Nat → Except EditFault Store) :
    Except EditFault Loaded := do
  let (ref, store) ← follow d.store d.root path
  return { d with store := ← change store ref }

/-- Puts an object at a path. -/
def put (d : Loaded) (path : List Nat) (ref : Nat) : Except EditFault Loaded := do
  if path.isEmpty then return { d with root := ref }
  let (container, key) ← entry path
  d.changeAt container fun s container => assign s container key ref

/-- Makes one change. -/
def apply (d : Loaded) : Edit → Except EditFault Loaded
  | .set path ref => d.put path ref
  | .delete path => do
    let (container, key) ← entry path
    d.changeAt container fun s container => remove s container key
  | .append path ref => d.changeAt path fun s container => addItem s container ref none
  | .insert path position ref =>
    d.changeAt path fun s container => addItem s container ref (some position)
  | .share source path => do
    let (ref, store) ← follow d.store d.root source
    { d with store }.put path ref

/-- Makes changes one after another. -/
def applyAll (d : Loaded) (edits : List Edit) : Except EditFault Loaded :=
  edits.foldlM apply d

end Loaded

end YamlEdit
