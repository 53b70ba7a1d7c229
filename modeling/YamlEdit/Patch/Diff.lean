import YamlEdit.Patch.Replace

/-!
# Patching collections

Compares a collection with the value that it is to have and changes only what differs. Keys that are
gone are erased, changed values are replaced in place, and new entries follow the last one. A key
that a mapping gets through a merge is overridden where its value differs; if it has to go, no patch
can do that and the collection is written anew.
-/

namespace YamlEdit.Patch

/-- Whether a collection without a tag of its own is of the kind that a value is written as. -/
def sameKind (n : Node) (v : Value) : Bool :=
  match n.body, v with
  | .mapping tag _ _, .dict .. => tag == .map
  | .sequence tag _ _, .list .. => tag == .seq
  | _, _ => false

/-- The value of a key that a mapping spells out as a scalar; merge keys are none. -/
def scalarKey (ed : Editing) (index : Nat) : Patch (Option Value) := do
  let n := ed.node index
  match n.body with
  | .scalar tag _ _ =>
    if tag == .merge then return none else return some (← ofLoad (ed.tree.construct n))
  | _ => return none

/-- The keys that a mapping spells out. -/
def ownKeys (ed : Editing) (n : Node) : Patch (List Value) :=
  n.pairs.filterMapM fun p => scalarKey ed p.1

/-- The first key of a dictionary that a mapping does not spell out and a new value lacks. -/
def droppedKey? (own : List Value) (new : Value) :
    List (Value × Value) → Except LookupFault (Option Value)
  | [] => .ok none
  | (key, _) :: r =>
    if own.any (Value.same key) then droppedKey? own new r
    else do if ← new.holds key then droppedKey? own new r else return some key

/-- Whether a new value lacks a key that a mapping has only through a merge. -/
def dropsMergedKey (ed : Editing) (n : Node) (old new : Value) : Patch Bool := do
  match n.kind, old with
  | .mapping, .dict _ entries =>
    return (← ofLookup (droppedKey? (← ownKeys ed n) new entries)).isSome
  | _, _ => return false

/-- Takes one pair of a mapping to its new value; `patch` is for a value that is a collection of the
same kind. -/
def patchPair (ed : Editing) (patch : Node → Value → Value → Patch Unit) (key n : Node)
    (old new : Value) : Patch Unit := do
  if n.kind == .scalar && !new.isCollection then replacePrimitive ed n new
  else if sameKind n new && new.hasEntries then
    if ← dropsMergedKey ed n old new then replaceValue ed key n new else patch n old new
  else replaceValue ed key n new

/-- The pairs of a mapping. A node without parts of any kind counts as a mapping without pairs. -/
def pairsOf (n : Node) : Patch (List (Nat × Nat)) :=
  match n.body with
  | .mapping _ _ pairs => return pairs
  | .sequence _ _ items => if items.isEmpty then return [] else throw .otherParts
  | .scalar _ text _ => if text.isEmpty then return [] else throw .notPairs
  | .aliasOf .. => throw .otherParts

/-- The items of a sequence. A node without parts of any kind counts as a sequence without items. -/
def itemsOf (ed : Editing) (n : Node) : Patch (List Node) :=
  match n.body with
  | .sequence _ _ items => return items.map ed.node
  | .mapping _ _ pairs => if pairs.isEmpty then return [] else throw .otherParts
  | .scalar _ text _ => if text.isEmpty then return [] else throw .otherParts
  | .aliasOf .. => throw .otherParts

/-- Takes the pairs that a mapping spells out to the entries of a dictionary, in the order of the
text, and answers the entries that none of them is for. Aliases are left for later. -/
def patchPairs (ed : Editing) (patch : Node → Value → Value → Patch Unit) (old new : Value) :
    (pending : List (Value × Value)) → List (Nat × Nat) → Patch (List (Value × Value))
  | pending, [] => return pending
  | pending, (k, v) :: r => do
    match ← scalarKey ed k with
    | none => patchPairs ed patch old new pending r
    | some key =>
      let n := ed.node v
      if !(← ofLookup (new.holds key)) then
        note (.erasingKey key)
        erase ed (ed.node k).start.index (ed.trueEnd n)
        patchPairs ed patch old new pending r
      else
        if !n.isAlias then
          let held ←
            match ← ofLookup (old.held? key) with
            | some w => pure w
            | none => ofLoad (ed.tree.construct n)
          let value ← ofLookup (new.item key)
          if !Value.equal held value then patchPair ed patch (ed.node k) n held value
        patchPairs ed patch old new (Value.dropKey pending key) r

/-- Adds entries behind a mapping, without those that the mapping has already through a merge. -/
def addEntries (ed : Editing) (n : Node) (old : Value) : List (Value × Value) → Patch Unit
  | [] => return
  | (key, value) :: r => do
    let held ← ofLookup (old.held? key)
    if !held.any fun w => Value.equal w value then
      if held.isSome then note (.overridingKey key)
      insertAfter ed n (← dump ed (.dict none [(key, value)]))
    addEntries ed n old r

/-- Takes a block mapping to a dictionary; `patch` is for values that are collections. -/
def patchEntries (ed : Editing) (patch : Node → Value → Value → Patch Unit) (n : Node)
    (old new : Value) : Patch Unit := do
  let entries ← ofLookup new.asEntries
  let pending ← patchPairs ed patch old new entries (← pairsOf n)
  addEntries ed n old pending

/-- Takes the entries of a block sequence to the items of a list, one by one. -/
def patchItems (ed : Editing) (old new : Value) : (position : Nat) → List Node → Patch Unit
  | _, [] => return
  | position, n :: r => do
    if !n.isAlias then
      let held ← ofLookup (old.item (.int position))
      let value ← ofLookup (new.item (.int position))
      if !Value.equal held value then replaceItem ed n value
    patchItems ed old new (position + 1) r

/-- Removes entries of a block sequence at a column. -/
def eraseItems (ed : Editing) (column : Nat) : List Node → Patch Unit
  | [] => return
  | item :: r => do
    note (.erasingEntry item.start)
    let dash ← ofPosition (Text.dashBefore ed.tree.text item.start.index column)
    erase ed dash (ed.trueEnd item)
    eraseItems ed column r

/-- Takes a block sequence to a list: entries that differ are replaced, those past the end of the
list erased, and further items added behind the last entry. -/
def patchSequence (ed : Editing) (n : Node) (old new : Value) : Patch Unit := do
  let nodes ← itemsOf ed n
  let size := (← ofLookup new.parts).length
  patchItems ed old new 0 (nodes.take size)
  if size < nodes.length then eraseItems ed n.content.column (nodes.drop size)
  else if nodes.length < size then
    insertAfter ed n (← dump ed (← ofLookup (new.itemsFrom nodes.length)))

/-- Takes a collection to a value of its kind. Nested collections come later in the tree, so `depth`
need not exceed the number of nodes. -/
def patchAt (ed : Editing) : (depth : Nat) → Node → (old new : Value) → Patch Unit
  | 0, _, _, _ => return
  | depth + 1, n, old, new => do
    if n.kind == .scalar || n.isAlias then throw .notCollection
    if n.isFlow then replaceFlow ed n new
    else if new.isNothing then replaceBlock ed n new
    else if ← dropsMergedKey ed n old new then replaceBlock ed n new
    else if n.kind == .mapping then patchEntries ed (patchAt ed depth) n old new
    else patchSequence ed n old new

/-- Takes a collection to a value of its kind. -/
def patchNode (ed : Editing) (n : Node) (old new : Value) : Patch Unit :=
  patchAt ed (ed.tree.nodes.size + 1) n old new

/-- Takes a block mapping to a dictionary. -/
def patchMapping (ed : Editing) (n : Node) (old new : Value) : Patch Unit :=
  patchEntries ed (patchNode ed) n old new

/-- Takes one pair of a mapping to its new value. -/
def patchEntry (ed : Editing) (key n : Node) (old new : Value) : Patch Unit :=
  patchPair ed (patchNode ed) key n old new

end YamlEdit.Patch
