import YamlEdit.Value.Equal

/-!
# Looking into a value

What a value holds under a key or at a position. A dictionary answers for its keys, a list or a
tuple for its positions; a value without parts cannot be looked into, and asking a text or bytes for
a key asks for a piece of it first.
-/

namespace YamlEdit

/-- Why a value could not be looked into. -/
inductive LookupFault where
  /-- The value has no parts, or none of that kind. -/
  | noParts
  /-- The position is outside of the list. -/
  | outOfRange
  /-- The dictionary has no such key. -/
  | noKey
  /-- The number is no byte. -/
  | noByte
  /-- A part that should be a key and its value has another number of parts. -/
  | notPair
  /-- A list, a dictionary or a set is no key. -/
  | notKey
deriving DecidableEq, Repr

namespace Value

/-- The whole number that an index is; a boolean counts as zero or one. -/
def index? : Value → Option Int
  | bool b => some (if b then 1 else 0)
  | int n => some n
  | _ => none

/-- The item at an index, which counts from the end when it is negative. -/
def itemAt {α : Type} (items : List α) (index : Int) : Except LookupFault α :=
  let place := if index < 0 then index + items.length else index
  if place < 0 then .error .outOfRange
  else
    match items[place.toNat]? with
    | some x => .ok x
    | none => .error .outOfRange

/-- The bytes as whole numbers. -/
def ofBytes (b : List UInt8) : List Value :=
  b.map fun x => int x.toNat

/-- The characters as texts of one. -/
def ofChars (s : Text) : List Value :=
  s.map fun c => str [c]

/-- Whether a value can be a key. -/
def isKey : Value → Bool
  | list .. | dict .. | set .. => false
  | tuple _ items => allKeys items
  | _ => true
where
  /-- Whether all values can be keys. -/
  allKeys : List Value → Bool
    | [] => true
    | v :: r => v.isKey && allKeys r

/-- Whether a value holds another: a dictionary as a key, a list, a tuple or a set as an item, and a
text or bytes as a piece. -/
def holds (v key : Value) : Except LookupFault Bool :=
  match v with
  | dict _ entries => .ok (hasKey entries key)
  | list _ items | tuple _ items | set _ items => .ok (items.any (same key))
  | str s =>
    match key with
    | str piece => .ok (s.includes piece)
    | _ => .error .noParts
  | bytes b =>
    match key.index?, key with
    | some n, _ =>
      if n < 0 ∨ 255 < n then .error .noByte else .ok (b.any fun x => (x.toNat : Int) == n)
    | none, bytes piece =>
      .ok ((List.range (b.length + 1)).any fun i => piece.isPrefixOf (b.drop i))
    | none, _ => .error .noParts
  | _ => .error .noParts

/-- The item of a value that a key names by its position. -/
def itemBy (items : List Value) (key : Value) : Except LookupFault Value :=
  match key.index? with
  | some n => itemAt items n
  | none => .error .noParts

/-- What a value has under a key: a dictionary by its keys, a list, a tuple, a text or bytes by
their positions. -/
def item (v key : Value) : Except LookupFault Value :=
  match v with
  | dict _ entries =>
    match find? entries key with
    | some w => .ok w
    | none => .error .noKey
  | list _ items | tuple _ items => itemBy items key
  | str s => itemBy (ofChars s) key
  | bytes b => itemBy (ofBytes b) key
  | _ => .error .noParts

/-- What a value has under a key, if it holds the key at all. -/
def held? (v key : Value) : Except LookupFault (Option Value) := do
  if ← v.holds key then return some (← v.item key) else return none

/-- The parts of a value in their order: items, members, keys, characters or bytes. -/
def parts : Value → Except LookupFault (List Value)
  | list _ items | tuple _ items | set _ items => .ok items
  | dict _ entries => .ok (entries.map (·.1))
  | str s => .ok (ofChars s)
  | bytes b => .ok (ofBytes b)
  | _ => .error .noParts

/-- The value without its first items. -/
def itemsFrom (v : Value) (position : Nat) : Except LookupFault Value :=
  match v with
  | list _ items => .ok (list none (items.drop position))
  | tuple _ items => .ok (tuple none (items.drop position))
  | str s => .ok (str (s.drop position))
  | bytes b => .ok (bytes (b.drop position))
  | _ => .error .noParts

/-- A value of two parts as a key and its value. -/
def pair (v : Value) : Except LookupFault (Value × Value) := do
  match ← v.parts with
  | [key, value] => if key.isKey then return (key, value) else throw .notKey
  | _ => throw .notPair

/-- The entries of a value: those of a dictionary, or its parts as keys with their values, where the
last value of a key counts. -/
def asEntries (v : Value) : Except LookupFault (List (Value × Value)) :=
  match v with
  | dict _ entries => .ok entries
  | v => do
    (← v.parts).foldlM (fun entries part => do
      let (key, value) ← part.pair
      return put entries key value) []

@[simp] theorem held?_dict (id : Option Nat) (entries : List (Value × Value)) (key : Value) :
    (dict id entries).held? key = .ok (find? entries key) := by
  have found : hasKey entries key = (find? entries key).isSome := by
    rw [hasKey, find?, Option.isSome_map, List.isSome_find?]
  cases h : find? entries key <;> simp [held?, holds, item, found, h, bind, Except.bind, pure,
    Except.pure]

theorem itemAt_natCast {α : Type} (items : List α) (position : Nat) :
    itemAt items (position : Int) =
      match items[position]? with
      | some x => .ok x
      | none => .error .outOfRange := by
  have h : ¬ (position : Int) < 0 := by omega
  simp [itemAt, h]

end Value

end YamlEdit
