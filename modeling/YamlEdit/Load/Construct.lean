import YamlEdit.Graph.Compose
import YamlEdit.Graph.OfTree
import YamlEdit.Load.Literal
import YamlEdit.Value.Store

/-!
# Building values

Nodes of a graph become objects of a store. A collection is made empty and waits in a queue to be
filled, so that it can be an item of itself; scalars are read at once. Every node becomes one
object, which all ways to the node share.

Before a mapping is filled its merge keys are replaced by the pairs of the mappings that they name.
-/

namespace YamlEdit.Construct

/-- The state of building. -/
structure Builder where
  graph : Graph
  store : Store := {}
  /-- The objects of nodes. -/
  built : List (Nat × Nat) := []
  /-- The nodes whose objects are still to be filled, in order. -/
  waiting : List Nat := []

/-- A step of building. -/
abbrev Build := StateT Builder (Except LoadError)

/-- A fault at a node, in something that began at another. -/
def fault {α : Type} (cause : ConstructFault) (began : Option Mark) (failed : Option Mark) :
    Build α := do
  throw (.construct ⟨cause, (← get).graph.text, began, failed⟩)

/-- The node at a place of the graph. -/
def vertex (i : Nat) : Build Vertex := do
  return ((← get).graph.vertex? i).getD default

/-- Lifts the reading of a literal. -/
def literal {α : Type} : Except LiteralFault α → Build α
  | .ok v => pure v
  | .error f => throw (.literal f)

/-! ## Merge keys -/

/-- The next merge key of a mapping at or behind an index, with its place and its value; value keys
on the way become strings. -/
def nextMerge (g : Graph) (index : Nat) : List (Nat × Nat) → Graph × Option (Nat × Nat)
  | [] => (g, none)
  | (k, v) :: r =>
    match g.tag? k with
    | some .merge => (g, some (index, v))
    | some .value => nextMerge (g.setTag k .str) (index + 1) r
    | _ => nextMerge g (index + 1) r

/-- The mappings that the items of a merged sequence are, each flattened, and their pairs, those of
the last item first. -/
def mergedItems (flatten : Graph → Nat → Except LoadError Graph) (node : Vertex) :
    Graph → List Nat → List (List (Nat × Nat)) → Except LoadError (Graph × List (Nat × Nat))
  | g, [], collected => .ok (g, collected.flatten)
  | g, i :: r, collected =>
    let sub := (g.vertex? i).getD default
    match sub.body with
    | .mapping _ => do
      let g ← flatten g i
      mergedItems flatten node g r (g.pairs i :: collected)
    | _ => .error (.construct ⟨.mergeItem sub.kind, g.text, node.start, sub.start⟩)

/-- Replaces the merge keys of a mapping from an index on by the pairs that they bring, which go
before its own. Each takes one merge key of the graph away, so there are at most `keys` of them. -/
def flattenFrom : (keys : Nat) → Graph → (i index : Nat) → List (Nat × Nat) → Except LoadError Graph
  | keys, g, i, index, merged =>
    let (g, found) := nextMerge g index ((g.pairs i).drop index)
    match found, keys with
    | none, _ =>
      .ok (if merged.isEmpty then g else g.setBody i (.mapping (merged ++ g.pairs i)))
    | some _, 0 => .ok g
    | some (place, value), keys + 1 => do
      let node := (g.vertex? i).getD default
      let g := g.setBody i (.mapping ((g.pairs i).eraseIdx place))
      let source := (g.vertex? value).getD default
      match source.body with
      | .mapping _ =>
        let g ← flattenFrom keys g value 0 []
        flattenFrom keys g i place (merged ++ g.pairs value)
      | .sequence items =>
        let (g, more) ← mergedItems (fun g j => flattenFrom keys g j 0 []) node g items []
        flattenFrom keys g i place (merged ++ more)
      | .scalar _ =>
        .error (.construct ⟨.mergeValue source.kind, g.text, node.start, source.start⟩)

/-- The number of merge keys in a graph. -/
def mergeKeys (g : Graph) : Nat :=
  ((List.range g.vertices.size).flatMap fun i =>
    (g.pairs i).filter fun p => g.tag? p.1 == some .merge).length

/-- Replaces the merge keys of a mapping. -/
def flatten (g : Graph) (i : Nat) : Except LoadError Graph :=
  flattenFrom (mergeKeys g) g i 0 []

/-! ## Scalars -/

/-- The text of a scalar, or of the value key's value in a mapping that has one. A chain of mappings
has at most `steps` nodes. -/
def scalarText : (steps : Nat) → (i : Nat) → Build Text
  | 0, i => do fault (.notScalar (← vertex i).kind) none (← vertex i).start
  | steps + 1, i => do
    let v ← vertex i
    match v.body with
    | .scalar text => return text
    | .sequence _ => fault (.notScalar v.kind) none v.start
    | .mapping pairs =>
      let g := (← get).graph
      match pairs.find? fun p => g.tag? p.1 == some .value with
      | some p => scalarText steps p.2
      | none => fault (.notScalar v.kind) none v.start

/-- The text of a scalar node. -/
def text (i : Nat) : Build Text := do
  scalarText ((← get).graph.vertices.size + 1) i

/-- Remembers the object of a node. -/
def remember (i : Nat) (o : Object) : Build Nat := do
  let b ← get
  let (ref, store) := b.store.add o
  set { b with store, built := (i, ref) :: b.built }
  return ref

/-- Makes the object of a value without parts. -/
def leaf (i : Nat) (v : Value) : Build Nat :=
  remember i (.leaf v)

/-- Makes an empty object, to be filled later. -/
def later (i : Nat) (o : Object) : Build Nat := do
  modify fun b => { b with waiting := b.waiting ++ [i] }
  remember i o

/-- The object of a node by its tag; it is made if there is none yet. -/
def object (i : Nat) : Build Nat := do
  match (← get).built.lookup i with
  | some ref => return ref
  | none =>
    let v ← vertex i
    match v.tag with
    | .null => let _ ← text i; leaf i .null
    | .bool => leaf i (← literal (Literal.bool (← text i)))
    | .int => leaf i (← literal (Literal.int (← text i)))
    | .float => leaf i (← literal (Literal.float (← text i)))
    | .str => leaf i (.str (← text i))
    | .timestamp =>
      let s ← text i
      if v.kind != .scalar then throw (.literal .nestedStamp)
      leaf i (← literal (Literal.timestamp s))
    | .binary =>
      match Literal.binary (← text i) with
      | .ok b => leaf i b
      | .error cause => fault cause none v.start
    | .seq => later i (.list [])
    | .map => later i (.dict [])
    | .set => later i (.set [])
    | .omap | .pairs => later i (.list [])
    | .merge | .value | .other _ => fault (.unknownTag v.tag) none v.start

/-! ## Collections -/

/-- Changes an object. -/
def replace (ref : Nat) (o : Object) : Build Unit :=
  modify fun b => { b with store := b.store.replace ref o }

/-- Whether an object can be a key. -/
def isHashable (ref : Nat) : Build Bool := do
  match (← get).store.objects[ref]? with
  | some (.list _) | some (.dict _) | some (.set _) => return false
  | _ => return true

/-- The entries of a mapping: its merge keys are replaced, and an equal key met later only changes
the value of the first one. -/
def entries (i : Nat) : Build (List (Nat × Nat)) := do
  let v ← vertex i
  match v.body with
  | .mapping _ =>
    let b ← get
    match flatten b.graph i with
    | .error e => throw e
    | .ok graph =>
      set { b with graph }
      (graph.pairs i).foldlM (fun entries (k, value) => do
        let key ← object k
        if !(← isHashable key) then fault .unhashableKey v.start (← vertex k).start
        let value ← object value
        return (← get).store.putEntry entries key value) []
  | _ => fault (.notMapping v.kind) none v.start

/-- The items of a list of pairs, given as mappings of one pair each. -/
def pairItems (keyed : Bool) (i : Nat) : Build (List Nat) := do
  let v ← vertex i
  match v.body with
  | .sequence items =>
    items.mapM fun j => do
      let sub ← vertex j
      match sub.body with
      | .mapping [(k, value)] =>
        let key ← object k
        let value ← object value
        let (ref, store) := (← get).store.add (.tuple [key, value])
        modify fun b => { b with store }
        return ref
      | .mapping pairs => fault (.pairsCount keyed pairs.length) v.start sub.start
      | _ => fault (.pairsMapping keyed sub.kind) v.start sub.start
  | _ => fault (.pairsSequence keyed v.kind) v.start v.start

/-- The content of a collection by its tag. -/
def content (i : Nat) : Build Object := do
  let v ← vertex i
  match v.tag with
  | .map => return .dict (← entries i)
  | .set => return .set ((← entries i).map (·.1))
  | .omap => return .list (← pairItems true i)
  | .pairs => return .list (← pairItems false i)
  | _ =>
    match v.body with
    | .sequence items => return .list (← items.mapM object)
    | _ => fault (.notSequence v.kind) none v.start

/-- Fills the objects that wait, first come first served. Every node waits once, so at most `steps`
of them do. -/
def fill : (steps : Nat) → Build Unit
  | 0 => return
  | steps + 1 => do
    let b ← get
    match b.waiting with
    | [] => return
    | i :: r =>
      set { b with waiting := r }
      let o ← content i
      replace (((← get).built.lookup i).getD 0) o
      fill steps

/-- The object of the graph's first node, filled. -/
def run (g : Graph) : Except LoadError Loaded := do
  let build : Build Nat := do
    let ref ← object g.root
    fill (g.vertices.size + 1)
    return ref
  let (root, b) ← build.run { graph := g }
  return ⟨b.store, root⟩

end YamlEdit.Construct

namespace YamlEdit

/-- The value of a graph; of one without nodes it is null. -/
def Graph.load (g : Graph) : Except LoadError Loaded :=
  if g.vertices.isEmpty then .ok ⟨⟨#[.leaf .null]⟩, 0⟩ else Construct.run g

/-- The value of a text, in a form that can be edited in place. -/
def load (text : Text) : Except LoadError Loaded := do
  (← Graph.compose text).load

/-- The value of a text. -/
def loadValue (text : Text) : Except LoadError Value := do
  return (← load text).value

/-- The value of a node of a tree. -/
def Tree.construct (t : Tree) (n : Node) : Except LoadError Value :=
  match Graph.ofTree t n with
  | .error cause => .error (.compose ⟨cause, t.text, none, none⟩)
  | .ok g => (g.load).map Loaded.value

end YamlEdit
