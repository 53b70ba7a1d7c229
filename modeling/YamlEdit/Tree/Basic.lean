import YamlEdit.Tag.Basic
import YamlEdit.Token.Basic

/-!
# Trees

The nodes of a document in one row: a node comes before its children, and nodes refer to one another
by their places in the row. An alias is a node of its own, with the place of the node that it stands
for. Nodes know where they are in the text.
-/

namespace YamlEdit

/-- What a node is. -/
inductive Node.Body where
  | scalar (tag : Tag) (text : Text) (quoting : Quoting)
  | sequence (tag : Tag) (frame : Frame) (items : List Nat)
  | mapping (tag : Tag) (frame : Frame) (pairs : List (Nat × Nat))
  /-- A name and the anchored node with its tag; none if no node has that anchor. -/
  | aliasOf (name : Text) (target : Option (Nat × Tag))
deriving DecidableEq, Repr, Inhabited

/-- A node of a tree. -/
structure Node where
  index : Nat
  /-- The collection around the node. -/
  parent : Option Nat
  anchor : Option Text
  /-- Where the node begins, with its anchor and tag. -/
  start : Mark
  /-- Where the node ends; for a block collection that is where the next token begins. -/
  stop : Mark
  /-- Where the node begins behind its anchor and tag. -/
  content : Mark
  body : Node.Body
deriving DecidableEq, Repr, Inhabited

/-- What an alias, a scalar or a collection is called. -/
inductive Node.Kind where
  | scalar
  | sequence
  | mapping
  | aliasNode
deriving DecidableEq, Repr

/-- The name of a kind of nodes. -/
def Node.Kind.label : Node.Kind → String
  | scalar => "scalar"
  | sequence => "sequence"
  | mapping => "mapping"
  | aliasNode => "alias"

namespace Node

/-- The kind of a node. -/
def kind (n : Node) : Kind :=
  match n.body with
  | .scalar .. => .scalar
  | .sequence .. => .sequence
  | .mapping .. => .mapping
  | .aliasOf .. => .aliasNode

/-- The tag of a node; an alias has the tag of the node it stands for. -/
def tag? (n : Node) : Option Tag :=
  match n.body with
  | .scalar tag .. => some tag
  | .sequence tag .. => some tag
  | .mapping tag .. => some tag
  | .aliasOf _ target => target.map (·.2)

/-- Whether a node is a collection in brackets or braces. -/
def isFlow (n : Node) : Bool :=
  match n.body with
  | .sequence _ frame _ => frame == .flow
  | .mapping _ frame _ => frame == .flow
  | _ => false

/-- Whether a node is an alias. -/
def isAlias (n : Node) : Bool :=
  n.kind == .aliasNode

/-- The items of a sequence. -/
def items (n : Node) : List Nat :=
  match n.body with
  | .sequence _ _ items => items
  | _ => []

/-- The keys and values of a mapping. -/
def pairs (n : Node) : List (Nat × Nat) :=
  match n.body with
  | .mapping _ _ pairs => pairs
  | _ => []

/-- The children of a node in the order of the text. -/
def children (n : Node) : List Nat :=
  match n.body with
  | .sequence _ _ items => items
  | .mapping _ _ pairs => pairs.flatMap fun p => [p.1, p.2]
  | _ => []

theorem mem_children_of_mem_pairs {n : Node} {p : Nat × Nat} (h : p ∈ n.pairs) :
    p.1 ∈ n.children ∧ p.2 ∈ n.children := by
  rw [Node.pairs] at h
  rw [Node.children]
  split at h
  · next body =>
    rw [body]
    exact ⟨List.mem_flatMap.mpr ⟨p, h, by simp⟩, List.mem_flatMap.mpr ⟨p, h, by simp⟩⟩
  · cases h

/-- Puts consecutive children together as keys and values. -/
def pairUp : List Nat → List (Nat × Nat)
  | k :: v :: r => (k, v) :: pairUp r
  | _ => []

@[simp] theorem pairUp_flatMap (pairs : List (Nat × Nat)) :
    pairUp (pairs.flatMap fun p => [p.1, p.2]) = pairs := by
  induction pairs with
  | nil => rfl
  | cons p r ih => simp [pairUp, ih]

end Node

/-- The nodes of a document, and its text. The first node is the document's own; there is none in a
text without a document. -/
structure Tree where
  text : Text
  nodes : Array Node := #[]
deriving Repr, Inhabited

namespace Tree

/-- The node at a place of the row. -/
def node? (t : Tree) (index : Nat) : Option Node :=
  t.nodes[index]?

/-- The node at a place of the row that counts from the end where it is negative. -/
def nodeAt? (t : Tree) (index : Int) : Option Node :=
  if 0 ≤ index then t.node? index.toNat
  else if -t.nodes.size ≤ index then t.node? (index + t.nodes.size).toNat
  else none

/-- The document's own node. -/
def root? (t : Tree) : Option Node :=
  t.node? 0

/-- The node that an alias stands for, or the node itself; none for an alias without a node. -/
def target? (t : Tree) (n : Node) : Option Node :=
  match n.body with
  | .aliasOf _ none => none
  | .aliasOf _ (some (index, _)) => t.node? index
  | _ => some n

/-- The last node inside of block collections: a node that is written last, and stands for the end
of all collections that end with it. Children come later in the row, so `steps` need not exceed the
number of nodes. -/
def lastLeaf (t : Tree) : (steps : Nat) → Node → Node
  | 0, n => n
  | steps + 1, n =>
    if n.isFlow then n
    else
      match n.children.getLast? with
      | none => n
      | some last =>
        match t.node? last with
        | none => n
        | some child => lastLeaf t steps child

/-- The last node that is written for a node. -/
def lastWritten (t : Tree) (n : Node) : Node :=
  t.lastLeaf t.nodes.size n

/-- Where the text of a node ends. The end of a block collection may lie several lines and comments
further down, so it is measured by the last node inside. -/
def trueEnd (t : Tree) (n : Node) : Mark :=
  (t.lastWritten n).stop

/-- The number of children that all nodes together list. -/
def childCount (t : Tree) : Nat :=
  (t.nodes.toList.flatMap (·.children)).length

/-- Whether some node is an alias. -/
def hasAlias (t : Tree) : Bool :=
  t.nodes.any Node.isAlias

theorem target?_of_not_alias {t : Tree} {n : Node} (h : n.isAlias = false) :
    t.target? n = some n := by
  unfold target?
  split
  · next hb => simp [Node.isAlias, Node.kind, hb] at h
  · next hb => simp [Node.isAlias, Node.kind, hb] at h
  · rfl

end Tree

end YamlEdit
