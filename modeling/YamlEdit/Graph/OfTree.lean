import YamlEdit.Graph.Basic
import YamlEdit.Load.Error

/-!
# From a tree to a graph

The nodes that can be reached from one node of a tree, each once, with every alias turned into a way
to the node that it stands for.
-/

namespace YamlEdit.Graph

/-- The nodes that can be reached from those pending, behind the ones in `order`: parents first and
aliases followed, none of them twice. A node is pending once where it is the first one, and once where
a node that is met lists it, so `steps` need not exceed the number of children by more than one. -/
def reachable (t : Tree) :
    (steps : Nat) → (pending order : List Nat) → Except ComposeFault (List Nat)
  | 0, _, order => .ok order
  | _ + 1, [], order => .ok order
  | steps + 1, i :: pending, order =>
    match (t.node? i).bind t.target? with
    | none => .error .danglingAlias
    | some n =>
      if order.contains n.index then reachable t steps pending order
      else reachable t steps (n.children ++ pending) (order ++ [n.index])

/-- The node that stands for a node of the tree, by its place in `order`. -/
def vertexOf (t : Tree) (order : List Nat) (i : Nat) : Nat :=
  match (t.node? i).bind t.target? with
  | some n => order.idxOf n.index
  | none => 0

/-- A node of the tree as a node of the graph. -/
def vertexFor (t : Tree) (order : List Nat) (i : Nat) : Vertex :=
  let vertex := vertexOf t order
  match t.node? i with
  | some n =>
    match n.body with
    | .scalar tag text _ => ⟨tag, none, .scalar text⟩
    | .sequence tag _ items => ⟨tag, none, .sequence (items.map vertex)⟩
    | .mapping tag _ pairs => ⟨tag, none, .mapping (pairs.map fun p => (vertex p.1, vertex p.2))⟩
    | .aliasOf .. => default
  | none => default

/-- The graph of what a node of a tree holds. -/
def ofTree (t : Tree) (n : Node) : Except ComposeFault Graph := do
  let order ← reachable t (t.childCount + 2) [n.index] []
  return { text := t.text, vertices := (order.map (vertexFor t order)).toArray }

end YamlEdit.Graph
