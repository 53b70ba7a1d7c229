import YamlEdit.Tag.Basic
import YamlEdit.Tree.Basic

/-!
# Graphs

The nodes of a document as values are built from them: an alias is no node here, but a second way to
the anchored one, so nodes can be shared and can lie inside of themselves.
-/

namespace YamlEdit

/-- What a node of a graph is. -/
inductive Vertex.Body where
  | scalar (text : Text)
  | sequence (items : List Nat)
  | mapping (pairs : List (Nat × Nat))
deriving DecidableEq, Repr, Inhabited

/-- A node of a graph; its place in the text may be unknown. -/
structure Vertex where
  tag : Tag
  start : Option Mark
  body : Vertex.Body
deriving DecidableEq, Repr, Inhabited

/-- The kind of a node. -/
def Vertex.kind (v : Vertex) : Node.Kind :=
  match v.body with
  | .scalar _ => .scalar
  | .sequence _ => .sequence
  | .mapping _ => .mapping

/-- The nodes of a document and the one that it starts at. -/
structure Graph where
  text : Text
  vertices : Array Vertex := #[]
  root : Nat := 0
deriving Repr, Inhabited

namespace Graph

/-- The node at a place. -/
def vertex? (g : Graph) (i : Nat) : Option Vertex :=
  g.vertices[i]?

/-- The pairs of a mapping. -/
def pairs (g : Graph) (i : Nat) : List (Nat × Nat) :=
  match g.vertex? i with
  | some ⟨_, _, .mapping pairs⟩ => pairs
  | _ => []

/-- The tag of a node. -/
def tag? (g : Graph) (i : Nat) : Option Tag :=
  (g.vertex? i).map (·.tag)

/-- Changes the body of a node. -/
def setBody (g : Graph) (i : Nat) (body : Vertex.Body) : Graph :=
  { g with vertices := g.vertices.modify i fun v => { v with body } }

/-- Changes the tag of a node. -/
def setTag (g : Graph) (i : Nat) (tag : Tag) : Graph :=
  { g with vertices := g.vertices.modify i fun v => { v with tag } }

@[simp] theorem size_setBody (g : Graph) (i : Nat) (body : Vertex.Body) :
    (g.setBody i body).vertices.size = g.vertices.size := by
  simp [setBody]

@[simp] theorem size_setTag (g : Graph) (i : Nat) (tag : Tag) :
    (g.setTag i tag).vertices.size = g.vertices.size := by
  simp [setTag]

end Graph

end YamlEdit
