import YamlEdit.Proofs.Graph.Meaning
import YamlEdit.Proofs.Load.Flatten

/-!
# Parts of a graph

What lies in a part of a graph that nothing leads out of can be told without the rest. So the other
nodes are made leaves (`Graph.mask`), and what is known of plain graphs without circles can be used
of a part that is one, whatever the graph around it is like.
-/

namespace YamlEdit

/-- A node that leads nowhere. -/
def Vertex.hidden : Vertex :=
  ⟨.str, none, .scalar []⟩

namespace Graph

/-- A graph with the nodes of a part; the others lead nowhere. -/
def mask (g : Graph) (part : Nat → Bool) : Graph :=
  { g with vertices := g.vertices.mapIdx fun i v => if part i then v else .hidden }

/-- Nothing leads out of a part. -/
def Closed (g : Graph) (part : Nat → Bool) : Prop :=
  ∀ i, part i = true → ∀ v ∈ g.vertex? i, ∀ c ∈ v.parts, part c = true

variable {g h : Graph} {part : Nat → Bool} {i j : Nat}

theorem size_mask (g : Graph) (part : Nat → Bool) :
    (g.mask part).vertices.size = g.vertices.size :=
  Array.size_mapIdx

theorem vertex?_mask (g : Graph) (part : Nat → Bool) (i : Nat) :
    (g.mask part).vertex? i = (g.vertex? i).map fun v => if part i then v else .hidden :=
  Array.getElem?_mapIdx

/-- A node of the part is as it was. -/
theorem vertex?_mask_of (mine : part i = true) : (g.mask part).vertex? i = g.vertex? i := by
  rw [vertex?_mask]
  simp only [mine, if_true, Option.map_id']

theorem vertex?_mask_of_not (other : part i = false) :
    (g.mask part).vertex? i = (g.vertex? i).map fun _ => .hidden := by
  rw [vertex?_mask]
  simp only [other, Bool.false_eq_true, if_false]

/-- A node of which more is known than that it leads nowhere is one of the part. -/
theorem of_vertex?_mask {v : Vertex} (here : (g.mask part).vertex? i = some v)
    (shown : v ≠ .hidden) : part i = true ∧ g.vertex? i = some v := by
  cases mine : part i with
  | true => exact ⟨rfl, (vertex?_mask_of mine).symm.trans here⟩
  | false =>
    rw [vertex?_mask_of_not mine] at here
    obtain ⟨_, -, rfl⟩ := Option.map_eq_some_iff.mp here
    exact absurd rfl shown

theorem tag?_mask_of (mine : part i = true) : (g.mask part).tag? i = g.tag? i := by
  rw [tag?, vertex?_mask_of mine, tag?]

theorem pairs_mask_of (mine : part i = true) : (g.mask part).pairs i = g.pairs i := by
  rw [pairs, vertex?_mask_of mine, pairs]

theorem merges_mask_of {p : Nat × Nat} (mine : part p.1 = true) :
    (g.mask part).merges p = g.merges p := by
  rw [merges, tag?_mask_of mine, merges]

/-- Graphs with the same nodes. -/
theorem ext_vertex? (text : g.text = h.text) (root : g.root = h.root)
    (same : ∀ i, g.vertex? i = h.vertex? i) : g = h := by
  obtain ⟨text, vertices, root⟩ := g
  obtain ⟨text', vertices', root'⟩ := h
  cases text
  cases root
  have equal : vertices = vertices' := Array.ext_getElem? same
  rw [equal]

/-- Changing a node of the part, and changing the same node where only the part is shown. -/
theorem mask_setBody (mine : part i = true) (body : Vertex.Body) :
    (g.setBody i body).mask part = (g.mask part).setBody i body := by
  refine ext_vertex? rfl rfl fun j => ?_
  by_cases same : j = i
  · subst same
    rw [vertex?_mask_of mine, setBody, setBody, vertex?, vertex?, Array.getElem?_modify,
      Array.getElem?_modify, if_pos rfl, if_pos rfl]
    exact congrArg (Option.map _) (vertex?_mask_of mine).symm
  · rw [vertex?_mask, vertex?_setBody same, vertex?_setBody same, vertex?_mask]

/-- Changes outside of the part do not show. -/
theorem mask_setBody_of_not (other : part i = false) (body : Vertex.Body) :
    (g.setBody i body).mask part = g.mask part := by
  refine ext_vertex? rfl rfl fun j => ?_
  by_cases same : j = i
  · subst same
    rw [vertex?_mask_of_not other, vertex?_mask_of_not other, setBody, vertex?,
      Array.getElem?_modify, if_pos rfl, Option.map_map]
    rfl
  · rw [vertex?_mask, vertex?_setBody same, vertex?_mask]

theorem vertex?_setTag (g : Graph) (i j : Nat) (tag : Tag) :
    (g.setTag i tag).vertex? j =
      if i = j then (g.vertex? j).map fun v => { v with tag } else g.vertex? j := by
  rw [setTag, vertex?, Array.getElem?_modify, vertex?]

theorem mask_setTag_of_not (other : part i = false) (tag : Tag) :
    (g.setTag i tag).mask part = g.mask part := by
  refine ext_vertex? rfl rfl fun j => ?_
  by_cases same : i = j
  · subst same
    rw [vertex?_mask_of_not other, vertex?_mask_of_not other, vertex?_setTag, if_pos rfl,
      Option.map_map]
    rfl
  · rw [vertex?_mask, vertex?_mask, vertex?_setTag, if_neg same]

/-- A part of a graph that lies in another is a part there. -/
theorem Within.mask {name : Nat → Nat} (w : g.Within h name) (part : Nat → Bool) :
    (g.mask (part ∘ name)).Within (h.mask part) name := by
  intro i v here
  rw [vertex?_mask] at here ⊢
  obtain ⟨u, there, rfl⟩ := Option.map_eq_some_iff.mp here
  rw [w i u there, Option.map_some, Function.comp_apply]
  split <;> rfl

end Graph

end YamlEdit
