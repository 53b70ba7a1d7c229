import YamlEdit.Proofs.Tree.Below
import YamlEdit.Proofs.Tree.Readable

/-!
# Graphs are rebuilt once

A graph is built of what a node leads to, through children and through aliases, however the anchors
enclose one another. The search for these nodes has no measure of its own on the tree, as it goes back
wherever an alias stands for a node around it. It ends because a node is met only once: every step takes
one node off the pending ones, and only a node that was not met before puts its children there.

So each node that is met becomes one vertex, and so do the aliases of it, as they lead to the same node.
Nothing is asked of the tree but that its nodes know their places, that children are in the row, and
that an alias stands for a node before it that is no alias.
-/

namespace YamlEdit.Tree

/-- A graph that is built of what a node leads to; `place` says which vertex a node becomes. -/
structure Rebuilt (t : Tree) (n : Node) (g : Graph) (place : Nat → Nat) : Prop where
  root : place n.index = g.root
  /-- A node becomes a vertex with its tag and its text, or with what its children become, in order. -/
  vertex : ∀ m, t.LeadsTo n m → g.vertex? (place m.index) = some (vertexBy place m.body)
  apart : ∀ m, t.LeadsTo n m → ∀ x, t.LeadsTo n x → place m.index = place x.index → m = x
  onto : ∀ k < g.vertices.size, ∃ m, t.LeadsTo n m ∧ place m.index = k
  /-- An alias becomes what the node becomes that it stands for. -/
  shared : ∀ a ∈ t.nodes, ∀ m, t.target? a = some m → place a.index = place m.index

variable {t : Tree} {n : Node} {i : Nat}

theorem lead_eq {m : Node} (target : (t.node? i).bind t.target? = some m) : t.lead i = m.index := by
  rw [lead, target]

section

variable (sound : Sound t.nodes)
include sound

/-- A node that another one stands for is in the tree, and stands for itself only. -/
theorem lead_self {m : Node} (inside : i < t.nodes.size)
    (target : (t.node? i).bind t.target? = some m) :
    t.node? m.index = some m ∧ t.lead m.index = m.index := by
  obtain ⟨x, same, place, node, alone⟩ := exists_lead sound inside
  cases target.symm.trans same
  rw [← place] at node
  exact ⟨node, lead_eq (by rw [node, Option.bind_some, target?_of_not_alias alone])⟩

/-- A node that another leads to is in the tree, and stands for itself only. -/
theorem LeadsTo.own {a m : Node} (here : t.node? i = some a) (led : t.LeadsTo a m) :
    t.node? m.index = some m ∧ t.lead m.index = m.index := by
  induction led with
  | self target =>
    exact lead_self sound (Array.getElem?_eq_some_iff.mp here).1
      (by rw [here, Option.bind_some, target])
  | child _ listed target ih =>
    exact lead_self sound (sound.child _ _ ih.1 _ listed) target

/-- What a search has found that is over is all that a node leads to. -/
theorem Searched.complete {order : List Nat} (done : t.Searched [] order)
    (here : t.node? i = some n) (first : t.lead i ∈ order) {m : Node} (led : t.LeadsTo n m) :
    m.index ∈ order := by
  induction led with
  | self target =>
    rwa [← lead_eq (i := i) (by rw [here, Option.bind_some, target])]
  | child led listed target ih =>
    rw [← lead_eq target]
    exact done.closed ih (led.own sound here).1 listed

end

/-- The search from a node ends with what the node leads to, each node once. -/
theorem reachable_iff (sound : Sound t.nodes) (here : t.node? i = some n) :
    ∃ order, order.Nodup ∧ order[0]? = some (t.lead i) ∧
      (∀ steps, t.childCount < steps → Graph.reachable t steps [i] [] = .ok order) ∧
      ∀ k, k ∈ order ↔ ∃ m, t.node? k = some m ∧ t.LeadsTo n m := by
  have inside : i < t.nodes.size := (Array.getElem?_eq_some_iff.mp here).1
  obtain ⟨more, done, apart, search⟩ := exists_reachable sound inside
  refine ⟨t.lead i :: more, apart, rfl, search, fun k => ⟨fun found => ?_, ?_⟩⟩
  · have below := below_of_reachable (n := n) sound (t.childCount + 1)
      (List.forall_mem_singleton.mpr ⟨inside, below_lead sound here⟩) (List.forall_mem_nil _)
      (search _ (Nat.lt_succ_self _)) k found
    exact below_iff.mp below
  · rintro ⟨m, node, led⟩
    rw [← sound.index k m node]
    exact done.complete sound here List.mem_cons_self led

/-- From every node of a tree, also of one whose anchors enclose their own aliases, the search for what
the node leads to ends, and what it meets becomes a graph in which every node that is no alias is one
vertex, which its aliases share. -/
theorem rebuilt_ofTree (sound : Sound t.nodes) (here : t.node? i = some n) :
    ∃ order g, (∀ steps, t.childCount < steps → Graph.reachable t steps [n.index] [] = .ok order) ∧
      Graph.ofTree t n = .ok g ∧ g.vertices.size = order.length ∧
      t.Rebuilt n g (Graph.vertexOf t order) := by
  obtain ⟨order, apart, first, search, met⟩ := reachable_iff sound here
  rw [← sound.index i n here] at search
  let g : Graph := { text := t.text, vertices := (order.map (Graph.vertexFor t order)).toArray }
  have vertex : ∀ k, g.vertex? k = (order[k]?).map (Graph.vertexFor t order) := by
    intro k
    rw [Graph.vertex?, List.getElem?_toArray, List.getElem?_map]
  have place : ∀ {j x}, (t.node? j).bind t.target? = some x →
      Graph.vertexOf t order j = order.idxOf x.index := by
    intro j x target
    rw [Graph.vertexOf, target]
  have own : ∀ {m}, t.LeadsTo n m →
      m.index ∈ order ∧ Graph.vertexOf t order m.index = order.idxOf m.index := by
    intro m led
    obtain ⟨node, self⟩ := led.own sound here
    have inside := (Array.getElem?_eq_some_iff.mp node).1
    exact ⟨(met _).mpr ⟨m, node, led⟩, by rw [vertexOf_eq sound order inside, self]⟩
  refine ⟨order, g, search, ?_, by simp [g], ?_, ?_, ?_, ?_, ?_⟩
  · rw [Graph.ofTree, search _ (by omega)]
    rfl
  · have inside : i < t.nodes.size := (Array.getElem?_eq_some_iff.mp here).1
    rw [sound.index i n here, vertexOf_eq sound order inside]
    obtain ⟨r, rfl⟩ : ∃ r, order = t.lead i :: r := by
      cases order with
      | nil => cases first
      | cons j r =>
        cases first
        exact ⟨r, rfl⟩
    exact List.idxOf_cons_self
  · intro m led
    obtain ⟨listed, at_⟩ := own led
    rw [vertex, at_, List.getElem?_eq_getElem (List.idxOf_lt_length_iff.mpr listed),
      List.getElem_idxOf, Option.map_some, vertexFor_eq (led.own sound here).1]
  · intro m led x led' same
    obtain ⟨listed, at_⟩ := own led
    rw [at_, (own led').2, List.idxOf_inj listed] at same
    have node := (led.own sound here).1
    rw [same, (led'.own sound here).1] at node
    exact (Option.some.inj node).symm
  · intro k inside
    have inside : k < order.length := by simpa [g] using inside
    obtain ⟨m, node, led⟩ := (met order[k]).mp (List.getElem_mem inside)
    refine ⟨m, led, ?_⟩
    rw [(own led).2, sound.index _ m node, apart.idxOf_getElem]
  · intro a ha m target
    obtain ⟨j, known⟩ := Array.mem_iff_getElem?.mp ha
    have known : t.node? j = some a := known
    have inside : j < t.nodes.size := (Array.getElem?_eq_some_iff.mp known).1
    have target : (t.node? j).bind t.target? = some m := by
      rw [known, Option.bind_some, target]
    obtain ⟨node, self⟩ := lead_self sound inside target
    rw [sound.index j a known, vertexOf_eq sound order inside, lead_eq target,
      vertexOf_eq sound order (Array.getElem?_eq_some_iff.mp node).1, self]

/-- A sequence and a mapping in it with aliases of each inside of it. -/
def selfEnclosed : Text :=
  "&a [*a, &b {k: *b}, *a]".toList

theorem rebuilt_ofTree_selfEnclosed : ∃ t n order g, compose selfEnclosed = .ok t ∧
    t.root? = some n ∧ Sound t.nodes ∧ t.nodes.size = 6 ∧
    (∀ steps, t.childCount < steps → Graph.reachable t steps [n.index] [] = .ok order) ∧
    Graph.ofTree t n = .ok g ∧ g.vertices.size = order.length ∧
    t.Rebuilt n g (Graph.vertexOf t order) ∧ order = [0, 2, 3] := by
  obtain ⟨t, composed, check⟩ := exists_of_any
    (show (compose selfEnclosed).toOption.any (fun t => t.root?.any fun n => t.node? 0 == some n &&
      t.nodes.size == 6 && (Graph.reachable t (t.childCount + 1) [n.index] []).toOption == some [0, 2, 3])
      = true by decide +kernel)
  simp only [Option.any_eq_true, Bool.and_eq_true, beq_iff_eq] at check
  obtain ⟨n, rooted, ⟨here, size⟩, found⟩ := check
  have sound := sound_of_compose composed
  obtain ⟨order, g, search, built, vertices, rebuilt⟩ := rebuilt_ofTree sound here
  rw [search _ (Nat.lt_succ_self _)] at found
  exact ⟨t, n, order, g, composed, rooted, sound, size, search, built, vertices, rebuilt,
    Option.some.inj found⟩

end YamlEdit.Tree
