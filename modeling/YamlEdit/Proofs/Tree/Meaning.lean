import YamlEdit.Proofs.Load.Meaning
import YamlEdit.Proofs.Tree.Load
import YamlEdit.Proofs.Tree.WellFormed

/-!
# What the nodes of a tree mean

All nodes of a tree are in one graph, in which an alias is the node that it stands for. Constructing a
node searches the tree from there and builds what was found, a graph of its own whose nodes are named
anew. That graph lies in the one of the tree; so all constructions of parts agree with one another and
with the whole, and a part of what can be loaded can be constructed.
-/

namespace YamlEdit

namespace Tree

/-- The place of the node that a node leads to: of the node that an alias stands for, or of the node
itself. -/
def lead (t : Tree) (i : Nat) : Nat :=
  match (t.node? i).bind t.target? with
  | some n => n.index
  | none => 0

/-- The graph of all nodes of a tree. -/
def graph (t : Tree) : Graph :=
  { text := t.text, vertices := t.nodes.map fun n => vertexBy t.lead n.body }

theorem vertex?_graph {t : Tree} {i : Nat} {n : Node} (here : t.node? i = some n) :
    t.graph.vertex? i = some (vertexBy t.lead n.body) := by
  show (t.nodes.map fun n => vertexBy t.lead n.body)[i]? = _
  rw [Array.getElem?_map, show t.nodes[i]? = some n from here]
  rfl

variable {t : Tree}

/-- Every node leads to one that is no alias. -/
theorem exists_lead (sound : Sound t.nodes) {i : Nat} (inside : i < t.nodes.size) :
    ∃ m, (t.node? i).bind t.target? = some m ∧ m.index = t.lead i ∧ t.node? (t.lead i) = some m ∧
      m.isAlias = false := by
  have here : t.node? i = some t.nodes[i] := Array.getElem?_eq_getElem inside
  suffices found : ∃ m, (t.node? i).bind t.target? = some m ∧ t.node? m.index = some m ∧
      m.isAlias = false by
    obtain ⟨m, target, node, alone⟩ := found
    have place : m.index = t.lead i := by
      rw [lead, target]
    exact ⟨m, target, place, place ▸ node, alone⟩
  rw [here, Option.bind_some]
  cases link : t.nodes[i].link? with
  | none =>
    have alone : t.nodes[i].isAlias = false := Node.link?_eq_none.mp link
    refine ⟨_, target?_of_not_alias alone, ?_, alone⟩
    rw [sound.index i _ here, here]
  | some target =>
    obtain ⟨aim, rfl, -, mine⟩ := sound.link i _ here target link
    obtain ⟨m, there, alone⟩ := isOwn_iff.mp mine
    refine ⟨m, (target?_of_link link).1.trans there, ?_, alone⟩
    rw [sound.index aim m there]
    exact there

theorem lead_lt (sound : Sound t.nodes) {i : Nat} (inside : i < t.nodes.size) :
    t.lead i < t.nodes.size := by
  obtain ⟨m, -, -, node, -⟩ := exists_lead sound inside
  exact (Array.getElem?_eq_some_iff.mp node).1

theorem vertexOf_eq (sound : Sound t.nodes) (order : List Nat) {i : Nat}
    (inside : i < t.nodes.size) : Graph.vertexOf t order i = order.idxOf (t.lead i) := by
  obtain ⟨m, target, place, -⟩ := exists_lead sound inside
  rw [Graph.vertexOf, target]
  dsimp only
  rw [place]

/-! ## The search has enough steps -/

/-- The children of the nodes that have not been met. -/
def unmet (t : Tree) (order : List Nat) : Nat :=
  ∑ x ∈ Finset.range t.nodes.size \ order.toFinset, t.fanOut x

theorem unmet_append {order : List Nat} {j : Nat} (inside : j < t.nodes.size) (fresh : j ∉ order) :
    t.unmet order = t.unmet (order ++ [j]) + t.fanOut j := by
  have member : j ∈ Finset.range t.nodes.size \ order.toFinset := by
    simp [inside, fresh]
  have rest : Finset.range t.nodes.size \ (order ++ [j]).toFinset =
      (Finset.range t.nodes.size \ order.toFinset).erase j := by
    ext x
    simp only [List.toFinset_append, List.toFinset_cons, List.toFinset_nil, Finset.mem_sdiff,
      Finset.mem_union, Finset.mem_erase, Finset.mem_insert, Finset.notMem_empty, or_false, not_or]
    tauto
  rw [unmet, unmet, rest, Finset.sum_erase_add _ _ member]

/-- Where a search is: what has been found is no alias, and its children lead to what has been found
or are pending. -/
structure Searched (t : Tree) (pending order : List Nat) : Prop where
  own : ∀ x ∈ order, ∃ n, t.node? x = some n ∧ n.isAlias = false
  inside : ∀ p ∈ pending, p < t.nodes.size
  children : ∀ x ∈ order, ∀ n ∈ t.node? x, ∀ c ∈ n.children, t.lead c ∈ order ∨ c ∈ pending

namespace Searched

variable {i : Nat} {pending order : List Nat}

/-- A node that leads to what has been found. -/
theorem skip (h : Searched t (i :: pending) order) (met : t.lead i ∈ order) :
    Searched t pending order := by
  refine ⟨h.own, fun p hp => h.inside p (List.mem_cons_of_mem i hp), ?_⟩
  intro x hx n hn c hc
  rcases h.children x hx n hn c hc with there | waits
  · exact .inl there
  · rcases List.mem_cons.mp waits with rfl | later
    · exact .inl met
    · exact .inr later

/-- A node that leads to one that has not been found. -/
theorem visit (h : Searched t (i :: pending) order) (sound : Sound t.nodes) {m : Node}
    (node : t.node? (t.lead i) = some m) (alone : m.isAlias = false) :
    Searched t (m.children ++ pending) (order ++ [t.lead i]) := by
  refine ⟨?_, ?_, ?_⟩
  · intro x hx
    rcases List.mem_append.mp hx with before | last
    · exact h.own x before
    · rw [List.mem_singleton.mp last]
      exact ⟨m, node, alone⟩
  · intro p hp
    rcases List.mem_append.mp hp with child | later
    · exact sound.child _ m node p child
    · exact h.inside p (List.mem_cons_of_mem i later)
  · intro x hx n hn c hc
    rcases List.mem_append.mp hx with before | last
    · rcases h.children x before n hn c hc with there | waits
      · exact .inl (List.mem_append_left _ there)
      · rcases List.mem_cons.mp waits with rfl | later
        · exact .inl (List.mem_append_right _ (List.mem_singleton_self _))
        · exact .inr (List.mem_append_right _ later)
    · rw [List.mem_singleton.mp last] at hn
      cases node.symm.trans hn
      exact .inr (List.mem_append_left _ hc)

theorem closed (h : Searched t [] order) {x : Nat} (found : x ∈ order) {n : Node}
    (here : t.node? x = some n) {c : Nat} (child : c ∈ n.children) : t.lead c ∈ order :=
  (h.children x found n here c child).resolve_right List.not_mem_nil

end Searched

theorem reachable_nil (steps : Nat) (order : List Nat) :
    Graph.reachable t steps [] order = .ok order := by
  cases steps <;> rfl

theorem reachable_cons (sound : Sound t.nodes) (steps : Nat) {i : Nat} (inside : i < t.nodes.size)
    (pending order : List Nat) : ∃ m, t.node? (t.lead i) = some m ∧ m.isAlias = false ∧
      Graph.reachable t (steps + 1) (i :: pending) order =
        if t.lead i ∈ order then Graph.reachable t steps pending order
        else Graph.reachable t steps (m.children ++ pending) (order ++ [t.lead i]) := by
  obtain ⟨m, target, place, node, alone⟩ := exists_lead sound inside
  refine ⟨m, node, alone, ?_⟩
  rw [Graph.reachable, target]
  dsimp only
  rw [place]
  simp only [List.contains_iff_mem]

/-- The search goes on until nothing is pending, and keeps what it has found. It takes a step for
every node that is pending now and for every child of a node that it still meets; more steps change
nothing. -/
theorem reachable_spec (sound : Sound t.nodes) {pending order : List Nat}
    (h : Searched t pending order) (apart : order.Nodup) :
    ∃ more, Searched t [] (order ++ more) ∧ (order ++ more).Nodup ∧
      ∀ steps, pending.length + t.unmet order ≤ steps →
        Graph.reachable t steps pending order = .ok (order ++ more) := by
  generalize bound : pending.length + t.unmet order = size
  induction size using Nat.strongRecOn generalizing pending order with
  | ind size ih =>
    cases pending with
    | nil =>
      refine ⟨[], by rwa [List.append_nil], by rwa [List.append_nil], fun steps _ => ?_⟩
      rw [List.append_nil, reachable_nil]
    | cons i pending =>
      have inside := h.inside i List.mem_cons_self
      obtain ⟨m, node, alone, -⟩ := reachable_cons sound 0 inside pending order
      have first : ∀ steps, Graph.reachable t (steps + 1) (i :: pending) order =
          if t.lead i ∈ order then Graph.reachable t steps pending order
          else Graph.reachable t steps (m.children ++ pending) (order ++ [t.lead i]) := by
        intro steps
        obtain ⟨m', node', -, search⟩ := reachable_cons sound steps inside pending order
        cases node.symm.trans node'
        exact search
      rw [List.length_cons] at bound
      by_cases met : t.lead i ∈ order
      · obtain ⟨more, done, apart, search⟩ := ih _ (by omega) (h.skip met) apart rfl
        refine ⟨more, done, apart, fun steps enough => ?_⟩
        obtain ⟨steps, rfl⟩ := Nat.exists_eq_add_one.mpr (show 0 < steps by omega)
        rw [first, if_pos met]
        exact search steps (by omega)
      · have less := unmet_append (lead_lt sound inside) met
        rw [fanOut, node] at less
        dsimp only at less
        have apart : (order ++ [t.lead i]).Nodup :=
          List.nodup_append.mpr ⟨apart, List.nodup_singleton _, fun x hx y hy same =>
            met (List.mem_singleton.mp hy ▸ same ▸ hx)⟩
        obtain ⟨more, done, apart, search⟩ :=
          ih _ (by rw [List.length_append]; omega) (h.visit sound node alone) apart rfl
        rw [List.append_assoc] at done apart search
        refine ⟨_, done, apart, fun steps enough => ?_⟩
        obtain ⟨steps, rfl⟩ := Nat.exists_eq_add_one.mpr (show 0 < steps by omega)
        rw [first, if_neg met]
        exact search steps (by rw [List.length_append]; omega)

/-! ## The graph of what a node holds -/

/-- A tree that events made: a row of nodes that know their places and lead to nodes before them. -/
structure Ordered (t : Tree) : Prop where
  sound : Sound t.nodes
  row : Row t.nodes 0 [0] t.nodes.size

/-- The search from a node begins with what the node leads to, and ends. -/
theorem exists_reachable (sound : Sound t.nodes) {i : Nat} (inside : i < t.nodes.size) :
    ∃ more, Searched t [] (t.lead i :: more) ∧ (t.lead i :: more).Nodup ∧
      ∀ steps, t.childCount < steps →
        Graph.reachable t steps [i] [] = .ok (t.lead i :: more) := by
  obtain ⟨m, node, alone, -⟩ := reachable_cons sound 0 inside [] []
  have start : Searched t [i] [] := by
    refine ⟨List.forall_mem_nil _, ?_, List.forall_mem_nil _⟩
    intro p hp
    rw [List.mem_singleton.mp hp]
    exact inside
  have less : t.unmet [] = t.unmet ([] ++ [t.lead i]) + t.fanOut (t.lead i) :=
    unmet_append (lead_lt sound inside) List.not_mem_nil
  rw [unmet, List.toFinset_nil, Finset.sdiff_empty, ← childCount_eq, fanOut, node] at less
  dsimp only at less
  obtain ⟨more, done, apart, search⟩ :=
    reachable_spec sound (start.visit sound node alone) (List.nodup_singleton _)
  refine ⟨more, done, apart, fun steps enough => ?_⟩
  obtain ⟨steps, rfl⟩ := Nat.exists_eq_add_one.mpr (show 0 < steps by omega)
  obtain ⟨m', node', -, first⟩ := reachable_cons sound steps inside [] []
  cases node.symm.trans node'
  rw [first, if_neg List.not_mem_nil]
  exact search steps (by rw [List.append_nil]; omega)

theorem rename_vertexBy (f name : Nat → Nat) (body : Node.Body) :
    (vertexBy f body).rename name = vertexBy (name ∘ f) body := by
  cases body with
  | scalar tag text quoting => rfl
  | aliasOf name target => rfl
  | sequence tag frame items => simp [vertexBy, Vertex.rename]
  | mapping tag frame pairs => simp [vertexBy, Vertex.rename]

theorem vertexFor_eq {order : List Nat} {i : Nat} {n : Node} (here : t.node? i = some n) :
    Graph.vertexFor t order i = vertexBy (Graph.vertexOf t order) n.body := by
  rw [Graph.vertexFor, here]
  dsimp only
  cases n.body <;> rfl

theorem parts_vertexBy {f : Nat → Nat} {n : Node} {c : Nat} (hc : c ∈ (vertexBy f n.body).parts) :
    ∃ d ∈ n.children, c = f d := by
  obtain ⟨index, parent, anchor, start, stop, content, body⟩ := n
  cases body with
  | scalar tag text quoting => cases hc
  | aliasOf name target => cases hc
  | sequence tag frame items =>
    obtain ⟨d, hd, rfl⟩ := List.mem_map.mp hc
    exact ⟨d, hd, rfl⟩
  | mapping tag frame pairs =>
    obtain ⟨q, hq, hc⟩ := List.mem_flatMap.mp hc
    obtain ⟨p, hp, rfl⟩ := List.mem_map.mp hq
    have parts : c = f p.1 ∨ c = f p.2 := by simpa using hc
    rcases parts with rfl | rfl
    · exact ⟨p.1, List.mem_flatMap.mpr ⟨p, hp, by simp⟩, rfl⟩
    · exact ⟨p.2, List.mem_flatMap.mpr ⟨p, hp, by simp⟩, rfl⟩

/-- Every node has a graph of its own, which lies in the graph of the tree; its nodes are those that
the search finds. -/
theorem ofTree_found (sound : Sound t.nodes) {i : Nat} {n : Node} (here : t.node? i = some n) :
    ∃ g name order, Graph.reachable t (t.childCount + 2) [i] [] = .ok order ∧
      (∀ k < g.vertices.size, name k ∈ order) ∧ Graph.ofTree t n = .ok g ∧ g.Within t.graph name ∧
        g.root = 0 ∧ name 0 = t.lead i ∧ 0 < g.vertices.size ∧
          ∀ k, ∀ v ∈ g.vertex? k, ∀ c ∈ v.parts, c < g.vertices.size := by
  have inside : i < t.nodes.size := (Array.getElem?_eq_some_iff.mp here).1
  obtain ⟨more, search, -, found⟩ := exists_reachable sound inside
  have found := found (t.childCount + 2) (by omega)
  let order := t.lead i :: more
  let g : Graph := { text := t.text, vertices := (order.map (Graph.vertexFor t order)).toArray }
  have size : g.vertices.size = order.length := by simp [g]
  have vertex : ∀ k v, g.vertex? k = some v → ∃ m, t.node? (order.getD k 0) = some m ∧
      order.getD k 0 ∈ order ∧ v = vertexBy (fun c => order.idxOf (t.lead c)) m.body := by
    intro k v hv
    have hv : (order.map (Graph.vertexFor t order))[k]? = some v := by
      rw [← hv, Graph.vertex?, List.getElem?_toArray]
    rw [List.getElem?_map] at hv
    obtain ⟨x, hx, rfl⟩ := Option.map_eq_some_iff.mp hv
    have member := List.mem_of_getElem? hx
    obtain ⟨m, node, -⟩ := search.own x member
    have value : order.getD k 0 = x := by rw [List.getD_eq_getElem?_getD, hx, Option.getD_some]
    rw [value]
    refine ⟨m, node, member, ?_⟩
    rw [vertexFor_eq node]
    exact vertexBy_congr fun c hc => vertexOf_eq sound order (sound.child x m node c hc)
  refine ⟨g, fun k => order.getD k 0, order, found, ?_, ?_, ?_, rfl, rfl, ?_, ?_⟩
  · intro k bound
    obtain ⟨v, hv⟩ := Graph.exists_vertex bound
    obtain ⟨m, -, member, -⟩ := vertex k v hv
    exact member
  · rw [Graph.ofTree, sound.index i n here, found]
    rfl
  · intro k v hv
    obtain ⟨m, node, member, rfl⟩ := vertex k v hv
    rw [vertex?_graph node, rename_vertexBy]
    refine congrArg some (vertexBy_congr fun c hc => ?_)
    have listed := search.closed member node hc
    show t.lead c = order.getD (order.idxOf (t.lead c)) 0
    rw [List.getD_eq_getElem?_getD, List.getElem?_eq_getElem (List.idxOf_lt_length_iff.mpr listed),
      Option.getD_some, List.getElem_idxOf]
  · rw [size]
    exact Nat.succ_pos _
  · intro k v hv c hc
    obtain ⟨m, node, member, rfl⟩ := vertex k v hv
    obtain ⟨d, hd, rfl⟩ := parts_vertexBy hc
    rw [size]
    exact List.idxOf_lt_length_iff.mpr (search.closed member node hd)

/-- Every node has a graph of its own, which lies in the graph of the tree. -/
theorem ofTree_spec (ordered : t.Ordered) {i : Nat} {n : Node} (here : t.node? i = some n) :
    ∃ g name, Graph.ofTree t n = .ok g ∧ g.Within t.graph name ∧ g.root = 0 ∧ name 0 = t.lead i ∧
      0 < g.vertices.size ∧ ∀ k, ∀ v ∈ g.vertex? k, ∀ c ∈ v.parts, c < g.vertices.size := by
  obtain ⟨g, name, -, -, -, spec⟩ := ofTree_found ordered.sound here
  exact ⟨g, name, spec⟩

/-! ## Plain trees -/

/-- A tree of maps, sequences and scalars, without value keys and without keys that are no number,
where no alias stands for a node around it. -/
structure Plain (t : Tree) : Prop where
  scalar : ∀ n ∈ t.nodes, n.kind = .scalar → n.tag? ≠ some .value
  sequence : ∀ n ∈ t.nodes, n.kind = .sequence → n.tag? = some .seq
  mapping : ∀ n ∈ t.nodes, n.kind = .mapping → n.tag? = some .map
  apart : ∀ a ∈ t.nodes, a.isAlias = true → ∀ m ∈ t.target? a, ¬ t.Inside m a
  keys : ∀ n ∈ t.nodes, ∀ p ∈ n.pairs, ∀ k ∈ t.node? p.1, ∀ v, t.construct k = .ok v →
    v.isNan = false

theorem mem_of_node? {i : Nat} {n : Node} (here : t.node? i = some n) : n ∈ t.nodes :=
  Array.mem_of_getElem? here

theorem Plain.of_sequence (plain : t.Plain) {i : Nat} {n : Node} (here : t.node? i = some n)
    {tag : Tag} {frame : Frame} {items : List Nat} (body : n.body = .sequence tag frame items) :
    tag = .seq := by
  have usual := plain.sequence n (mem_of_node? here) (by rw [Node.kind, body])
  rw [Node.tag?, body] at usual
  exact Option.some.inj usual

theorem Plain.of_mapping (plain : t.Plain) {i : Nat} {n : Node} (here : t.node? i = some n)
    {tag : Tag} {frame : Frame} {pairs : List (Nat × Nat)} (body : n.body = .mapping tag frame pairs) :
    tag = .map := by
  have usual := plain.mapping n (mem_of_node? here) (by rw [Node.kind, body])
  rw [Node.tag?, body] at usual
  exact Option.some.inj usual

/-- What a node of the graph of a tree is in the tree. -/
theorem node_of_graph {k : Nat} {v : Vertex} (here : t.graph.vertex? k = some v) :
    ∃ n, t.node? k = some n ∧ v = vertexBy t.lead n.body := by
  have here : (t.nodes.map fun n => vertexBy t.lead n.body)[k]? = some v := here
  rw [Array.getElem?_map] at here
  obtain ⟨n, found, rfl⟩ := Option.map_eq_some_iff.mp here
  exact ⟨n, found, rfl⟩

theorem lead_of_not_alias (sound : Sound t.nodes) {i : Nat} {n : Node} (here : t.node? i = some n)
    (alone : n.isAlias = false) : t.lead i = i := by
  rw [lead, here, Option.bind_some, target?_of_not_alias alone]
  exact sound.index i n here

/-- An alias leads back. -/
theorem lead_lt_of_alias (sound : Sound t.nodes) {i : Nat} {n : Node} (here : t.node? i = some n)
    (alias_ : n.isAlias = true) : t.lead i < i := by
  cases link : n.link? with
  | none =>
    rw [Node.link?_eq_none.mp link] at alias_
    cases alias_
  | some target =>
    obtain ⟨aim, rfl, before, mine⟩ := sound.link i n here target link
    obtain ⟨m, there, -⟩ := isOwn_iff.mp mine
    rw [lead, here, Option.bind_some, (target?_of_link link).1, show t.node? aim = some m from there]
    exact (sound.index aim m there).trans_lt before

/-- What lies inside of a node stands right behind it, up to some place. -/
theorem Ordered.exists_extent (ordered : t.Ordered) (i : Nat) :
    ∃ stop, ∀ n ∈ t.node? i, stop ≤ t.nodes.size ∧ i < stop ∧ (∀ c ∈ n.children, i < c) ∧
      ∀ j, ∀ m ∈ t.node? j, t.Inside n m ↔ i ≤ j ∧ j < stop := by
  cases here : t.node? i with
  | none => exact ⟨0, by rintro _ ⟨⟩⟩
  | some n =>
    obtain ⟨stop, bound, row⟩ := ordered.row.at_ (Nat.zero_le i)
      (Array.getElem?_eq_some_iff.mp here).1
    obtain ⟨n', same, below⟩ := row.children
    cases here.symm.trans same
    refine ⟨stop, ?_⟩
    rintro _ ⟨⟩
    exact ⟨bound, below.le, fun c hc => (below.inside c hc).1,
      fun j m there => row.inside_iff here ordered.sound.index there⟩

/-- The nodes can be ranked so that what a child leads to is lower than the node, if the child is no
alias for a node around it: those that end first are lower, and of those that end together the inner
ones. -/
theorem exists_ranks (ordered : t.Ordered) :
    ∃ rank : Nat → Nat, ∀ i, ∀ n ∈ t.node? i, ∀ d ∈ n.children, ∀ x ∈ t.node? d,
      (x.isAlias = true → ∀ m ∈ t.target? x, ¬ t.Inside m x) → rank (t.lead d) < rank i := by
  have sound := ordered.sound
  have extent := ordered.exists_extent
  choose stop extent using extent
  refine ⟨fun i => stop i * (t.nodes.size + 1) + (t.nodes.size - i), ?_⟩
  intro i n here d hd x found apart
  dsimp only
  obtain ⟨-, -, later, mine⟩ := extent i n here
  have later := later d hd
  have child : t.Inside n x := .child .self hd found
  have range := (mine d x found).mp child
  cases alias_ : x.isAlias with
  | false =>
    -- the child ends where the node ends, or before
    rw [lead_of_not_alias sound found alias_]
    obtain ⟨last, first, -, inner⟩ := extent d x found
    obtain ⟨y, there⟩ : ∃ y, t.node? (stop d - 1) = some y :=
      ⟨_, Array.getElem?_eq_getElem (show stop d - 1 < t.nodes.size by omega)⟩
    have ends := (mine _ y there).mp (child.trans ((inner _ y there).mpr (by omega)))
    have scaled : stop d * (t.nodes.size + 1) ≤ stop i * (t.nodes.size + 1) :=
      Nat.mul_le_mul_right _ (by omega)
    omega
  | true =>
    -- what the alias stands for ends before the alias
    obtain ⟨m, target, -, node, -⟩ := exists_lead sound (sound.child i n here d hd)
    rw [show t.node? d = some x from found, Option.bind_some] at target
    have before := lead_lt_of_alias sound found alias_
    obtain ⟨-, -, -, inner⟩ := extent (t.lead d) m node
    have away := apart alias_ m target
    rw [inner d x found] at away
    have scaled : (stop (t.lead d) + 1) * (t.nodes.size + 1) ≤ stop i * (t.nodes.size + 1) :=
      Nat.mul_le_mul_right _ (by omega)
    rw [Nat.succ_mul] at scaled
    omega

/-- What a part of a node of the graph is in the tree. -/
theorem part_of_graph (sound : Sound t.nodes) {i : Nat} {v : Vertex} (hv : t.graph.vertex? i = some v)
    {c : Nat} (hc : c ∈ v.parts) :
    ∃ n d x, t.node? i = some n ∧ d ∈ n.children ∧ t.node? d = some x ∧ c = t.lead d ∧
      c < t.graph.vertices.size := by
  obtain ⟨n, here, rfl⟩ := node_of_graph hv
  obtain ⟨d, hd, rfl⟩ := parts_vertexBy hc
  have inside := sound.child i n here d hd
  refine ⟨n, d, _, here, hd, Array.getElem?_eq_getElem inside, rfl, ?_⟩
  simpa [graph] using lead_lt sound inside

/-- Where no alias stands for a node around it the graph goes down. -/
theorem exists_descends (ordered : t.Ordered)
    (apart : ∀ a ∈ t.nodes, a.isAlias = true → ∀ m ∈ t.target? a, ¬ t.Inside m a) :
    ∃ rank, t.graph.Descends rank := by
  obtain ⟨rank, lower⟩ := exists_ranks ordered
  refine ⟨rank, ?_, ?_⟩
  · intro i v hv c hc
    obtain ⟨-, -, -, -, -, -, -, bound⟩ := part_of_graph ordered.sound hv hc
    exact bound
  · intro i v hv c hc
    obtain ⟨n, d, x, here, hd, found, rfl, -⟩ := part_of_graph ordered.sound hv hc
    exact lower i n here d hd x found (apart x (mem_of_node? found))

/-! ## Constructing -/

/-- A graph of one scalar that can be read has its value. -/
theorem load_scalar (text : Text) {tag : Tag} {s : Text} {v : Value} (usual : tag ≠ .value)
    (reads : Graph.scalarValue? tag s = some v) :
    ∃ d, (Graph.mk text #[⟨tag, none, .scalar s⟩] 0).load = .ok d ∧ d.value.bare = v.bare := by
  let g : Graph := { text, vertices := #[⟨tag, none, .scalar s⟩] }
  have only : ∀ k u, g.vertex? k = some u → u = ⟨tag, none, .scalar s⟩ := by
    intro k u hu
    have bound : k < 1 := (Array.getElem?_eq_some_iff.mp hu).1
    obtain rfl : k = 0 := by omega
    exact (Option.some.inj hu).symm
  have partless : ∀ k u, g.vertex? k = some u → ∀ c, c ∉ u.parts := by
    intro k u hu c
    rw [only k u hu]
    exact List.not_mem_nil
  have down : g.Descends id :=
    ⟨fun k u hu c hc => absurd hc (partless k u hu c), fun k u hu c hc => absurd hc (partless k u hu c)⟩
  have plain : g.Plain := by
    refine ⟨?_, ?_, ?_⟩
    · intro k value
      obtain ⟨u, hu, same⟩ := Option.map_eq_some_iff.mp value
      cases only k u hu
      exact usual same
    · intro k tag' start items hu
      cases only k _ hu
    · intro k tag' start pairs hu
      cases only k _ hu
  have means : g.Means 0 v.bare := .scalar rfl reads
  have ran := Construct.run_spec down plain (show (0 : Nat) < 1 from Nat.zero_lt_one)
  rw [Graph.load, if_neg (show ¬ g.vertices.isEmpty = true from Bool.false_ne_true)]
  cases loaded : Construct.run g with
  | error e =>
    rw [loaded] at ran
    exact absurd ⟨_, means⟩ ran
  | ok d =>
    rw [loaded] at ran
    exact ⟨d, rfl, ran.unique down means⟩

/-- A node that leads to a scalar has a graph of one scalar. -/
theorem ofTree_scalar (sound : Sound t.nodes) {i : Nat} {n m : Node} (here : t.node? i = some n)
    (led : t.node? (t.lead i) = some m) {tag : Tag} {s : Text} {quoting : Quoting}
    (body : m.body = .scalar tag s quoting) :
    Graph.ofTree t n = .ok (Graph.mk t.text #[⟨tag, none, .scalar s⟩] 0) := by
  obtain ⟨_, node, -, search⟩ := reachable_cons sound (t.childCount + 1)
    (Array.getElem?_eq_some_iff.mp here).1 [] []
  cases led.symm.trans node
  have childless : m.children = [] := by
    rw [Node.children, body]
  rw [if_neg List.not_mem_nil, childless, List.nil_append, reachable_nil] at search
  rw [Graph.ofTree, sound.index i n here, search]
  show Except.ok _ = _
  rw [List.nil_append, List.map_singleton, vertexFor_eq led, body]
  rfl

/-- A scalar that can be read is constructed. -/
theorem construct_scalar (sound : Sound t.nodes) {i : Nat} {n m : Node} (here : t.node? i = some n)
    (led : t.node? (t.lead i) = some m) {tag : Tag} {text : Text} {quoting : Quoting}
    (body : m.body = .scalar tag text quoting) (usual : tag ≠ .value) {v : Value}
    (reads : Graph.scalarValue? tag text = some v) :
    ∃ x, t.construct n = .ok x ∧ x.bare = v.bare := by
  obtain ⟨d, loaded, same⟩ := load_scalar t.text usual reads
  rw [construct, ofTree_scalar sound here led body]
  dsimp only
  rw [loaded]
  exact ⟨d.value, rfl, same⟩

/-! ## Usual trees -/

/-- Whether a pair of a mapping is its own, and does not merge others in. -/
def isOwnPair (t : Tree) (p : Nat × Nat) : Bool :=
  (t.node? p.1).bind Node.tag? != some .merge

/-- A tree without value keys and without keys that are no number, whose lists of pairs are given
without merge keys, and where no alias stands for a node around it. -/
structure Usual (t : Tree) : Prop where
  valueless : ∀ n ∈ t.nodes, n.isAlias = false → n.tag? ≠ some .value
  singles : ∀ n ∈ t.nodes, n.kind = .sequence → n.tag?.any Tag.isPaired = true → ∀ c ∈ n.children,
    ∀ m ∈ (t.node? c).bind t.target?, ∀ p ∈ m.pairs, t.isOwnPair p = true
  apart : ∀ a ∈ t.nodes, a.isAlias = true → ∀ m ∈ t.target? a, ¬ t.Inside m a
  keys : ∀ n ∈ t.nodes, ∀ p ∈ n.pairs, ∀ k ∈ t.node? p.1, ∀ v, t.construct k = .ok v →
    v.isNan = false

/-- A plain tree is usual: none of its sequences is a list of pairs. -/
theorem Plain.usual (plain : t.Plain) : t.Usual := by
  refine ⟨?_, ?_, plain.apart, plain.keys⟩
  · intro n hn own
    cases kind : n.kind with
    | scalar => exact plain.scalar n hn kind
    | sequence => simp [plain.sequence n hn kind]
    | mapping => simp [plain.mapping n hn kind]
    | aliasNode =>
      rw [Node.isAlias, kind] at own
      cases own
  · intro n hn kind paired
    rw [plain.sequence n hn kind] at paired
    cases paired

theorem tag_vertexBy (f : Nat → Nat) {n : Node} (alone : n.isAlias = false) :
    some (vertexBy f n.body).tag = n.tag? := by
  obtain ⟨index, parent, anchor, start, stop, content, body⟩ := n
  cases body with
  | aliasOf name target => cases alone
  | _ => rfl

/-- Nodes have the tags of what they lead to. -/
def Tagged (t : Tree) : Prop :=
  ∀ i, ∀ n ∈ t.node? i, t.graph.tag? (t.lead i) = n.tag?

theorem tagged_of_compose {s : Text} {lenient : Bool} (composed : compose s lenient = .ok t)
    (ordered : t.Ordered) : t.Tagged := by
  intro i n here
  obtain ⟨m, target, -, led, own⟩ := exists_lead ordered.sound
    (Array.getElem?_eq_some_iff.mp here).1
  rw [here, Option.bind_some] at target
  have tag : t.graph.tag? (t.lead i) = m.tag? := by
    rw [Graph.tag?, vertex?_graph led]
    exact tag_vertexBy t.lead own
  rw [tag]
  cases alias_ : n.isAlias with
  | false =>
    rw [target?_of_not_alias alias_, Option.some.injEq] at target
    rw [target]
  | true =>
    cases body : n.body with
    | aliasOf name aim =>
      rw [target?, body] at target
      obtain ⟨⟨j, tag⟩, rfl⟩ : ∃ a, aim = some a := by
        cases aim with
        | none => cases target
        | some a => exact ⟨a, rfl⟩
      obtain ⟨m', there, -, same⟩ := (aims_of_compose composed here body).tag j tag rfl
      have there : t.node? j = some m' := there
      cases target.symm.trans there
      rw [same, Node.tag?, body]
      rfl
    | _ =>
      rw [Node.isAlias, Node.kind, body] at alias_
      cases alias_

theorem merges_lead (tagged : t.Tagged) {p : Nat × Nat} {k : Node} (here : t.node? p.1 = some k) :
    t.graph.merges (Prod.map t.lead t.lead p) = !t.isOwnPair p := by
  rw [Graph.merges, Prod.map_fst, tagged p.1 k here, isOwnPair, here, Option.bind_some, bne, Bool.not_not]

theorem pairs_graph {i : Nat} {n : Node} (here : t.node? i = some n) :
    t.graph.pairs i = n.pairs.map (Prod.map t.lead t.lead) := by
  rw [Graph.pairs, vertex?_graph here, Node.pairs]
  cases n.body <;> rfl

/-- A scalar that a key leads to is the key's value. -/
theorem isNan_of_leads (sound : Sound t.nodes) {i : Nat} {k : Node} (found : t.node? i = some k)
    {tag : Tag} {start : Option Mark} {text : Text} {v : Value}
    (key : t.graph.vertex? (t.lead i) = some ⟨tag, start, .scalar text⟩) (usual : tag ≠ .value)
    (reads : Graph.scalarValue? tag text = some v)
    (number : ∀ x, t.construct k = .ok x → x.isNan = false) : v.isNan = false := by
  obtain ⟨m, -, -, led, own⟩ := exists_lead sound (Array.getElem?_eq_some_iff.mp found).1
  rw [vertex?_graph led] at key
  cases form : m.body with
  | scalar tag text quoting =>
    rw [form] at key
    cases key
    obtain ⟨x, made, same⟩ := construct_scalar sound found led form usual reads
    rw [← Value.isNan_bare, ← same, Value.isNan_bare]
    exact number x made
  | aliasOf name target =>
    rw [Node.isAlias, Node.kind, form] at own
    cases own
  | sequence tag frame items =>
    rw [form] at key
    cases key
  | mapping tag frame pairs =>
    rw [form] at key
    cases key

/-- The graph of a usual tree is plain. -/
theorem Usual.plain_graph (usual : t.Usual) (sound : Sound t.nodes) (tagged : t.Tagged) :
    t.graph.Plain := by
  have valueless : ∀ i, t.graph.tag? i ≠ some .value := by
    intro i value
    obtain ⟨v, here, same⟩ := Option.map_eq_some_iff.mp value
    obtain ⟨n, node, rfl⟩ := node_of_graph here
    cases own : n.isAlias with
    | false =>
      rw [← Option.some.injEq, tag_vertexBy t.lead own] at same
      exact usual.valueless n (mem_of_node? node) own same
    | true =>
      cases body : n.body <;> rw [Node.isAlias, Node.kind, body] at own <;> cases own
      rw [body] at same
      cases same
  refine ⟨valueless, ?_, ?_⟩
  · intro i tag start items here paired c hc q hq
    obtain ⟨n, node, same⟩ := node_of_graph here
    cases body : n.body <;> rw [body] at same <;> cases same
    obtain ⟨d, hd, rfl⟩ := List.mem_map.mp hc
    have child : d ∈ n.children := by
      rw [Node.children, body]
      exact hd
    obtain ⟨m, target, -, led, -⟩ := exists_lead sound (sound.child i n node d child)
    rw [pairs_graph led] at hq
    obtain ⟨p, hp, rfl⟩ := List.mem_map.mp hq
    obtain ⟨k, found⟩ : ∃ k, t.node? p.1 = some k :=
      ⟨_, Array.getElem?_eq_getElem
        (sound.child _ m led _ (Node.mem_children_of_mem_pairs hp).1)⟩
    have own := usual.singles n (mem_of_node? node) (by rw [Node.kind, body])
      (by rw [Node.tag?, body]; exact paired) d child m target p hp
    rw [merges_lead tagged found, own]
    rfl
  · intro i tag start pairs here q hq tag' start' text v key reads
    obtain ⟨n, node, same⟩ := node_of_graph here
    cases body : n.body <;> rw [body] at same <;> cases same
    obtain ⟨p, hp, rfl⟩ := List.mem_map.mp hq
    have listed : p ∈ n.pairs := by
      rw [Node.pairs, body]
      exact hp
    obtain ⟨k, found⟩ : ∃ k, t.node? p.1 = some k :=
      ⟨_, Array.getElem?_eq_getElem
        (sound.child i n node _ (Node.mem_children_of_mem_pairs listed).1)⟩
    refine isNan_of_leads sound found key ?_ reads (usual.keys n (mem_of_node? node) p listed k found)
    rintro rfl
    exact valueless (t.lead p.1) (congrArg (Option.map Vertex.tag) key)

/-- A node is constructed exactly if it means something in a graph that its own lies in, and that is
what is constructed. -/
theorem construct_within {G g : Graph} {name rank : Nat → Nat} (plain : G.Plain)
    (down : G.Descends rank) {n : Node} (made : Graph.ofTree t n = .ok g) (within : g.Within G name)
    (root : g.root = 0) (nonempty : 0 < g.vertices.size)
    (closed : ∀ k, ∀ v ∈ g.vertex? k, ∀ c ∈ v.parts, c < g.vertices.size) :
    OkWhen (∃ v, G.Means (name 0) v) (fun x => G.Means (name 0) x.bare) (t.construct n) := by
  have below := within.descends down closed
  have ran := Construct.run_spec below (within.plain plain) (root ▸ nonempty)
  rw [root] at ran
  rw [construct, made]
  dsimp only
  rw [Graph.load, if_neg (by simpa using Nat.ne_of_gt nonempty)]
  cases loaded : Construct.run g with
  | error e =>
    rw [loaded] at ran
    rintro ⟨v, means⟩
    exact ran ⟨v, within.means_of_renamed below nonempty means⟩
  | ok d =>
    rw [loaded] at ran
    exact within.means below ran

/-- A node is constructed exactly if it means something, and that is what is constructed. -/
theorem construct_spec (ordered : t.Ordered) (plain : t.graph.Plain) {rank : Nat → Nat}
    (down : t.graph.Descends rank) {i : Nat} {n : Node} (here : t.node? i = some n) :
    OkWhen (∃ v, t.graph.Means (t.lead i) v) (fun x => t.graph.Means (t.lead i) x.bare)
      (t.construct n) := by
  obtain ⟨g, name, made, within, root, first, nonempty, closed⟩ := ofTree_spec ordered here
  rw [← first]
  exact construct_within plain down made within root nonempty closed

/-- What means something is constructed. -/
theorem construct_of_means (ordered : t.Ordered) (plain : t.graph.Plain) {rank : Nat → Nat}
    (down : t.graph.Descends rank) {i : Nat} {n : Node} (here : t.node? i = some n) {v : Value}
    (means : t.graph.Means (t.lead i) v) : ∃ x, t.construct n = .ok x ∧ x.bare = v := by
  have spec := construct_spec ordered plain down here
  cases made : t.construct n with
  | error e =>
    rw [made] at spec
    exact absurd ⟨v, means⟩ spec
  | ok x =>
    rw [made] at spec
    exact ⟨x, rfl, Graph.Means.unique down spec means⟩

end Tree

end YamlEdit
