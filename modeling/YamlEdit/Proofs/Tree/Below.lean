import YamlEdit.Proofs.Load.Part
import YamlEdit.Proofs.Tree.Compositional

/-!
# What a node leads to

Constructing a node takes from the tree what the node leads to: what is inside of it, what aliases there
stand for, and so on. That is a part of the graph of the tree, and if it is usual (`UsualFrom`), the node
is constructed to what it means in the part, however unusual the rest of the tree is.
-/

namespace YamlEdit

namespace Graph

variable {g h : Graph} {part : Nat → Bool}

/-- Nothing leads out of a closed part where the rest leads nowhere. -/
theorem Closed.parts_mask (closed : g.Closed part) {i : Nat} {v : Vertex}
    (here : (g.mask part).vertex? i = some v) {c : Nat} (hc : c ∈ v.parts) :
    part i = true ∧ g.vertex? i = some v ∧ part c = true := by
  obtain ⟨mine, there⟩ := of_vertex?_mask here (by rintro rfl; cases hc)
  exact ⟨mine, there, closed i mine v there c hc⟩

/-- A graph that lies in a part of another. -/
theorem Within.of_names {name : Nat → Nat} (w : g.Within h name)
    (names : ∀ k < g.vertices.size, part (name k) = true) : g.Within (h.mask part) name := by
  intro k v here
  rw [vertex?_mask_of (names k (lt_of_vertex? here))]
  exact w k v here

end Graph

namespace Tree

/-- A node that another leads to: itself or the node that it stands for, and what the nodes inside of
one lead to. -/
inductive LeadsTo (t : Tree) (n : Node) : Node → Prop
  | self {m : Node} (target : t.target? n = some m) : LeadsTo t n m
  | child {m x : Node} {c : Nat} (led : LeadsTo t n m) (listed : c ∈ m.children)
    (target : (t.node? c).bind t.target? = some x) : LeadsTo t n x

/-- What a node leads to has no value keys and no keys that are no number, its lists of pairs are given
without merge keys and hold no NaN, and no alias stands for a node around it. -/
structure UsualFrom (t : Tree) (n : Node) : Prop where
  valueless : ∀ m, t.LeadsTo n m → m.tag? ≠ some .value
  singles : ∀ m, t.LeadsTo n m → m.kind = .sequence → m.tag?.any Tag.isPaired = true →
    ∀ c ∈ m.children, ∀ x ∈ (t.node? c).bind t.target?, ∀ p ∈ x.pairs, t.isOwnPair p = true
  apart : ∀ m, t.LeadsTo n m → ∀ a, t.Inside m a → a.isAlias = true → t.target? a ≠ some m
  keys : ∀ m, t.LeadsTo n m → ∀ p ∈ m.pairs, ∀ k ∈ t.node? p.1, ∀ v, t.construct k = .ok v →
    v.isNan = false
  numbers : ∀ m, t.LeadsTo n m → m.kind = .sequence → m.tag?.any Tag.isPaired = true →
    ∀ v, t.construct m = .ok v → v.hasNan = false

open Classical in
/-- Whether a node leads to the one at a place. -/
noncomputable def below (t : Tree) (n : Node) (i : Nat) : Bool :=
  decide (∃ m, t.node? i = some m ∧ t.LeadsTo n m)

variable {t : Tree} {n : Node}

open Classical in
theorem below_iff {i : Nat} : t.below n i = true ↔ ∃ m, t.node? i = some m ∧ t.LeadsTo n m :=
  decide_eq_true_iff

section

variable (sound : Sound t.nodes)
include sound

theorem below_lead {i : Nat} (here : t.node? i = some n) : t.below n (t.lead i) = true := by
  obtain ⟨m, target, -, node, -⟩ := exists_lead sound (Array.getElem?_eq_some_iff.mp here).1
  rw [here, Option.bind_some] at target
  exact below_iff.mpr ⟨m, node, .self target⟩

/-- What a node inside leads to is below. -/
theorem below_child {i : Nat} (mine : t.below n i = true) {m : Node} (here : t.node? i = some m)
    {c : Nat} (hc : c ∈ m.children) : t.below n (t.lead c) = true := by
  obtain ⟨m', here', led⟩ := below_iff.mp mine
  cases here.symm.trans here'
  obtain ⟨x, target, -, node, -⟩ := exists_lead sound (sound.child i m here c hc)
  exact below_iff.mpr ⟨x, node, led.child hc target⟩

theorem closed_below : t.graph.Closed (t.below n) := by
  intro i mine v here c hc
  obtain ⟨m, d, x, node, hd, -, rfl, -⟩ := part_of_graph sound here hc
  exact below_child sound mine node hd

/-- A search among nodes that are below finds only such nodes. -/
theorem below_of_reachable (steps : Nat) {pending order all : List Nat}
    (inside : ∀ p ∈ pending, p < t.nodes.size ∧ t.below n (t.lead p) = true)
    (found : ∀ x ∈ order, t.below n x = true)
    (search : Graph.reachable t steps pending order = .ok all) : ∀ x ∈ all, t.below n x = true := by
  induction steps generalizing pending order with
  | zero =>
    cases search
    exact found
  | succ steps ih =>
    cases pending with
    | nil =>
      cases search
      exact found
    | cons i pending =>
      obtain ⟨⟨bound, mine⟩, rest⟩ := List.forall_mem_cons.mp inside
      obtain ⟨m, node, -, step⟩ := reachable_cons sound steps bound pending order
      rw [step] at search
      split at search
      · exact ih rest found search
      · refine ih (List.forall_mem_append.mpr ⟨fun c hc => ⟨?_, ?_⟩, rest⟩) ?_ search
        · exact sound.child _ m node c hc
        · exact below_child sound mine node hc
        · exact List.forall_mem_append.mpr ⟨found, List.forall_mem_singleton.mpr mine⟩

end

/-- The graph of a node below lies in the part. -/
theorem ofTree_below (ordered : t.Ordered) {i : Nat} {m : Node} (here : t.node? i = some m)
    (mine : t.below n (t.lead i) = true) :
    ∃ g name, Graph.ofTree t m = .ok g ∧ g.Within (t.graph.mask (t.below n)) name ∧ g.root = 0 ∧
      name 0 = t.lead i ∧ 0 < g.vertices.size ∧
        ∀ k, ∀ v ∈ g.vertex? k, ∀ c ∈ v.parts, c < g.vertices.size := by
  obtain ⟨g, name, order, search, names, made, within, spec⟩ := ofTree_found ordered.sound here
  have found := below_of_reachable ordered.sound _
    (List.forall_mem_singleton.mpr ⟨(Array.getElem?_eq_some_iff.mp here).1, mine⟩)
    (List.forall_mem_nil _) search
  exact ⟨g, name, made, within.of_names fun k bound => found _ (names k bound), spec⟩

namespace UsualFrom

variable (usual : t.UsualFrom n)
include usual

omit usual in
/-- A node of the part that more is known of than that it leads nowhere. -/
theorem node_of_mask {i : Nat} {v : Vertex} (here : (t.graph.mask (t.below n)).vertex? i = some v)
    (shown : v ≠ .hidden) : ∃ m, t.node? i = some m ∧ t.LeadsTo n m ∧ v = vertexBy t.lead m.body := by
  obtain ⟨mine, there⟩ := Graph.of_vertex?_mask here shown
  obtain ⟨m, node, led⟩ := below_iff.mp mine
  rw [vertex?_graph node] at there
  exact ⟨m, node, led, (Option.some.inj there).symm⟩

/-- The part that a node leads to is plain. -/
theorem plain (sound : Sound t.nodes) (tagged : t.Tagged) :
    (t.graph.mask (t.below n)).Plain := by
  have valueless : ∀ i, (t.graph.mask (t.below n)).tag? i ≠ some .value := by
    intro i value
    obtain ⟨v, here, same⟩ := Option.map_eq_some_iff.mp value
    obtain ⟨m, -, led, rfl⟩ := node_of_mask here (by rintro rfl; cases same)
    cases own : m.isAlias with
    | false =>
      rw [← Option.some.injEq, tag_vertexBy t.lead own] at same
      exact usual.valueless m led same
    | true =>
      cases body : m.body <;> rw [Node.isAlias, Node.kind, body] at own <;> cases own
      rw [body] at same
      cases same
  have inner {i : Nat} {m : Node} (node : t.node? i = some m) (led : t.LeadsTo n m) {c : Nat}
      (hc : c ∈ m.children) : t.below n (t.lead c) = true :=
    below_child sound (below_iff.mpr ⟨m, node, led⟩) node hc
  refine ⟨valueless, ?_, ?_⟩
  · intro i tag start items here paired c hc q hq
    obtain ⟨m, node, led, same⟩ := node_of_mask here (by rintro ⟨⟩)
    cases body : m.body <;> rw [body] at same <;> cases same
    obtain ⟨d, hd, rfl⟩ := List.mem_map.mp hc
    have child : d ∈ m.children := by
      rw [Node.children, body]
      exact hd
    obtain ⟨x, target, -, there, -⟩ := exists_lead sound (sound.child i m node d child)
    have mine := inner node led child
    rw [Graph.pairs_mask_of mine, pairs_graph there] at hq
    obtain ⟨p, hp, rfl⟩ := List.mem_map.mp hq
    have key := (Node.mem_children_of_mem_pairs hp).1
    obtain ⟨k, found⟩ : ∃ k, t.node? p.1 = some k :=
      ⟨_, Array.getElem?_eq_getElem (sound.child _ x there _ key)⟩
    have own := usual.singles m led (by rw [Node.kind, body])
      (by rw [Node.tag?, body]; exact paired) d child x target p hp
    rw [Graph.merges_mask_of (below_child sound mine there key), merges_lead tagged found, own]
    rfl
  · intro i tag start pairs here q hq tag' start' text v key reads
    obtain ⟨m, node, led, same⟩ := node_of_mask here (by rintro ⟨⟩)
    cases body : m.body <;> rw [body] at same <;> cases same
    obtain ⟨p, hp, rfl⟩ := List.mem_map.mp hq
    have listed : p ∈ m.pairs := by
      rw [Node.pairs, body]
      exact hp
    have child := (Node.mem_children_of_mem_pairs listed).1
    obtain ⟨k, found⟩ : ∃ k, t.node? p.1 = some k :=
      ⟨_, Array.getElem?_eq_getElem (sound.child i m node _ child)⟩
    dsimp only at key
    have there := key
    rw [Graph.vertex?_mask_of (inner node led child)] at there
    refine isNan_of_leads sound found there ?_ reads (usual.keys m led p listed k found)
    rintro rfl
    exact valueless _ (congrArg (Option.map Vertex.tag) key)

/-- The part that a node leads to is a graph of its own, and goes down. -/
theorem exists_apart (ordered : t.Ordered) (tagged : t.Tagged) :
    ∃ rank, Construct.Apart (t.graph.mask (t.below n)) (t.below n) rank := by
  have sound := ordered.sound
  have closed : t.graph.Closed (t.below n) := closed_below sound
  obtain ⟨rank, lower⟩ := exists_ranks ordered
  refine ⟨rank, usual.plain sound tagged, ⟨?_, ?_⟩, ?_⟩
  · intro i v hv c hc
    obtain ⟨-, there, -⟩ := closed.parts_mask hv hc
    obtain ⟨-, -, -, -, -, -, -, bound⟩ := part_of_graph sound there hc
    rwa [Graph.size_mask]
  · intro i v hv c hc
    obtain ⟨mine, there, -⟩ := closed.parts_mask hv hc
    obtain ⟨m, d, x, node, hd, found, rfl, -⟩ := part_of_graph sound there hc
    refine lower i m node d hd x found fun alias_ y target inside => ?_
    have led : t.LeadsTo n y := by
      obtain ⟨m', node', led⟩ := below_iff.mp mine
      cases node.symm.trans node'
      refine led.child hd ?_
      rw [found, Option.bind_some]
      exact target
    exact usual.apart y led x inside alias_ target
  · intro i v hv c hc
    exact (closed.parts_mask hv hc).2.2

/-- A node of the part is constructed exactly if it means something there, and that is what is
constructed. -/
theorem construct_spec (ordered : t.Ordered) (tagged : t.Tagged) {i : Nat} {m : Node}
    (here : t.node? i = some m) (mine : t.below n (t.lead i) = true) :
    OkWhen (∃ v, (t.graph.mask (t.below n)).Means (t.lead i) v)
      (fun x => (t.graph.mask (t.below n)).Means (t.lead i) x.bare) (t.construct m) := by
  obtain ⟨rank, apart⟩ := usual.exists_apart ordered tagged
  obtain ⟨g, name, made, within, root, first, nonempty, closed⟩ := ofTree_below ordered here mine
  rw [← first]
  exact construct_within apart.plain apart.down made within root nonempty closed

theorem construct_of_means (ordered : t.Ordered) (tagged : t.Tagged) {i : Nat} {m : Node}
    (here : t.node? i = some m) (mine : t.below n (t.lead i) = true) {v : Value}
    (means : (t.graph.mask (t.below n)).Means (t.lead i) v) :
    ∃ x, t.construct m = .ok x ∧ x.bare = v := by
  obtain ⟨rank, apart⟩ := usual.exists_apart ordered tagged
  have spec := usual.construct_spec ordered tagged here mine
  cases made : t.construct m with
  | error e =>
    rw [made] at spec
    exact absurd ⟨v, means⟩ spec
  | ok x =>
    rw [made] at spec
    exact ⟨x, rfl, Graph.Means.unique apart.down spec means⟩

/-- What a node of the part means equals itself. -/
theorem selfsame (ordered : t.Ordered) (tagged : t.Tagged) {i : Nat} {v : Value}
    (means : (t.graph.mask (t.below n)).Means i v) : v.Selfsame false := by
  obtain ⟨rank, apart⟩ := usual.exists_apart ordered tagged
  refine means.selfsame apart.down ?_
  intro i tag start items here paired v means
  obtain ⟨m, node, led, same⟩ := node_of_mask here (by rintro ⟨⟩)
  cases body : m.body <;> rw [body] at same <;> cases same
  have own : m.isAlias = false := by
    rw [Node.isAlias, Node.kind, body]
    rfl
  have place := lead_of_not_alias ordered.sound node own
  rw [← place] at means
  obtain ⟨x, made, rfl⟩ := usual.construct_of_means ordered tagged node
    (place.symm ▸ below_iff.mpr ⟨m, node, led⟩) means
  rw [Value.hasNan_bare]
  exact usual.numbers m led (by rw [Node.kind, body]) (by rw [Node.tag?, body]; exact paired) x made

end UsualFrom

end Tree

end YamlEdit
