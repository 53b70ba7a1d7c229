import YamlEdit.Proofs.Tree.Meaning

/-!
# Trees whose nodes can be constructed one by one

What a node of a usual tree is constructed to is what it means in the graph of the whole tree, wherever
the construction begins. So what a collection is constructed to can be told from its children, one
place at a time.
-/

namespace YamlEdit

namespace Tree

theorem sound_of_compose {s : Text} {t : Tree} (h : compose s = .ok t) : Sound t.nodes := by
  have agree := agree_compose s
  rw [h] at agree
  cases composed : Graph.compose s with
  | error e =>
    rw [composed] at agree
    cases agree
  | ok g =>
    rw [composed] at agree
    exact agree.sound

/-- The nodes of a text that is composed strictly are a row that leads back. -/
theorem ordered_of_compose {s : Text} {t : Tree} (h : compose s = .ok t) :
    t.nodes.size = 0 ∨ t.Ordered :=
  (row_of_compose h).imp_right fun row => ⟨sound_of_compose h, row⟩

/-- A tree all of whose nodes have a meaning in one graph, which goes down. -/
structure Readable (t : Tree) (rank : Nat → Nat) : Prop where
  ordered : t.Ordered
  plainGraph : t.graph.Plain
  down : t.graph.Descends rank
  tagged : t.Tagged

variable {t : Tree}

/-- Usual trees are readable. -/
theorem exists_readable (ordered : t.Ordered) (tagged : t.Tagged) (usual : t.Usual) :
    ∃ rank, t.Readable rank := by
  obtain ⟨rank, down⟩ := exists_descends ordered usual.apart
  exact ⟨rank, ordered, usual.plain_graph ordered.sound tagged, down, tagged⟩

/-- No own pair of a mapping behind a pair has the key of the pair. -/
def LastOwn (t : Tree) (p : Nat × Nat) (after : List (Nat × Nat)) : Prop :=
  ∀ q ∈ after, t.isOwnPair q = true → ∀ k ∈ t.node? p.1, ∀ l ∈ t.node? q.1, ∀ v w,
    t.construct k = .ok v → t.construct l = .ok w → v.same w = false

theorem forall₂_split {α β : Type} {R : α → β → Prop} {before after : List α} {a : α} {m : List β}
    (h : List.Forall₂ R (before ++ a :: after) m) :
    ∃ first b rest, m = first ++ b :: rest ∧ R a b ∧ List.Forall₂ R after rest := by
  induction before generalizing m with
  | nil =>
    cases h with
    | cons here rest => exact ⟨[], _, _, rfl, here, rest⟩
  | cons _ before ih =>
    cases h with
    | cons here rest =>
      obtain ⟨first, b, more, rfl, found, rest⟩ := ih rest
      exact ⟨_ :: first, b, more, rfl, found, rest⟩

namespace Readable

variable {rank : Nat → Nat} (r : t.Readable rank)
include r

theorem construct {i : Nat} {n : Node} (here : t.node? i = some n) {v : Value}
    (means : t.graph.Means (t.lead i) v) : ∃ x, t.construct n = .ok x ∧ x.bare = v :=
  construct_of_means r.ordered r.plainGraph r.down here means

theorem means {i : Nat} {n : Node} (here : t.node? i = some n) {x : Value}
    (made : t.construct n = .ok x) : t.graph.Means (t.lead i) x.bare := by
  have spec := construct_spec r.ordered r.plainGraph r.down here
  rwa [made] at spec

theorem exists_child {i : Nat} {n : Node} (here : t.node? i = some n) {c : Nat} (hc : c ∈ n.children) :
    ∃ m, t.node? c = some m :=
  ⟨_, Array.getElem?_eq_getElem (r.ordered.sound.child i n here c hc)⟩

theorem exists_pair {i : Nat} {n : Node} (here : t.node? i = some n) {p : Nat × Nat}
    (hp : p ∈ n.pairs) : (∃ k, t.node? p.1 = some k) ∧ ∃ m, t.node? p.2 = some m := by
  obtain ⟨key, value⟩ := Node.mem_children_of_mem_pairs hp
  exact ⟨r.exists_child here key, r.exists_child here value⟩

theorem merges {p : Nat × Nat} {k : Node} (here : t.node? p.1 = some k) :
    t.graph.merges (Prod.map t.lead t.lead p) = !t.isOwnPair p :=
  merges_lead r.tagged here

/-- A mapping has its own pairs behind those that merge keys bring. -/
theorem flattens_own {i : Nat} {n : Node} (here : t.node? i = some n) {all : List (Nat × Nat)}
    (flat : t.graph.Flattens i all) :
    ∃ brought, all = brought ++ (n.pairs.filter t.isOwnPair).map (Prod.map t.lead t.lead) := by
  obtain ⟨tag, start, pairs, brought, vertex, -, rfl⟩ := Graph.flattens_iff.mp flat
  refine ⟨brought.flatten, congrArg (brought.flatten ++ ·) ?_⟩
  have spelled := pairs_graph here
  rw [Graph.pairs, vertex] at spelled
  dsimp only at spelled
  rw [spelled]
  refine Graph.filter_map_of_mem ?_
  intro p hp
  obtain ⟨⟨k, found⟩, -⟩ := r.exists_pair here hp
  rw [r.merges found, Bool.not_not]

/-- Two nodes that mean keys which are not one key. -/
theorem same_of_apart {i j : Nat} {n m : Node} (here : t.node? i = some n) (there : t.node? j = some m)
    (apart : ∀ v w, t.construct n = .ok v → t.construct m = .ok w → v.same w = false) {v w : Value}
    (left : t.graph.Means (t.lead i) v) (right : t.graph.Means (t.lead j) w) (hw : w.IsScalar) :
    v.same w = false := by
  obtain ⟨x, made, rfl⟩ := r.construct here left
  obtain ⟨y, made', rfl⟩ := r.construct there right
  rw [Value.same_bare, ← Value.same_comm hw, Value.same_bare,
    Value.same_comm (Value.isScalar_bare.mp hw)]
  exact apart x y made made'

/-- A mapping has the value of its own pair under the key of the pair, if no later one has that key:
own pairs come behind those that merge keys bring, and the last one wins. -/
theorem find?_last {i : Nat} {n : Node} (here : t.node? i = some n) {all : List (Nat × Nat)}
    {entries : List (Value × Value)} (flat : t.graph.Flattens i all)
    (reads : List.Forall₂ t.graph.Reads all entries)
    (scalars : ∀ e ∈ entries, e.1.IsScalar ∧ e.1.isNan = false) {p : Nat × Nat}
    {before after : List (Nat × Nat)} (pairs : n.pairs = before ++ p :: after)
    (own : t.isOwnPair p = true) (last : t.LastOwn p after) :
    ∃ k v, t.graph.Means (t.lead p.1) k ∧ t.graph.Means (t.lead p.2) v ∧ k.IsScalar ∧
      Value.find? (Value.gather entries) k = some v := by
  have hp : p ∈ n.pairs := pairs ▸ List.mem_append_right _ List.mem_cons_self
  obtain ⟨brought, rfl⟩ := r.flattens_own here flat
  rw [pairs, List.filter_append, List.filter_cons_of_pos own, List.map_append, List.map_cons,
    ← List.append_assoc] at reads
  obtain ⟨first, e, rest, rfl, ⟨key, value⟩, behind⟩ := forall₂_split reads
  obtain ⟨scalar, number⟩ := scalars e (List.mem_append_right _ List.mem_cons_self)
  refine ⟨e.1, e.2, key, value, scalar,
    Value.find?_gather (fun d hd => (scalars d hd).1) number ?_⟩
  intro d hd
  obtain ⟨_, listed, key', -⟩ := Graph.mem_of_forall₂ behind hd
  obtain ⟨q, hq, rfl⟩ := List.mem_map.mp listed
  obtain ⟨later, own'⟩ := List.mem_filter.mp hq
  have hq : q ∈ n.pairs := pairs ▸ List.mem_append_right _ (List.mem_cons_of_mem _ later)
  obtain ⟨⟨k, found⟩, -⟩ := r.exists_pair here hp
  obtain ⟨⟨l, found'⟩, -⟩ := r.exists_pair here hq
  exact r.same_of_apart found found' (last q later own' k found l found') key key'
    (scalars d (List.mem_append_right _ (List.mem_cons_of_mem _ hd))).1

end Readable

/-! ## Aliases behind what they stand for -/

/-- A node encloses nothing behind places that hold it and all that its children lead to. -/
theorem Inside.index_lt (sound : Sound t.nodes) (first stop : Nat) {n m : Node}
    (start : first ≤ n.index ∧ n.index < stop)
    (closed : ∀ x ∈ t.nodes, first ≤ x.index ∧ x.index < stop →
      ∀ c ∈ x.children, first ≤ c ∧ c < stop)
    (here : n ∈ t.nodes) (h : t.Inside n m) : first ≤ m.index ∧ m.index < stop := by
  suffices both : m ∈ t.nodes ∧ first ≤ m.index ∧ m.index < stop from both.2
  induction h with
  | self => exact ⟨here, start⟩
  | @child m c i _ listed found ih =>
    have range := closed m ih.1 ih.2 i listed
    rw [← sound.index i c found] at range
    exact ⟨mem_of_node? found, range⟩

/-- Whether a node and all inside of it stand before an alias. -/
def endsBefore (t : Tree) (m a : Node) : Bool :=
  (List.range (a.index + 1)).any fun stop =>
    m.index < stop && t.nodes.all fun x =>
      !(m.index ≤ x.index && x.index < stop) || x.children.all fun c => m.index ≤ c && c < stop

theorem not_inside_of_endsBefore (sound : Sound t.nodes) {m a : Node} (here : m ∈ t.nodes)
    (ends : t.endsBefore m a = true) : ¬ t.Inside m a := by
  intro inside
  obtain ⟨stop, bound, ends⟩ := List.any_eq_true.mp ends
  obtain ⟨first, closed⟩ := Bool.and_eq_true_iff.mp ends
  have range := inside.index_lt sound m.index stop
    ⟨Nat.le_refl _, by simpa using first⟩
    (by
      intro x hx range c hc
      have all := Array.all_eq_true_iff_forall_mem.mp closed x hx
      have all : ∀ c ∈ x.children, m.index ≤ c ∧ c < stop := by
        simpa [range.1, range.2] using all
      exact all c hc)
    here
  have before := List.mem_range.mp bound
  omega

end Tree

end YamlEdit
