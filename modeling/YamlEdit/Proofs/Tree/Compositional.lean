import YamlEdit.Proofs.Tree.Readable
import YamlEdit.Proofs.Value.Selfsame

/-!
# Constructing is compositional

A collection is constructed to a value that holds what its children are constructed to, though each
construction builds a graph of its own and replaces the merge keys in it: all of them yield the one
meaning that the nodes have in the graph of the tree, but for identities.

What a part of a text that loads is constructed to is another matter, since a text can be loaded
without constructing each of its nodes. Of a mapping that is merged into another only the pairs are
taken, and so it is for the items of a sequence of such mappings and of a list of pairs; what is inside
of a merge key is not looked at. The roles that nodes have in what is loaded (`Held`) are told from the
root down, one case for each way in which a collection uses its children.
-/

namespace YamlEdit

/-! ## Values that equal themselves -/

namespace Value

theorem forall_mem_put {P Q : Value → Prop} {entries : List (Value × Value)}
    (h : ∀ e ∈ entries, P e.1 ∧ Q e.2) {k v : Value} (hk : P k) (hv : Q v) :
    ∀ e ∈ put entries k v, P e.1 ∧ Q e.2 := by
  induction entries with
  | nil => exact List.forall_mem_singleton.mpr ⟨hk, hv⟩
  | cons d r ih =>
    obtain ⟨first, rest⟩ := List.forall_mem_cons.mp h
    rw [put]
    split
    · exact List.forall_mem_cons.mpr ⟨⟨first.1, hv⟩, rest⟩
    · exact List.forall_mem_cons.mpr ⟨first, ih rest⟩

/-- What is known of all keys and of all values is known of those that are gathered. -/
theorem forall_mem_gather {P Q : Value → Prop} {entries : List (Value × Value)}
    (h : ∀ e ∈ entries, P e.1 ∧ Q e.2) : ∀ e ∈ gather entries, P e.1 ∧ Q e.2 := by
  suffices all : ∀ dict : List (Value × Value), (∀ e ∈ dict, P e.1 ∧ Q e.2) →
      ∀ e ∈ entries.foldl (fun dict e => put dict e.1 e.2) dict, P e.1 ∧ Q e.2 from
    all [] (List.forall_mem_nil _)
  induction entries with
  | nil => exact fun _ known => known
  | cons e r ih =>
    obtain ⟨first, rest⟩ := List.forall_mem_cons.mp h
    exact fun dict known => ih rest _ (forall_mem_put known first.1 first.2)

end Value

namespace Graph

variable {g : Graph} {rank : Nat → Nat}

/-- What a node means equals itself, if lists of pairs hold numbers only. -/
theorem Means.selfsame (down : g.Descends rank)
    (numbers : ∀ i tag start items, g.vertex? i = some ⟨tag, start, .sequence items⟩ →
      tag.isPaired = true → ∀ v, g.Means i v → v.hasNan = false)
    {i : Nat} {v : Value} (means : g.Means i v) : v.Selfsame false := by
  induction bound : rank i using Nat.strongRecOn generalizing i v with
  | ind r ih =>
    subst bound
    have read : ∀ {all : List (Nat × Nat)} {entries : List (Value × Value)},
        (∀ p ∈ all, rank p.1 < rank i ∧ rank p.2 < rank i) → List.Forall₂ g.Reads all entries →
          ∀ e ∈ entries, e.1.Selfsame false ∧ e.2.Selfsame false := by
      intro all entries low reads e he
      obtain ⟨p, hp, key, value⟩ := mem_of_forall₂ reads he
      exact ⟨ih _ (low p hp).1 key rfl, ih _ (low p hp).2 value rfl⟩
    cases means with
    | scalar here reads =>
      exact .scalar (Value.isScalar_bare.mpr (isScalar_of_scalarValue? reads)) nofun
    | list here parts =>
      refine .list fun v hv => ?_
      obtain ⟨c, hc, part⟩ := mem_of_forall₂ parts hv
      exact ih _ (down.lower i _ here c hc) part rfl
    | dict here flat keys values scalars =>
      have parts := read (fun p hp => flat.lower down hp) (reads_iff.mpr ⟨keys, values⟩)
      have known := Value.forall_mem_gather (P := fun k => k.isNan = false) (Q := (·.Selfsame false))
        fun e he => ⟨(scalars e he).2, (parts e he).2⟩
      exact .dict (Value.distinct_gather fun e he => (scalars e he).1) (fun e he => (known e he).1)
        fun e he => (known e he).2
    | set here flat keys values scalars =>
      have known := Value.forall_mem_gather (P := fun k => k.isNan = false) (Q := fun _ => True)
        fun e he => ⟨(scalars e he).2, trivial⟩
      exact .set (Value.distinct_gather fun e he => (scalars e he).1)
        (List.forall_mem_map.mpr fun e he => (known e he).1)
    | tuples here paired singles keys values =>
      have parts := read (fun p hp => lower_of_singles down here singles hp)
        (reads_iff.mpr ⟨keys, values⟩)
      have none := numbers i _ _ _ here paired _ (.tuples here paired singles keys values)
      rw [Value.hasNan, Value.anyNan_eq_false] at none
      refine .list (List.forall_mem_map.mpr fun e he => .tuple ?_)
      have none := none _ (List.mem_map_of_mem he)
      rw [Value.hasNan, Value.anyNan_eq_false] at none
      intro v hv
      have self : v.Selfsame false := by
        rcases List.mem_pair.mp hv with rfl | rfl
        · exact (parts e he).1
        · exact (parts e he).2
      exact self.of_hasNan (none v hv)

end Graph

namespace Tree

/-! ## What a collection holds -/

/-- A value has, under what the key of a pair is constructed to, what the pair's value is constructed
to. -/
def HoldsPair (t : Tree) (d : Value) (p : Nat × Nat) : Prop :=
  ∃ id entries k m key x w, d = .dict id entries ∧ t.node? p.1 = some k ∧ t.node? p.2 = some m ∧
    t.construct k = .ok key ∧ t.construct m = .ok x ∧ Value.find? entries key = some w ∧
      Value.equal w x = true

/-- A value is the list of what some nodes are constructed to. -/
def HoldsItems (t : Tree) (l : Value) (children : List Nat) : Prop :=
  ∃ id items, l = .list id items ∧ List.Forall₂
    (fun c w => ∃ m x, t.node? c = some m ∧ t.construct m = .ok x ∧ Value.equal w x = true)
    children items

/-- No list of pairs of a tree has a NaN in it, which would not equal itself. -/
def TuplesWithoutNan (t : Tree) : Prop :=
  ∀ n ∈ t.nodes, n.kind = .sequence → n.tag?.any Tag.isPaired = true →
    ∀ v, t.construct n = .ok v → v.hasNan = false

variable {t : Tree} {rank : Nat → Nat}

theorem vertex?_mapping (sound : Sound t.nodes) {i : Nat} {n : Node} (here : t.node? i = some n)
    (kind : n.kind = .mapping) : t.lead i = i ∧ ∃ tag, n.tag? = some tag ∧
      t.graph.vertex? i = some ⟨tag, none, .mapping (n.pairs.map (Prod.map t.lead t.lead))⟩ := by
  have own : n.isAlias = false := by
    rw [Node.isAlias, kind]
    rfl
  refine ⟨lead_of_not_alias sound here own, ?_⟩
  rw [vertex?_graph here, Node.tag?, Node.pairs]
  cases body : n.body <;> rw [Node.kind, body] at kind <;> cases kind
  exact ⟨_, rfl, rfl⟩

theorem vertex?_sequence (sound : Sound t.nodes) {i : Nat} {n : Node} (here : t.node? i = some n)
    (kind : n.kind = .sequence) : t.lead i = i ∧ ∃ tag, n.tag? = some tag ∧
      t.graph.vertex? i = some ⟨tag, none, .sequence (n.children.map t.lead)⟩ := by
  have own : n.isAlias = false := by
    rw [Node.isAlias, kind]
    rfl
  refine ⟨lead_of_not_alias sound here own, ?_⟩
  rw [vertex?_graph here, Node.tag?, Node.children]
  cases body : n.body <;> rw [Node.kind, body] at kind <;> cases kind
  exact ⟨_, rfl, rfl⟩

namespace Readable

variable (r : t.Readable rank)
include r

theorem selfsame (numbers : t.TuplesWithoutNan) {i : Nat} {v : Value}
    (means : t.graph.Means i v) : v.Selfsame false := by
  refine means.selfsame r.down ?_
  intro i tag start items here paired v means
  obtain ⟨n, node, same⟩ := node_of_graph here
  cases body : n.body <;> rw [body] at same <;> cases same
  have own : n.isAlias = false := by
    rw [Node.isAlias, Node.kind, body]
    rfl
  rw [← lead_of_not_alias r.ordered.sound node own] at means
  obtain ⟨x, made, rfl⟩ := r.construct node means
  rw [Value.hasNan_bare]
  exact numbers n (mem_of_node? node) (by rw [Node.kind, body]) (by rw [Node.tag?, body]; exact paired)
    x made

/-- A dictionary has the values of its own pairs. -/
theorem holdsPair (numbers : t.TuplesWithoutNan) {i : Nat} {n : Node} (here : t.node? i = some n)
    (kind : n.kind = .mapping) (tag : n.tag? = some .map) {p : Nat × Nat}
    {before after : List (Nat × Nat)} (pairs : n.pairs = before ++ p :: after)
    (own : t.isOwnPair p = true) (last : t.LastOwn p after) {d : Value}
    (made : t.construct n = .ok d) : t.HoldsPair d p := by
  have means := r.means here made
  obtain ⟨place, tag', named, vertex⟩ := vertex?_mapping r.ordered.sound here kind
  cases tag.symm.trans named
  rw [place] at means
  obtain ⟨all, entries, flat, reads, scalars, same⟩ := means.of_map vertex
  obtain ⟨k, v, key, value, scalar, found⟩ := r.find?_last here flat reads scalars pairs own last
  obtain ⟨⟨kn, hk⟩, vn, hv⟩ := r.exists_pair here
    (pairs ▸ List.mem_append_right _ List.mem_cons_self)
  obtain ⟨key', keyed, rfl⟩ := r.construct hk key
  obtain ⟨x, valued, rfl⟩ := r.construct hv value
  cases d with
  | dict id own =>
    rw [Value.bare, Value.dict.injEq] at same
    rw [← same.2, Value.find?_bare, Value.find?_bareEntries (Value.isScalar_bare.mp scalar)] at found
    obtain ⟨w, held, bare⟩ := Option.map_eq_some_iff.mp found
    exact ⟨id, own, kn, vn, key', x, w, rfl, hk, hv, keyed, valued, held,
      Value.equal_of_bare bare (r.selfsame numbers value)⟩
  | _ => cases same

/-- A list has what its items are constructed to. -/
theorem holdsItems (numbers : t.TuplesWithoutNan) {i : Nat} {n : Node} (here : t.node? i = some n)
    (kind : n.kind = .sequence) (tag : n.tag? = some .seq) {l : Value}
    (made : t.construct n = .ok l) : t.HoldsItems l n.children := by
  have means := r.means here made
  obtain ⟨place, tag', named, vertex⟩ := vertex?_sequence r.ordered.sound here kind
  cases tag.symm.trans named
  rw [place] at means
  obtain ⟨values, parts, same⟩ := means.of_seq vertex
  cases l with
  | list id items =>
    rw [Value.bare_list] at same
    cases same
    rw [List.forall₂_map_left_iff, List.forall₂_map_right_iff] at parts
    refine ⟨id, items, rfl, Graph.forall₂_of_mem parts ?_⟩
    intro c hc w part
    obtain ⟨m, found⟩ := r.exists_child here hc
    obtain ⟨x, constructed, bare⟩ := r.construct found part
    exact ⟨m, x, found, constructed, Value.equal_of_bare bare.symm (bare ▸ r.selfsame numbers part)⟩
  | _ => cases same

end Readable

/-! ## What is constructed of a text that loads -/

/-- A node that is the key of a pair that merges others in, or inside of one. -/
def InMergeKey (t : Tree) (n : Node) : Prop :=
  ∃ m ∈ t.nodes, ∃ p ∈ m.pairs, t.isOwnPair p = false ∧ ∃ k ∈ t.node? p.1, t.Inside k n

/-- A node that is the value of a pair that merges it in. -/
def IsMerged (t : Tree) (n : Node) : Prop :=
  ∃ m ∈ t.nodes, ∃ p ∈ m.pairs, t.isOwnPair p = false ∧ t.node? p.2 = some n

/-- What a text that loads takes from a node at its place: its value, the pairs of a mapping, the one
pair of a mapping, or the pairs of the mappings that are merged at once. -/
inductive Held (t : Tree) (i : Nat) : Prop
  | value {v : Value} (means : t.graph.Means (t.lead i) v)
  | pairs {all : List (Nat × Nat)} {entries : List (Value × Value)}
    (flat : t.graph.Flattens (t.lead i) all) (reads : List.Forall₂ t.graph.Reads all entries)
    (scalars : ∀ e ∈ entries, e.1.IsScalar ∧ e.1.isNan = false)
  | pair {p : Nat × Nat} {e : Value × Value} (single : t.graph.Single (t.lead i) p)
    (reads : t.graph.Reads p e)
  | sources {n : Node} {all : List (Nat × Nat)} {entries : List (Value × Value)}
    (here : t.node? i = some n) (merged : t.IsMerged n) (brings : t.graph.Brings (t.lead i) all)
    (reads : List.Forall₂ t.graph.Reads all entries)
    (scalars : ∀ e ∈ entries, e.1.IsScalar ∧ e.1.isNan = false)

theorem exists_of_forall₂ {α β : Type} {R : α → β → Prop} {l : List α} {m : List β}
    (h : List.Forall₂ R l m) {a : α} (ha : a ∈ l) : ∃ b ∈ m, R a b :=
  Graph.mem_of_forall₂ h.flip ha

/-- What is related to each item of a list is related to some of the items. -/
theorem forall₂_of_subset {α β : Type} {R : α → β → Prop} {l part : List α} {m : List β}
    (h : List.Forall₂ R l m) (sub : ∀ a ∈ part, a ∈ l) :
    ∃ few, List.Forall₂ R part few ∧ ∀ b ∈ few, b ∈ m := by
  induction part with
  | nil => exact ⟨[], .nil, List.forall_mem_nil _⟩
  | cons a part ih =>
    obtain ⟨first, rest⟩ := List.forall_mem_cons.mp sub
    obtain ⟨b, hb, related⟩ := exists_of_forall₂ h first
    obtain ⟨few, known, among⟩ := ih rest
    exact ⟨b :: few, .cons related known, List.forall_mem_cons.mpr ⟨hb, among⟩⟩

namespace Held

variable (r : t.Readable rank) {i : Nat} {n : Node} (here : t.node? i = some n) (held : t.Held i)
include r here held

/-- The items of a sequence are held for their values, for a pair, or for the pairs that they add to
those of other items. -/
theorem item (kind : n.kind = .sequence) {c : Nat} (hc : c ∈ n.children) : t.Held c := by
  obtain ⟨place, tag, -, vertex⟩ := vertex?_sequence r.ordered.sound here kind
  have listed : t.lead c ∈ n.children.map t.lead := List.mem_map_of_mem hc
  cases held with
  | value means =>
    rw [place] at means
    rcases means.of_sequence vertex with ⟨-, values, parts, -⟩ | ⟨-, all, entries, singles, reads, -⟩
    · obtain ⟨v, -, part⟩ := exists_of_forall₂ parts listed
      exact .value part
    · obtain ⟨p, hp, single⟩ := exists_of_forall₂ singles listed
      obtain ⟨e, -, read⟩ := exists_of_forall₂ reads hp
      exact .pair single read
  | pairs flat =>
    obtain ⟨_, _, _, other⟩ := flat.exists_mapping
    rw [place, vertex] at other
    cases other
  | pair single =>
    obtain ⟨_, _, other⟩ := single
    rw [place, vertex] at other
    cases other
  | sources _ _ brings reads scalars =>
    rw [place] at brings
    obtain ⟨lists, flats, rfl⟩ := brings.of_sequence vertex
    obtain ⟨l, hl, flat⟩ := exists_of_forall₂ flats listed
    obtain ⟨few, read, among⟩ := forall₂_of_subset reads
      fun p hp => List.mem_flatten.mpr ⟨l, List.mem_reverse.mpr hl, hp⟩
    exact .pairs flat read fun e he => scalars e (among e he)

/-- A mapping is held for its pairs, or for the only one that it has. -/
theorem of_mapping (kind : n.kind = .mapping) :
    (∃ all entries, t.graph.Flattens i all ∧ List.Forall₂ t.graph.Reads all entries ∧
        ∀ e ∈ entries, e.1.IsScalar ∧ e.1.isNan = false) ∨
      ∃ p e, n.pairs.map (Prod.map t.lead t.lead) = [p] ∧ t.graph.Reads p e := by
  obtain ⟨place, tag, -, vertex⟩ := vertex?_mapping r.ordered.sound here kind
  cases held with
  | value means =>
    rw [place] at means
    obtain ⟨all, entries, flat, reads, scalars, -⟩ := means.of_mapping vertex
    exact .inl ⟨all, entries, flat, reads, scalars⟩
  | pairs flat reads scalars => exact .inl ⟨_, _, place ▸ flat, reads, scalars⟩
  | pair single reads =>
    obtain ⟨_, _, alone⟩ := single
    rw [place, vertex, Option.some.injEq, Vertex.mk.injEq, Vertex.Body.mapping.injEq] at alone
    exact .inr ⟨_, _, alone.2.2, reads⟩
  | sources _ _ brings reads scalars =>
    rw [place] at brings
    exact .inl ⟨_, _, brings.of_mapping vertex, reads, scalars⟩

/-- Keys and values of a mapping's own pairs are held for their values. -/
theorem own (kind : n.kind = .mapping) {q : Nat × Nat} (hq : q ∈ n.pairs)
    (mine : t.isOwnPair q = true) :
    ∃ e, t.graph.Reads (Prod.map t.lead t.lead q) e := by
  rcases of_mapping r here held kind with ⟨all, entries, flat, reads, -⟩ | ⟨p, e, one, read⟩
  · obtain ⟨brought, rfl⟩ := r.flattens_own here flat
    obtain ⟨e, -, read⟩ := exists_of_forall₂ reads (List.mem_append_right _
      (List.mem_map_of_mem (List.mem_filter.mpr ⟨hq, mine⟩)))
    exact ⟨e, read⟩
  · have same : Prod.map t.lead t.lead q ∈ [p] := one ▸ List.mem_map_of_mem hq
    rw [List.mem_singleton.mp same]
    exact ⟨e, read⟩

/-- The value of a pair that merges it in is held for the pairs that it brings. -/
theorem merged (kind : n.kind = .mapping) {q : Nat × Nat} (hq : q ∈ n.pairs)
    (other : t.isOwnPair q = false) : t.Held q.2 := by
  obtain ⟨⟨k, found⟩, m, there⟩ := r.exists_pair here hq
  rcases of_mapping r here held kind with ⟨all, entries, flat, reads, scalars⟩ | ⟨p, e, one, read⟩
  · obtain ⟨tag, start, pairs, brought, vertex, sources, rfl⟩ := Graph.flattens_iff.mp flat
    have spelled := pairs_graph here
    rw [Graph.pairs, vertex] at spelled
    have listed : Prod.map t.lead t.lead q ∈ pairs := by
      rw [show pairs = _ from spelled]
      exact List.mem_map_of_mem hq
    have merges : t.graph.merges (Prod.map t.lead t.lead q) = true := by
      rw [r.merges found, other]
      rfl
    obtain ⟨l, hl, brings⟩ := exists_of_forall₂ sources
      (List.mem_map_of_mem (List.mem_filter.mpr ⟨listed, merges⟩))
    obtain ⟨few, read, among⟩ := forall₂_of_subset reads
      fun p hp => List.mem_append_left _ (List.mem_flatten.mpr ⟨l, hl, hp⟩)
    exact .sources there ⟨n, mem_of_node? here, q, hq, other, there⟩ brings read
      fun e he => scalars e (among e he)
  · have same : Prod.map t.lead t.lead q ∈ [p] := one ▸ List.mem_map_of_mem hq
    rw [← List.mem_singleton.mp same] at read
    exact .value read.2

end Held

theorem exists_pair_of_mem_children {n : Node} (kind : n.kind = .mapping) {c : Nat}
    (hc : c ∈ n.children) : ∃ p ∈ n.pairs, c = p.1 ∨ c = p.2 := by
  rw [Node.children] at hc
  rw [Node.pairs]
  cases body : n.body <;> rw [Node.kind, body] at kind <;> cases kind
  rw [body] at hc
  obtain ⟨p, hp, hc⟩ := List.mem_flatMap.mp hc
  exact ⟨p, hp, by simpa using hc⟩

/-- From the root down, what is not inside of a merge key is held. -/
theorem held_of_inside (r : t.Readable rank) {root : Node} (first : t.node? 0 = some root)
    {v : Value} (means : t.graph.Means (t.lead 0) v) {n : Node} (inside : t.Inside root n)
    (free : ¬ t.InMergeKey n) : ∃ i, t.node? i = some n ∧ t.Held i := by
  induction inside with
  | self => exact ⟨0, first, .value means⟩
  | @child m c i _ listed found ih =>
    obtain ⟨j, here, held⟩ := ih fun ⟨x, hx, p, hp, other, k, hk, within⟩ =>
      free ⟨x, hx, p, hp, other, k, hk, within.child listed found⟩
    refine ⟨i, found, ?_⟩
    rcases kind_of_mem_children listed with kind | kind
    · exact held.item r here kind listed
    · obtain ⟨p, hp, place⟩ := exists_pair_of_mem_children kind listed
      cases own : t.isOwnPair p with
      | true =>
        obtain ⟨e, key, value⟩ := held.own r here kind hp own
        rcases place with rfl | rfl
        · exact .value key
        · exact .value value
      | false =>
        rcases place with rfl | rfl
        · exact absurd ⟨m, mem_of_node? here, p, hp, own, c, found, .self⟩ free
        · exact held.merged r here kind hp own

namespace Held

variable (r : t.Readable rank) {i : Nat} {n : Node} (here : t.node? i = some n) (held : t.Held i)
include r here held

omit here held in
/-- A key of a mapping that leads to a scalar can be one of a dictionary. -/
theorem isScalar_key {tag : Tag} {start : Option Mark} {pairs : List (Nat × Nat)}
    (vertex : t.graph.vertex? i = some ⟨tag, start, .mapping pairs⟩) {p : Nat × Nat}
    (hp : Prod.map t.lead t.lead p ∈ pairs)
    (scalar : ∃ k ∈ (t.node? p.1).bind t.target?, k.kind = .scalar) {v : Value}
    (means : t.graph.Means (t.lead p.1) v) : v.IsScalar ∧ v.isNan = false := by
  obtain ⟨k, target, scalar⟩ := scalar
  obtain ⟨c, found, -⟩ := Option.bind_eq_some_iff.mp target
  obtain ⟨m, target', -, led, -⟩ := exists_lead r.ordered.sound
    (Array.getElem?_eq_some_iff.mp found).1
  cases Option.some.inj (target.symm.trans target')
  have key := vertex?_graph led
  cases body : k.body <;> rw [Node.kind, body] at scalar <;> cases scalar
  rw [body] at key
  obtain ⟨w, reads, rfl⟩ := means.of_scalar key
  rw [Value.isScalar_bare, Value.isNan_bare]
  exact ⟨Graph.isScalar_of_scalarValue? reads,
    r.plainGraph.keys _ _ _ _ vertex _ hp _ _ _ _ key reads⟩

/-- A mapping that is held for the only pair it has is flat if the pair is its own. -/
theorem flat (kind : n.kind = .mapping) {p : Nat × Nat} (hp : p ∈ n.pairs)
    (mine : t.isOwnPair p = true)
    (scalar : ∃ k ∈ (t.node? p.1).bind t.target?, k.kind = .scalar) :
    ∃ all entries, t.graph.Flattens i all ∧ List.Forall₂ t.graph.Reads all entries ∧
      ∀ e ∈ entries, e.1.IsScalar ∧ e.1.isNan = false := by
  rcases of_mapping r here held kind with flat | ⟨q, e, one, read⟩
  · exact flat
  · obtain ⟨-, tag, -, vertex⟩ := vertex?_mapping r.ordered.sound here kind
    obtain ⟨⟨k, found⟩, -⟩ := r.exists_pair here hp
    have same : Prod.map t.lead t.lead p ∈ [q] := one ▸ List.mem_map_of_mem hp
    obtain rfl := List.mem_singleton.mp same
    rw [one] at vertex
    have own : t.graph.merges (Prod.map t.lead t.lead p) = false := by
      rw [r.merges found, mine]
      rfl
    refine ⟨[Prod.map t.lead t.lead p], [e],
      Graph.flattens_iff.mpr ⟨_, _, _, [], vertex, ?_, ?_⟩, .cons read .nil, ?_⟩
    · rw [List.filter_singleton, own]
      exact .nil
    · rw [List.filter_singleton, own]
      rfl
    · exact List.forall_mem_singleton.mpr (isScalar_key r vertex same scalar read.1)

/-- A mapping that is held is constructed, if it has a pair of its own whose key is a scalar. -/
theorem exists_dict (kind : n.kind = .mapping) (tag : n.tag? = some .map) {p : Nat × Nat}
    (hp : p ∈ n.pairs) (mine : t.isOwnPair p = true)
    (scalar : ∃ k ∈ (t.node? p.1).bind t.target?, k.kind = .scalar) :
    ∃ d, t.construct n = .ok d := by
  obtain ⟨place, tag', named, vertex⟩ := vertex?_mapping r.ordered.sound here kind
  cases tag.symm.trans named
  obtain ⟨all, entries, flat, reads, scalars⟩ := flat r here held kind hp mine scalar
  obtain ⟨keys, values⟩ := Graph.reads_iff.mp reads
  have means : t.graph.Means i _ := .dict vertex flat keys values scalars
  rw [← place] at means
  obtain ⟨d, made, -⟩ := r.construct here means
  exact ⟨d, made⟩

/-- A sequence that is held and not merged in is constructed. -/
theorem exists_list (kind : n.kind = .sequence) (alone : ¬ t.IsMerged n) :
    ∃ l, t.construct n = .ok l := by
  obtain ⟨place, tag, -, vertex⟩ := vertex?_sequence r.ordered.sound here kind
  cases held with
  | value means =>
    obtain ⟨l, made, -⟩ := r.construct here means
    exact ⟨l, made⟩
  | pairs flat =>
    obtain ⟨_, _, _, other⟩ := flat.exists_mapping
    rw [place, vertex] at other
    cases other
  | pair single =>
    obtain ⟨_, _, other⟩ := single
    rw [place, vertex] at other
    cases other
  | sources here' merged =>
    cases here.symm.trans here'
    exact absurd merged alone

end Held

/-- Of a text that loads every mapping outside of merge keys is constructed that has a pair of its own
with a scalar as the key, and every sequence that is not merged in. What is constructed of a mapping
has the values of its own pairs, the last one of each key, and what is constructed of a sequence is
the list of its items. -/
theorem compositional_of_loads {s : Text} {u : Value} (composed : compose s = .ok t)
    (loads : loadValue s = .ok u) (usual : t.Usual) (numbers : t.TuplesWithoutNan) {n : Node}
    (hn : n ∈ t.nodes) :
    (n.kind = .mapping → n.tag? = some .map → ∀ before p after, n.pairs = before ++ p :: after →
      t.isOwnPair p = true → t.LastOwn p after →
        ((∃ k ∈ (t.node? p.1).bind t.target?, k.kind = .scalar) → ¬ t.InMergeKey n →
          ∃ d, t.construct n = .ok d) ∧
        ∀ d, t.construct n = .ok d → t.HoldsPair d p) ∧
    (n.kind = .sequence → n.tag? = some .seq →
      (¬ t.InMergeKey n → ¬ t.IsMerged n → ∃ l, t.construct n = .ok l) ∧
        ∀ l, t.construct n = .ok l → t.HoldsItems l n.children) := by
  obtain ⟨i, inside, here⟩ := Array.getElem_of_mem hn
  have here : t.node? i = some n := Array.getElem?_eq_some_iff.mpr ⟨inside, here⟩
  have ordered := (ordered_of_compose composed).resolve_left (by omega)
  obtain ⟨rank, r⟩ := exists_readable ordered (tagged_of_compose composed ordered) usual
  have held : ¬ t.InMergeKey n → t.Held i := by
    intro free
    have first : t.root? = some _ := Array.getElem?_eq_getElem (show 0 < t.nodes.size by omega)
    obtain ⟨v, value, rfl⟩ := (agree_loadValue composed).ok loads
    rw [Tree.value, first] at value
    have whole := (ordered.row.inside_iff first ordered.sound.index here).mpr ⟨Nat.zero_le i, inside⟩
    obtain ⟨j, there, held⟩ := held_of_inside r first (r.means first value) whole free
    rwa [← ordered.sound.index i n here, ordered.sound.index j n there]
  refine ⟨?_, ?_⟩
  · intro kind tag before p after pairs own last
    have hp : p ∈ n.pairs := pairs ▸ List.mem_append_right _ List.mem_cons_self
    exact ⟨fun scalar free => (held free).exists_dict r here kind tag hp own scalar,
      fun d made => r.holdsPair numbers here kind tag pairs own last made⟩
  · intro kind tag
    exact ⟨fun free alone => (held free).exists_list r here kind alone,
      fun l made => r.holdsItems numbers here kind tag made⟩

/-! ## Texts that can be checked -/

/-- What the node at a place is constructed to. -/
def made? (t : Tree) (i : Nat) : Option Value :=
  (t.node? i).bind fun n => (t.construct n).toOption

theorem made?_eq {i : Nat} {n : Node} {v : Value} (here : t.node? i = some n)
    (made : t.construct n = .ok v) : t.made? i = some v := by
  rw [made?, here, Option.bind_some, made]
  rfl

/-- Whether what an alias stands for ends before it. -/
def standsBehind (t : Tree) (a : Node) : Bool :=
  !a.isAlias || (t.target? a).all fun m => t.nodes.contains m && t.endsBefore m a

/-- Whether the keys of a node, and what it holds as a list of pairs, are numbers. -/
def holdsNumbers (t : Tree) (n : Node) : Bool :=
  (n.pairs.all fun p => (t.made? p.1).all (!·.isNan)) &&
    (!(n.kind == .sequence && n.tag?.any Tag.isPaired) || (t.construct n).toOption.all (!·.hasNan))

/-- Whether a list of pairs is given without merge keys. -/
def holdsSingles (t : Tree) (n : Node) : Bool :=
  !(n.kind == .sequence && n.tag?.any Tag.isPaired) || n.children.all fun c =>
    ((t.node? c).bind t.target?).all fun m => m.pairs.all t.isOwnPair

/-- Whether no merge key of a node has children. -/
def holdsMergeLeaves (t : Tree) (n : Node) : Bool :=
  n.pairs.all fun p => t.isOwnPair p || (t.node? p.1).all (·.children.isEmpty)

theorem apart_of_check (sound : Sound t.nodes) (check : ∀ a ∈ t.nodes, t.standsBehind a = true) :
    ∀ a ∈ t.nodes, a.isAlias = true → ∀ m ∈ t.target? a, ¬ t.Inside m a := by
  intro a ha alias_ m target
  have behind := check a ha
  rw [standsBehind, alias_, show t.target? a = some m from target, Option.all_some] at behind
  obtain ⟨listed, ends⟩ := Bool.and_eq_true_iff.mp behind
  exact not_inside_of_endsBefore sound (by simpa using listed) ends

theorem numbers_of_check (check : ∀ n ∈ t.nodes, t.holdsNumbers n = true) :
    (∀ n ∈ t.nodes, ∀ p ∈ n.pairs, ∀ k ∈ t.node? p.1, ∀ v, t.construct k = .ok v →
      v.isNan = false) ∧ t.TuplesWithoutNan := by
  refine ⟨?_, ?_⟩
  · intro n hn p hp k found v made
    have number := List.all_eq_true.mp (Bool.and_eq_true_iff.mp (check n hn)).1 p hp
    rw [made?_eq found made] at number
    simpa using number
  · intro n hn kind paired v made
    have number := (Bool.and_eq_true_iff.mp (check n hn)).2
    rw [kind, paired, made] at number
    simpa [Except.toOption] using number

theorem singles_of_check {n : Node} (check : t.holdsSingles n = true) (kind : n.kind = .sequence)
    (paired : n.tag?.any Tag.isPaired = true) {c : Nat} (hc : c ∈ n.children) {m : Node}
    (target : (t.node? c).bind t.target? = some m) {p : Nat × Nat} (hp : p ∈ m.pairs) :
    t.isOwnPair p = true := by
  rw [holdsSingles, kind, paired] at check
  have each := List.all_eq_true.mp check c hc
  rw [target, Option.all_some] at each
  exact List.all_eq_true.mp each p hp

theorem lastOwn_of_check {p : Nat × Nat} {after : List (Nat × Nat)}
    (check : (after.all fun q => (t.made? p.1).all fun v => (t.made? q.1).all (!v.same ·)) = true) :
    t.LastOwn p after := by
  intro q hq _ k found l found' v w made made'
  have apart := List.all_eq_true.mp check q hq
  rw [made?_eq found made, made?_eq found' made'] at apart
  simpa using apart

theorem Inside.eq_of_childless {n m : Node} (inside : t.Inside n m) (alone : n.children = []) :
    m = n := by
  induction inside with
  | self => rfl
  | child _ listed _ ih =>
    rw [ih, alone] at listed
    cases listed

/-- Where merge keys have no children nothing is inside of one. -/
theorem not_inMergeKey_of_check (check : ∀ n ∈ t.nodes, t.holdsMergeLeaves n = true) {n : Node}
    (tag : n.tag? ≠ some .merge) : ¬ t.InMergeKey n := by
  rintro ⟨m, hm, p, hp, merges, k, found, inside⟩
  have leaf := List.all_eq_true.mp (check m hm) p hp
  rw [merges, show t.node? p.1 = some k from found, Option.all_some] at leaf
  obtain rfl := inside.eq_of_childless (List.isEmpty_iff.mp leaf)
  rw [isOwnPair, show t.node? p.1 = some n from found, Option.bind_some] at merges
  exact tag (by simpa using merges)

/-- Whether aliases stand behind what they stand for, and where numbers have to be are numbers. -/
def isUsualAt (t : Tree) (n : Node) : Bool :=
  t.standsBehind n && t.holdsNumbers n

theorem usual_of_check (sound : Sound t.nodes) (check : ∀ n ∈ t.nodes, t.isUsualAt n = true) :
    (∀ a ∈ t.nodes, a.isAlias = true → ∀ m ∈ t.target? a, ¬ t.Inside m a) ∧
    (∀ n ∈ t.nodes, ∀ p ∈ n.pairs, ∀ k ∈ t.node? p.1, ∀ v, t.construct k = .ok v →
      v.isNan = false) ∧ t.TuplesWithoutNan :=
  have each n hn := Bool.and_eq_true_iff.mp (check n hn)
  ⟨apart_of_check sound fun n hn => (each n hn).1, numbers_of_check fun n hn => (each n hn).2⟩

/-- A mapping that has a key of its own, through a merge key and of its own again. -/
def mergedTwice : Text :=
  "- &a {k: 1}\n- {k: 2, <<: [*a, {s: 0}], k: [*a], l: x}\n".toList

/-- What is checked of `mergedTwice`: a mapping that has a key before a merge key and again behind it,
and a sequence. -/
def checksMergedTwice (t : Tree) : Bool :=
  (t.nodes.all fun n => n.tag? != some .value && t.isUsualAt n && t.holdsSingles n &&
    t.holdsMergeLeaves n) &&
    ((t.node? 4).any fun n => n.kind == .mapping && n.tag? == some .map &&
      n.pairs == [(5, 6), (7, 8), (13, 14), (16, 17)]) &&
    (t.isOwnPair (13, 14) && !t.isOwnPair (7, 8) &&
      ((t.node? 13).bind t.target?).any (·.kind == .scalar) &&
      (t.made? 13).all fun v => (t.made? 16).all (!v.same ·)) &&
    ((t.node? 14).any fun m => m.kind == .sequence && m.tag? == some .seq) &&
    t.nodes.all fun n => n.pairs.all fun p => t.isOwnPair p || p.2 != 14

theorem compositional_of_loads_mergedTwice : ∃ t u n m before p after,
    compose mergedTwice = .ok t ∧ loadValue mergedTwice = .ok u ∧ t.Usual ∧ t.TuplesWithoutNan ∧
    (n ∈ t.nodes ∧ n.kind = .mapping ∧ n.tag? = some .map ∧ n.pairs = before ++ p :: after ∧
      before.all t.isOwnPair = false ∧ t.isOwnPair p = true ∧ t.LastOwn p after ∧
        ¬ t.InMergeKey n ∧ ∃ d, t.construct n = .ok d ∧ t.HoldsPair d p) ∧
    m ∈ t.nodes ∧ m.kind = .sequence ∧ m.tag? = some .seq ∧ ¬ t.InMergeKey m ∧ ¬ t.IsMerged m ∧
      ∃ l, t.construct m = .ok l ∧ t.HoldsItems l m.children := by
  obtain ⟨t, u, composed, loads, check⟩ := exists_loaded
    (show (compose mergedTwice).toOption.any (fun t => t.value.toOption.any fun _ =>
      checksMergedTwice t) = true by decide +kernel)
  have sound := sound_of_compose composed
  simp only [checksMergedTwice, Bool.and_eq_true, Option.any_eq_true, beq_iff_eq, bne_iff_ne,
    Array.all_eq_true_iff_forall_mem, Bool.not_eq_true'] at check
  obtain ⟨⟨⟨⟨each, n, here, ⟨mapping, map⟩, pairs⟩, ⟨⟨own, merge⟩, scalar⟩, last⟩,
    m, there, sequence, seq⟩, apart⟩ := check
  obtain ⟨behind, keys, tuples⟩ := usual_of_check sound fun n hn => (each n hn).1.1.2
  have usual : t.Usual := ⟨fun n hn _ => (each n hn).1.1.1,
    fun n hn kind paired c hc m target p hp =>
      singles_of_check (each n hn).1.2 kind paired hc target hp, behind, keys⟩
  have leaves : ∀ n ∈ t.nodes, t.holdsMergeLeaves n = true := fun n hn => (each n hn).2
  have free : ¬ t.InMergeKey n := not_inMergeKey_of_check leaves (by simp [map])
  have free' : ¬ t.InMergeKey m := not_inMergeKey_of_check leaves (by simp [seq])
  have later : t.LastOwn (13, 14) [(16, 17)] := lastOwn_of_check (by simpa using last)
  have alone : ¬ t.IsMerged m := by
    rintro ⟨x, hx, p, hp, merges, found⟩
    have other := List.all_eq_true.mp (apart x hx) p hp
    have place : p.2 = 14 := (sound.index p.2 m found).symm.trans (sound.index 14 m there)
    simp [merges, place] at other
  obtain ⟨constructs, holds⟩ := (compositional_of_loads composed loads usual tuples
    (mem_of_node? here)).1 mapping map [(5, 6), (7, 8)] (13, 14) [(16, 17)] pairs own later
  obtain ⟨lists, items⟩ := (compositional_of_loads composed loads usual tuples
    (mem_of_node? there)).2 sequence seq
  obtain ⟨d, made⟩ := constructs scalar free
  obtain ⟨l, listed⟩ := lists free' alone
  exact ⟨t, u, n, m, [(5, 6), (7, 8)], (13, 14), [(16, 17)], composed, loads, usual, tuples,
    ⟨mem_of_node? here, mapping, map, pairs, by simp [merge], own, later, free, d, made,
      holds d made⟩,
    mem_of_node? there, sequence, seq, free', alone, l, listed, items l listed⟩

/-- Sequences of which some item cannot be constructed: one that holds a list of pairs, given as a
mapping whose merge key is replaced first where the text is loaded; one that is merged in; one inside
of a merge key; and one in a mapping of which only the value key is read. -/
def partlyRead : Text :=
  "- &x {<<: {a: 1}}\n- !!omap [*x]\n- {<<: [!f {}]}\n- {? !!merge [[!f b]] : {}}\n".toList ++
    "- !!str {? !!value [] : d, e: [!f g]}\n".toList

theorem not_compositional_partlyRead : ∃ t u, compose partlyRead = .ok t ∧
    loadValue partlyRead = .ok u ∧ (∀ n ∈ t.nodes, n.kind = .scalar → n.tag? ≠ some .value) ∧
    (∀ a ∈ t.nodes, a.isAlias = true → ∀ m ∈ t.target? a, ¬ t.Inside m a) ∧
    (∀ n ∈ t.nodes, ∀ p ∈ n.pairs, ∀ k ∈ t.node? p.1, ∀ v, t.construct k = .ok v →
      v.isNan = false) ∧ t.TuplesWithoutNan ∧
    ∀ i ∈ [0, 10, 14, 21], ∃ n ∈ t.node? i, n.kind = .sequence ∧ n.tag? = some .seq ∧
      ∀ l, ¬ t.HoldsItems l n.children := by
  obtain ⟨t, u, composed, loads, check⟩ := exists_loaded
    (show (compose partlyRead).toOption.any (fun t => t.value.toOption.any fun _ =>
      (t.nodes.all fun n => (n.kind != .scalar || n.tag? != some .value) && t.isUsualAt n) &&
        [0, 10, 14, 21].all fun i => (t.node? i).any fun n => n.kind == .sequence &&
          n.tag? == some .seq && n.children.any fun c => (t.made? c).isNone) = true
      by decide +kernel)
  simp only [Bool.and_eq_true, Bool.or_eq_true, bne_iff_ne, Array.all_eq_true_iff_forall_mem] at check
  obtain ⟨each, lists⟩ := check
  obtain ⟨behind, keys, tuples⟩ :=
    usual_of_check (sound_of_compose composed) fun n hn => (each n hn).2
  refine ⟨t, u, composed, loads, fun n hn kind => (each n hn).1.resolve_left (absurd kind), behind,
    keys, tuples, ?_⟩
  intro i hi
  have list := List.all_eq_true.mp lists i hi
  simp only [Bool.and_eq_true, Option.any_eq_true, List.any_eq_true, beq_iff_eq] at list
  obtain ⟨n, here, ⟨sequence, seq⟩, c, hc, fails⟩ := list
  refine ⟨n, here, sequence, seq, ?_⟩
  rintro l ⟨id, items, -, parts⟩
  obtain ⟨-, -, m, x, found, made, -⟩ := exists_of_forall₂ parts hc
  rw [made?_eq found made] at fails
  cases fails

end Tree

end YamlEdit
