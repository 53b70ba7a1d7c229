import YamlEdit.Proofs.Load.Locality
import YamlEdit.Proofs.Tree.Below

/-!
# What a loaded text holds of its tree

Loading builds the graph of the tree's first node, and its nodes are nodes of the tree under other names.
So references can be followed from node to node: the object of a list has references to those of its
items, that of a map holds its own pairs behind what merge keys bring, and wherever a node leads to is
usual, its reference is read as what the node is constructed to.
-/

namespace YamlEdit

namespace Graph

variable {g h : Graph} {name rank : Nat → Nat} {part : Nat → Bool}

/-- What lies in a part that is a graph of its own is one. -/
theorem Within.apart (w : g.Within h name)
    (inside : ∀ k, ∀ v ∈ g.vertex? k, ∀ c ∈ v.parts, c < g.vertices.size)
    (apart : Construct.Apart (h.mask part) part rank) :
    Construct.Apart (g.mask (part ∘ name)) (part ∘ name) (rank ∘ name) := by
  have masked := w.mask part
  refine ⟨masked.plain apart.plain, masked.descends apart.down ?_, ?_⟩
  · intro k v here c hc
    obtain ⟨-, there⟩ := of_vertex?_mask here (by rintro rfl; cases hc)
    rw [size_mask]
    exact inside k v there c hc
  · intro k v here c hc
    exact apart.inner (name k) _ (masked k v here) (name c) (mem_parts_rename hc)

end Graph

namespace Tree

open Construct

/-- What is related to the items of one list is related through it. -/
theorem forall₂_through {α β γ : Type} {R : α → β → Prop} {S : α → γ → Prop} {l : List α}
    {m : List β} {k : List γ} (h : List.Forall₂ R l m) (h' : List.Forall₂ S l k) :
    List.Forall₂ (fun b c => ∃ a ∈ l, R a b ∧ S a c) m k := by
  induction h generalizing k with
  | nil =>
    cases h'
    exact .nil
  | cons first _ ih =>
    cases h' with
    | cons first' rest' =>
      refine .cons ⟨_, List.mem_cons_self, first, first'⟩ ((ih rest').imp ?_)
      rintro b c ⟨a, ha, both⟩
      exact ⟨a, List.mem_cons_of_mem _ ha, both⟩

/-- Two lists that are the same under other names. -/
theorem forall₂_of_map_eq {α β γ : Type} {f : α → γ} {g : β → γ} {l : List α} {m : List β}
    (same : l.map f = m.map g) : List.Forall₂ (fun a b => f a = g b) l m := by
  rw [← List.forall₂_eq_eq_eq, List.forall₂_map_left_iff, List.forall₂_map_right_iff] at same
  exact same

variable {t : Tree} {h : Graph} {name : Nat → Nat} {b : Construct.Builder}

/-- What has been built of a graph that lies in the graph of a tree. -/
structure Stored (t : Tree) (h : Graph) (name : Nat → Nat) (b : Construct.Builder) : Prop where
  ordered : t.Ordered
  tagged : t.Tagged
  going : ∃ past, Going h past [] b
  empty : b.waiting = []
  within : h.Within t.graph name
  inside : ∀ k, ∀ v ∈ h.vertex? k, ∀ c ∈ v.parts, c < h.vertices.size

/-- An object has been built of the node that the node at a place leads to. -/
def Refers (t : Tree) (h : Graph) (name : Nat → Nat) (b : Construct.Builder) (i ref : Nat) : Prop :=
  ∃ k < h.vertices.size, name k = t.lead i ∧ b.built.lookup k = some ref

/-- What a text loads as has been built of its tree. -/
theorem exists_stored {s : Text} (composed : compose s = .ok t) {d : Loaded} (loads : load s = .ok d)
    {n : Node} (root : t.root? = some n) :
    ∃ h name b, t.Stored h name b ∧ d.store = b.store ∧ t.Refers h name b 0 d.root := by
  have some_ : 0 < t.nodes.size := (Array.getElem?_eq_some_iff.mp root).1
  have ordered := (ordered_of_compose composed).resolve_left (by omega)
  obtain ⟨h, made, loaded⟩ := load_ofTree composed loads root
  obtain ⟨h', name, made', within, first, top, nonempty, inside⟩ := ofTree_spec ordered root
  cases made.symm.trans made'
  rw [Graph.load, if_neg (by simpa using Nat.ne_of_gt nonempty)] at loaded
  obtain ⟨b, past, store, going, empty, known⟩ := run_meets loaded
  rw [first] at known
  exact ⟨h, name, b, ⟨ordered, tagged_of_compose composed ordered, ⟨past, going⟩, empty, within,
    inside⟩, store, 0, nonempty, top, known⟩

namespace Stored

variable (st : t.Stored h name b) {i ref : Nat} (refers : t.Refers h name b i ref) {m : Node}
  (here : t.node? (t.lead i) = some m)
include st refers

omit refers in
/-- A node's object without parts is read as a scalar. -/
theorem isScalar_read {k ref : Nat} (known : b.built.lookup k = some ref)
    (leaf : b.store.HasLeaf ref) : (b.store.read ref).IsScalar := by
  obtain ⟨past, going⟩ := st.going
  obtain ⟨o, object, arises⟩ := going.housed.filled k ref known (by rw [st.empty]; exact nofun)
  obtain ⟨v, leaf⟩ := leaf
  cases object.symm.trans leaf
  cases arises with
  | leaf reached here text reads =>
    rw [Store.read_leaf leaf]
    refine Value.isScalar_bare.mp ?_
    rw [Value.bare_identified]
    exact Value.isScalar_bare.mpr (Graph.isScalar_of_scalarValue? reads)

/-- The object holds what the node asks for. -/
theorem exists_object : ∃ k o, k < h.vertices.size ∧ name k = t.lead i ∧
    b.store.objects[ref]? = some o ∧ Arises h b k o := by
  obtain ⟨k, bound, place, known⟩ := refers
  obtain ⟨past, going⟩ := st.going
  obtain ⟨o, object, arises⟩ := going.housed.filled k ref known (by rw [st.empty]; exact nofun)
  exact ⟨k, o, bound, place, object, arises⟩

include here

/-- The object of a scalar. -/
theorem scalar {tag : Tag} {text : Text} {quoting : Quoting} (body : m.body = .scalar tag text quoting) :
    ∃ x, Graph.scalarValue? tag.settled text = some x ∧
      b.store.objects[ref]? = some (.leaf x) := by
  obtain ⟨k, o, bound, place, object, arises⟩ := st.exists_object refers
  have vertex := vertex?_graph here
  rw [body, ← place] at vertex
  obtain ⟨x, reads, rfl⟩ := arises.of_scalar (st.within.scalar bound vertex)
  exact ⟨x, reads, object⟩

/-- The object of a list. -/
theorem items {frame : Frame} {items : List Nat} (body : m.body = .sequence .seq frame items) :
    ∃ refs, b.store.objects[ref]? = some (.list refs) ∧
      List.Forall₂ (t.Refers h name b) items refs := by
  obtain ⟨k, o, bound, place, object, arises⟩ := st.exists_object refers
  have vertex := vertex?_graph here
  rw [body, ← place] at vertex
  obtain ⟨own, there, names⟩ := st.within.sequence bound vertex
  obtain ⟨refs, parts, rfl⟩ := arises.of_seq there
  refine ⟨refs, object, (forall₂_through (forall₂_of_map_eq names.symm) parts).imp ?_⟩
  rintro i ref ⟨c, hc, same, known⟩
  exact ⟨c, st.inside k _ there c hc, same, known⟩

/-- The object of a map: its own pairs stand behind others. -/
theorem pairs {frame : Frame} {pairs : List (Nat × Nat)} (body : m.body = .mapping .map frame pairs) :
    ∃ first refs, b.store.objects[ref]? = some (.dict (b.store.gather (first ++ refs))) ∧
      (∀ q ∈ first ++ refs, (b.store.read q.1).IsScalar) ∧
      List.Forall₂ (fun p q => t.Refers h name b p.1 q.1 ∧ t.Refers h name b p.2 q.2)
        (pairs.filter t.isOwnPair) refs := by
  obtain ⟨k, o, bound, place, object, arises⟩ := st.exists_object refers
  have vertex := vertex?_graph here
  rw [body, ← place] at vertex
  obtain ⟨own, there, names⟩ := st.within.mapping bound vertex
  obtain ⟨all, refs, ⟨first, rfl⟩, parts, leaves, rfl⟩ := arises.of_map there
  have behind := List.forall₂_drop_append refs first _ parts.flip
  rw [← List.take_append_drop first.length refs] at object
  refine ⟨refs.take first.length, refs.drop first.length, object, ?_, ?_⟩
  · intro q hq
    rw [List.take_append_drop] at hq
    obtain ⟨p, -, key, -⟩ := Graph.mem_of_forall₂ parts hq
    exact st.isScalar_read key (leaves q hq)
  have low {q : Nat × Nat} (hq : q ∈ own) : q.1 < h.vertices.size ∧ q.2 < h.vertices.size := by
    obtain ⟨key, value⟩ := Vertex.mem_parts_mapping .map none hq
    exact ⟨st.inside k _ there _ key, st.inside k _ there _ value⟩
  have filtered : (own.filter fun q => !h.merges q).map (Prod.map name name) =
      (pairs.filter t.isOwnPair).map (Prod.map t.lead t.lead) := by
    have left : (own.map (Prod.map name name)).filter (fun q => !t.graph.merges q) =
        (own.filter fun q => !h.merges q).map (Prod.map name name) :=
      Graph.filter_map_of_mem fun q hq => congrArg (!·) (st.within.merges_of_inside (low hq).1)
    have right : (pairs.map (Prod.map t.lead t.lead)).filter (fun q => !t.graph.merges q) =
        (pairs.filter t.isOwnPair).map (Prod.map t.lead t.lead) := by
      refine Graph.filter_map_of_mem fun p hp => ?_
      have listed : p ∈ m.pairs := by
        rw [Node.pairs, body]
        exact hp
      have child := st.ordered.sound.child _ m here _ (Node.mem_children_of_mem_pairs listed).1
      rw [merges_lead st.tagged (Array.getElem?_eq_getElem child), Bool.not_not]
    rw [← left, ← right, ← names]
    rfl
  refine (forall₂_through (forall₂_of_map_eq filtered) behind.flip).imp ?_
  rintro p q ⟨c, hc, same, known⟩
  obtain ⟨low, low'⟩ := low (List.mem_of_mem_filter hc)
  exact ⟨⟨c.1, low, congrArg Prod.fst same, known.1⟩, c.2, low', congrArg Prod.snd same, known.2⟩

omit here in
/-- The object of a node is read as what the node is constructed to, identities aside, if what the node
leads to is usual. -/
theorem value {n : Node} (at_ : t.node? i = some n) (usual : t.UsualFrom n) :
    ∃ x, t.construct n = .ok x ∧ x.bare = (b.store.read ref).bare ∧ Value.Selfsame false x.bare := by
  obtain ⟨k, bound, place, known⟩ := refers
  obtain ⟨past, going⟩ := st.going
  obtain ⟨rank, apart⟩ := usual.exists_apart st.ordered st.tagged
  have mine : t.below n (t.lead i) = true := below_lead st.ordered.sound at_
  have local_ := st.within.apart st.inside apart
  have means := means_of_going local_ going st.empty (show t.below n (name k) = true from place ▸ mine)
    bound known
  have means := (st.within.mask (t.below n)).means local_.down means
  rw [place] at means
  obtain ⟨x, made, same⟩ := usual.construct_of_means st.ordered st.tagged at_ mine means
  exact ⟨x, made, same, same ▸ usual.selfsame st.ordered st.tagged means⟩

end Stored

end Tree

end YamlEdit
