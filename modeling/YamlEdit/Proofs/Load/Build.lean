import YamlEdit.Proofs.Load.Flatten
import YamlEdit.Proofs.Load.Objects

/-!
# What is built is what a graph means

A plain graph without circles is built exactly if its first node means something, and the value that
is built is what the node means, but for identities.

Building goes over the graph level by level: an object is made empty, waits, and is filled when
references to its parts are known. So what is invariant (`Sane`) speaks of references: every node has
one object of its own, which waits or holds the references of the node's parts (`Fills`). That the
references can be read as values is shown when nothing waits any more, by the rank of the nodes.
-/

namespace YamlEdit

/-- Whether a node is a collection of the kind that its tag asks for. -/
def Vertex.isFit (v : Vertex) : Bool :=
  match v.tag, v.body with
  | .seq, .sequence _ | .omap, .sequence _ | .pairs, .sequence _ => true
  | .map, .mapping _ | .set, .mapping _ => true
  | _, _ => false

namespace Construct

open YamlEdit.Graph

variable {g₀ : Graph} {rank : Nat → Nat} {H : Prop} {b b' : Builder} {past current : List Nat}

theorem FlatAt.tag? {g : Graph} {i : Nat} (h : FlatAt g₀ g i) : g.tag? i = g₀.tag? i := by
  rcases h with same | ⟨_, _, _, _, before, -, now⟩
  · rw [Graph.tag?, same, Graph.tag?]
  · rw [Graph.tag?, Graph.tag?, before, now]
    rfl

/-! ## Kinds of collections -/

theorem isContainer_of_isPaired {tag : Tag} (paired : tag.isPaired = true) :
    tag.isContainer = true := by
  cases tag <;> first | rfl | cases paired

theorem isFit_of_isPaired {tag : Tag} (paired : tag.isPaired = true) (start : Option Mark)
    (items : List Nat) : (⟨tag, start, .sequence items⟩ : Vertex).isFit = true := by
  cases tag <;> first | rfl | cases paired

/-- No scalar is read under a tag of collections. -/
theorem scalarValue?_of_isContainer {tag : Tag} (container : tag.isContainer = true) (text : Text) :
    scalarValue? tag text = none := by
  cases tag <;> first | rfl | cases container

/-- A node that means something is a scalar that can be read, or a collection of the kind that its tag
asks for. -/
theorem fits_of_means {i : Nat} {v : Vertex} (here : g₀.vertex? i = some v) {w : Value}
    (means : g₀.Means i w) :
    (∃ text, v.body = .scalar text ∧ (scalarValue? v.tag text).isSome = true) ∨ v.isFit = true := by
  cases means with
  | scalar here' reads =>
    cases here.symm.trans here'
    exact .inl ⟨_, rfl, by rw [reads]; rfl⟩
  | list here' | dict here' | set here' =>
    cases here.symm.trans here'
    exact .inr rfl
  | tuples here' paired =>
    cases here.symm.trans here'
    exact .inr (isFit_of_isPaired paired _ _)

/-- What has the tag of collections is no scalar. -/
theorem not_isScalar_of_isContainer {i : Nat} {v : Vertex} (here : g₀.vertex? i = some v)
    (container : v.tag.isContainer = true) {w : Value} (means : g₀.Means i w) : ¬ w.IsScalar := by
  cases means with
  | scalar here' reads =>
    cases here.symm.trans here'
    rw [scalarValue?_of_isContainer container] at reads
    cases reads
  | list | dict | set | tuples => exact id

/-! ## States -/

/-- What an object holds for a node: the value of a scalar, or the references of the parts. -/
inductive Fills (g₀ : Graph) (b : Builder) (i : Nat) : Object → Prop
  | scalar {tag : Tag} {start : Option Mark} {text : Text} {v : Value}
    (here : g₀.vertex? i = some ⟨tag, start, .scalar text⟩) (reads : scalarValue? tag text = some v) :
    Fills g₀ b i (.leaf v)
  | list {start : Option Mark} {items refs : List Nat}
    (here : g₀.vertex? i = some ⟨.seq, start, .sequence items⟩)
    (parts : List.Forall₂ (fun c ref => b.built.lookup c = some ref) items refs) :
    Fills g₀ b i (.list refs)
  | dict {start : Option Mark} {pairs all refs : List (Nat × Nat)}
    (here : g₀.vertex? i = some ⟨.map, start, .mapping pairs⟩) (flat : g₀.Flattens i all)
    (parts : List.Forall₂ (Pairs b) all refs)
    (leaves : ∀ q ∈ refs, b.store.HasLeaf q.1) : Fills g₀ b i (.dict (b.store.gather refs))
  | set {start : Option Mark} {pairs all refs : List (Nat × Nat)}
    (here : g₀.vertex? i = some ⟨.set, start, .mapping pairs⟩) (flat : g₀.Flattens i all)
    (parts : List.Forall₂ (Pairs b) all refs)
    (leaves : ∀ q ∈ refs, b.store.HasLeaf q.1) :
    Fills g₀ b i (.set ((b.store.gather refs).map (·.1)))
  | tuples {tag : Tag} {start : Option Mark} {items refs : List Nat} {all : List (Nat × Nat)}
    (here : g₀.vertex? i = some ⟨tag, start, .sequence items⟩) (paired : tag.isPaired = true)
    (singles : List.Forall₂ g₀.Single items all) (parts : List.Forall₂ (Tupled b) all refs) :
    Fills g₀ b i (.list refs)

/-- The nodes `past` have had their objects filled, that of `current` is being filled, and others
wait. If `H` holds, which will say that the first node means something, all nodes that have been met
do. -/
structure Sane (g₀ : Graph) (H : Prop) (past current : List Nat) (b : Builder) : Prop where
  size : b.graph.vertices.size = g₀.vertices.size
  flat : ∀ j, FlatAt g₀ b.graph j
  inside : ∀ i ref, b.built.lookup i = some ref → i < g₀.vertices.size ∧ ref < b.store.objects.size
  apart : ∀ i j ref, b.built.lookup i = some ref → b.built.lookup j = some ref → i = j
  filled : ∀ i ref, b.built.lookup i = some ref → i ∉ current ++ b.waiting →
    ∃ o, b.store.objects[ref]? = some o ∧ Fills g₀ b i o
  waits : ∀ i ∈ current ++ b.waiting, ∃ ref, b.built.lookup i = some ref ∧ Waits g₀ b i ref
  known : ∀ i ∈ past, ∃ ref, b.built.lookup i = some ref
  nodup : (past ++ (current ++ b.waiting)).Nodup
  needed : H → ∀ i ref, b.built.lookup i = some ref → ∃ v, g₀.Means i v

theorem Fills.keep (h : Keeps b b') {i : Nat} {o : Object} (fills : Fills g₀ b i o) :
    Fills g₀ b' i o := by
  cases fills with
  | scalar here reads => exact .scalar here reads
  | list here parts => exact .list here (parts.imp fun c ref l => h.lookups c ref l)
  | dict here flat parts leaves =>
    rw [← Store.gather_congr leaves h.leaves]
    exact .dict here flat (parts.imp fun _ _ => h.pairs) fun q hq => h.hasLeaf (leaves q hq)
  | set here flat parts leaves =>
    rw [← Store.gather_congr leaves h.leaves]
    exact .set here flat (parts.imp fun _ _ => h.pairs) fun q hq => h.hasLeaf (leaves q hq)
  | tuples here paired singles parts =>
    exact .tuples here paired singles (parts.imp fun _ _ => h.tupled)

/-! ## The object of a node -/

/-- What is known of the objects, whatever they are filled with. -/
theorem Sane.housed (sane : Sane g₀ H past current b) : Housed g₀ (Fills g₀) past current b := by
  refine ⟨fun i ref known => (sane.inside i ref known).2, sane.apart, sane.filled, sane.waits, ?_,
    sane.nodup⟩
  intro i hi
  obtain ⟨ref, known⟩ := sane.known i hi
  exact ⟨(sane.inside i ref known).1, ref, known⟩

theorem Housed.sane (housed : Housed g₀ (Fills g₀) past current b)
    (size : b.graph.vertices.size = g₀.vertices.size) (flat : ∀ j, FlatAt g₀ b.graph j)
    (inside : ∀ i ref, b.built.lookup i = some ref → i < g₀.vertices.size)
    (needed : H → ∀ i ref, b.built.lookup i = some ref → ∃ v, g₀.Means i v) :
    Sane g₀ H past current b :=
  ⟨size, flat, fun i ref known => ⟨inside i ref known, housed.inside i ref known⟩, housed.apart,
    housed.filled, housed.waits, fun i hi => (housed.known i hi).2, housed.nodup, needed⟩

/-- What fills an object stays while references, scalars and pairs stay. -/
theorem lasts_fills (g₀ : Graph) : Lasts (Fills g₀) :=
  fun _ _ _ _ keeps fills => fills.keep keeps

/-- A new object holds the scalar that it is for, or waits. -/
theorem Sane.with (sane : Sane g₀ H past current b) {i : Nat} (fresh : b.built.lookup i = none)
    (inside : i < g₀.vertices.size) (needs : H → ∃ v, g₀.Means i v) {o : Object}
    {waiting : List Nat}
    (slot : (waiting = b.waiting ∧ Fills g₀ b i o) ∨ (waiting = b.waiting ++ [i] ∧
      (o = .list [] ∨ o = .dict [] ∨ o = .set []) ∧
        ∃ v, g₀.vertex? i = some v ∧ v.tag.isContainer = true)) :
    Sane g₀ H past current (b.with i o waiting) := by
  refine (sane.housed.with (lasts_fills g₀) fresh slot).sane sane.size sane.flat ?_ ?_
  · intro j ref known
    rcases known_with known with ⟨rfl, -⟩ | known
    · exact inside
    · exact (sane.inside j ref known).1
  · intro h j ref known
    rcases known_with known with ⟨rfl, -⟩ | known
    · exact needs h
    · exact sane.needed h j ref known

/-- What making the object of a node leaves. -/
structure Makes (g₀ : Graph) (H : Prop) (past current : List Nat) (b : Builder) (i : Nat)
    (p : Nat × Builder) : Prop where
  sane : Sane g₀ H past current p.2
  grows : Grows b p.2
  known : p.2.built.lookup i = some p.1

theorem not_means_of_unread {i : Nat} {tag : Tag} {start : Option Mark} {s : Text}
    (here : g₀.vertex? i = some ⟨tag, start, .scalar s⟩) (unread : scalarValue? tag s = none) :
    ¬ ∃ v, g₀.Means i v := by
  rintro ⟨v, means⟩
  obtain ⟨w, reads, -⟩ := means.of_scalar here
  rw [unread] at reads
  cases reads

theorem not_means_of_misfit {i : Nat} {v : Vertex} (here : g₀.vertex? i = some v)
    (collection : ∀ text, v.body ≠ .scalar text) (misfit : v.isFit = false) :
    ¬ ∃ w, g₀.Means i w := by
  rintro ⟨w, means⟩
  rcases fits_of_means here means with ⟨text, scalar, -⟩ | fit
  · exact collection text scalar
  · rw [misfit] at fit
    cases fit

theorem text_run {i : Nat} {tag : Tag} {start : Option Mark} {s : Text}
    (here : b.graph.vertex? i = some ⟨tag, start, .scalar s⟩) : (text i).run b = .ok (s, b) := by
  show (scalarText (b.graph.vertices.size + 1) i).run b = _
  rw [scalarText, run_bind_of_ok (vertex_run i b), here]
  rfl

section

variable (sane : Sane g₀ H past current b) {i : Nat} (fresh : b.built.lookup i = none)
  (inside : i < g₀.vertices.size) (needs : H → ∃ v, g₀.Means i v)
include sane fresh inside needs

theorem leaf_spec {tag : Tag} {start : Option Mark} {s : Text} {v : Value}
    (here : g₀.vertex? i = some ⟨tag, start, .scalar s⟩) (reads : scalarValue? tag s = some v) :
    OkWhen H (Makes g₀ H past current b i) ((leaf i v).run b) :=
  ⟨sane.with fresh inside needs (.inl ⟨rfl, .scalar here reads⟩), grows_with fresh _ _,
    lookup_with.trans (if_pos rfl)⟩

theorem later_spec {o : Object} (empty : o = .list [] ∨ o = .dict [] ∨ o = .set []) {v : Vertex}
    (here : g₀.vertex? i = some v) (container : v.tag.isContainer = true) :
    OkWhen H (Makes g₀ H past current b i) ((later i o).run b) :=
  ⟨sane.with fresh inside needs (.inr ⟨rfl, empty, v, here, container⟩), grows_with fresh _ _,
    lookup_with.trans (if_pos rfl)⟩

/-- A scalar whose text is read. -/
theorem literal_spec {tag : Tag} {start : Option Mark} {s : Text}
    (here : g₀.vertex? i = some ⟨tag, start, .scalar s⟩) {x : Except LiteralFault Value}
    (reads : scalarValue? tag s = x.toOption) :
    OkWhen H (Makes g₀ H past current b i) ((literal x >>= leaf i).run b) := by
  cases x with
  | error f => exact fun h => not_means_of_unread here reads (needs h)
  | ok v => exact leaf_spec sane fresh inside needs here reads

/-- The object of a scalar that has none yet. -/
theorem object_scalar {tag : Tag} {start : Option Mark} {s : Text}
    (here : g₀.vertex? i = some ⟨tag, start, .scalar s⟩)
    (now : b.graph.vertex? i = some ⟨tag, start, .scalar s⟩) :
    OkWhen H (Makes g₀ H past current b i) ((object i).run b) := by
  have refused (unread : scalarValue? tag s = none) : ¬ H :=
    fun h => not_means_of_unread here unread (needs h)
  have read := text_run now
  rw [object, run_bind_of_ok (s := b) (t := b) (a := b) rfl, fresh]
  dsimp only
  rw [run_bind_of_ok (vertex_run i b), now]
  dsimp only [Option.getD_some]
  cases tag with
  | null =>
    rw [run_bind_of_ok read]
    exact leaf_spec sane fresh inside needs here rfl
  | bool =>
    rw [run_bind_of_ok read]
    exact literal_spec sane fresh inside needs here rfl
  | str =>
    rw [run_bind_of_ok read]
    exact leaf_spec sane fresh inside needs here rfl
  | int =>
    rw [run_bind_of_ok read]
    exact literal_spec sane fresh inside needs here rfl
  | float =>
    rw [run_bind_of_ok read]
    exact literal_spec sane fresh inside needs here rfl
  | timestamp =>
    rw [run_bind_of_ok read]
    exact literal_spec sane fresh inside needs here rfl
  | binary =>
    rw [run_bind_of_ok read]
    cases bytes : Literal.binary s with
    | error cause =>
      refine refused ?_
      rw [scalarValue?, bytes]
      rfl
    | ok v =>
      refine leaf_spec sane fresh inside needs here ?_
      rw [scalarValue?, bytes]
      rfl
  | map => exact later_spec sane fresh inside needs (.inr (.inl rfl)) here rfl
  | seq => exact later_spec sane fresh inside needs (.inl rfl) here rfl
  | set => exact later_spec sane fresh inside needs (.inr (.inr rfl)) here rfl
  | omap => exact later_spec sane fresh inside needs (.inl rfl) here rfl
  | pairs => exact later_spec sane fresh inside needs (.inl rfl) here rfl
  | merge => exact refused rfl
  | value => exact refused rfl
  | other name => exact refused rfl

/-- The object of a collection that has none yet. -/
theorem object_collection {tag : Tag} {start : Option Mark} {body now : Vertex.Body}
    (here : g₀.vertex? i = some ⟨tag, start, body⟩) (collection : ∀ s, body ≠ .scalar s)
    (same : b.graph.vertex? i = some ⟨tag, start, now⟩) (untexted : ∃ e, (text i).run b = .error e) :
    OkWhen H (Makes g₀ H past current b i) ((object i).run b) := by
  obtain ⟨e, failed⟩ := untexted
  have refused (misfit : (⟨tag, start, body⟩ : Vertex).isFit = false) : ¬ H :=
    fun h => not_means_of_misfit here collection misfit (needs h)
  rw [object, run_bind_of_ok (s := b) (t := b) (a := b) rfl, fresh]
  dsimp only
  rw [run_bind_of_ok (vertex_run i b), same]
  dsimp only [Option.getD_some]
  cases tag with
  | map => exact later_spec sane fresh inside needs (.inr (.inl rfl)) here rfl
  | seq => exact later_spec sane fresh inside needs (.inl rfl) here rfl
  | set => exact later_spec sane fresh inside needs (.inr (.inr rfl)) here rfl
  | omap => exact later_spec sane fresh inside needs (.inl rfl) here rfl
  | pairs => exact later_spec sane fresh inside needs (.inl rfl) here rfl
  | merge | value | other => exact refused rfl
  | null | bool | int | float | str | timestamp | binary =>
    rw [StateT.run_bind, failed]
    exact refused rfl

end

/-- A collection has no text where no key is a value key. -/
theorem text_collection (plain : g₀.Plain) (flat : ∀ j, FlatAt g₀ b.graph j) {i : Nat} {v : Vertex}
    (now : b.graph.vertex? i = some v) (collection : ∀ s, v.body ≠ .scalar s) :
    ∃ e, (text i).run b = .error e := by
  obtain ⟨tag, start, body⟩ := v
  show ∃ e, (scalarText (b.graph.vertices.size + 1) i).run b = .error e
  rw [scalarText, run_bind_of_ok (vertex_run i b), now]
  dsimp only [Option.getD_some]
  cases body with
  | scalar s => exact absurd rfl (collection s)
  | sequence items => exact ⟨_, rfl⟩
  | mapping pairs =>
    dsimp only
    rw [run_bind_of_ok (s := b) (t := b) (a := b) rfl]
    have none : pairs.find? (fun p => b.graph.tag? p.1 == some .value) = none := by
      refine List.find?_eq_none.mpr fun p _ => ?_
      rw [(flat p.1).tag?]
      simpa using plain.valueless p.1
    rw [none]
    exact ⟨_, rfl⟩

/-- The object of a node of a plain graph. -/
theorem object_spec (plain : g₀.Plain) (sane : Sane g₀ H past current b) {i : Nat}
    (inside : i < g₀.vertices.size) (needs : H → ∃ v, g₀.Means i v) :
    OkWhen H (Makes g₀ H past current b i) ((object i).run b) := by
  cases fresh : b.built.lookup i with
  | some ref =>
    rw [object, run_bind_of_ok (s := b) (t := b) (a := b) rfl, fresh]
    exact ⟨sane, .refl b, fresh⟩
  | none =>
    obtain ⟨⟨tag, start, body⟩, here⟩ := exists_vertex (g := g₀) inside
    cases body with
    | scalar s =>
      exact object_scalar sane fresh inside needs here ((sane.flat i).of_scalar here)
    | sequence items =>
      have now := (sane.flat i).of_sequence here
      exact object_collection sane fresh inside needs here nofun now
        (text_collection plain sane.flat now nofun)
    | mapping pairs =>
      obtain ⟨all, now⟩ := (sane.flat i).of_mapping here
      exact object_collection sane fresh inside needs here nofun now
        (text_collection plain sane.flat now nofun)

/-! ## Filling an object -/

/-- Scalars are keys, and nothing else is. -/
theorem isHashable_spec (sane : Sane g₀ H past current b) {k key : Nat}
    (known : b.built.lookup k = some key) :
    ((isHashable key).run b = .ok (true, b) ∧ b.store.HasLeaf key) ∨
      ((isHashable key).run b = .ok (false, b) ∧ ∀ v, g₀.Means k v → ¬ v.IsScalar) := by
  have collection : ∀ o v, b.store.objects[key]? = some o →
      ((∃ l, o = .list l) ∨ (∃ l, o = .dict l) ∨ ∃ l, o = .set l) → g₀.vertex? k = some v →
        v.tag.isContainer = true →
          (isHashable key).run b = .ok (false, b) ∧ ∀ v, g₀.Means k v → ¬ v.IsScalar := by
    intro o v here kind there container
    refine ⟨?_, fun w => not_isScalar_of_isContainer there container⟩
    rcases kind with ⟨l, rfl⟩ | ⟨l, rfl⟩ | ⟨l, rfl⟩
    all_goals
      rw [isHashable, run_bind_of_ok (s := b) (t := b) (a := b) rfl, here]
      rfl
  by_cases waits : k ∈ current ++ b.waiting
  · obtain ⟨ref, known', ⟨o, here, empty⟩, v, there, container⟩ := sane.waits k waits
    cases known.symm.trans known'
    refine .inr (collection o v here ?_ there container)
    exact empty.imp (⟨[], ·⟩) (Or.imp (⟨[], ·⟩) (⟨[], ·⟩))
  · obtain ⟨o, here, fills⟩ := sane.filled k key known waits
    cases fills with
    | @scalar _ _ _ v _ _ =>
      refine .inl ⟨?_, v, here⟩
      rw [isHashable, run_bind_of_ok (s := b) (t := b) (a := b) rfl, here]
      rfl
    | list there => exact .inr (collection _ _ here (.inl ⟨_, rfl⟩) there rfl)
    | dict there => exact .inr (collection _ _ here (.inr (.inl ⟨_, rfl⟩)) there rfl)
    | set there => exact .inr (collection _ _ here (.inr (.inr ⟨_, rfl⟩)) there rfl)
    | tuples there paired =>
      exact .inr (collection _ _ here (.inl ⟨_, rfl⟩) there (isContainer_of_isPaired paired))

/-- The objects of several nodes. -/
theorem objects_spec (plain : g₀.Plain) (sane : Sane g₀ H past current b) {items : List Nat}
    (inside : ∀ c ∈ items, c < g₀.vertices.size) (needs : H → ∀ c ∈ items, ∃ v, g₀.Means c v) :
    OkWhen H (fun p => Sane g₀ H past current p.2 ∧ Grows b p.2 ∧
      List.Forall₂ (fun c ref => p.2.built.lookup c = some ref) items p.1)
      ((items.mapM object).run b) := by
  induction items generalizing b with
  | nil =>
    rw [List.mapM_nil]
    exact ⟨sane, .refl b, .nil⟩
  | cons c r ih =>
    rw [List.mapM_cons, StateT.run_bind]
    refine (object_spec plain sane (inside c List.mem_cons_self)
      fun h => needs h c List.mem_cons_self).bind id ?_
    rintro ⟨ref, b'⟩ made
    rw [StateT.run_bind]
    refine (ih made.sane (fun d hd => inside d (List.mem_cons_of_mem c hd))
      fun h d hd => needs h d (List.mem_cons_of_mem c hd)).bind id ?_
    rintro ⟨refs, b''⟩ ⟨sane', grows, parts⟩
    exact ⟨sane', made.grows.trans grows, .cons (grows.lookups c ref made.known) parts⟩

/-- One entry of a mapping. -/
def addEntry (v : Vertex) (dict : List (Nat × Nat)) (p : Nat × Nat) : Build (List (Nat × Nat)) := do
  let key ← object p.1
  if !(← isHashable key) then fault .unhashableKey v.start (← vertex p.1).start
  let value ← object p.2
  return (← get).store.putEntry dict key value

theorem addEntry_spec (plain : g₀.Plain) (sane : Sane g₀ H past current b) (v : Vertex)
    {p : Nat × Nat} (inside : p.1 < g₀.vertices.size ∧ p.2 < g₀.vertices.size)
    (needs : H → (∃ k, g₀.Means p.1 k ∧ k.IsScalar) ∧ ∃ w, g₀.Means p.2 w)
    (dict : List (Nat × Nat)) :
    OkWhen H (fun r => Sane g₀ H past current r.2 ∧ Grows b r.2 ∧ ∃ q, Pairs r.2 p q ∧
      r.2.store.HasLeaf q.1 ∧ r.1 = r.2.store.putEntry dict q.1 q.2)
      ((addEntry v dict p).run b) := by
  rw [addEntry, StateT.run_bind]
  refine (object_spec plain sane inside.1 fun h => ?_).bind id ?_
  · obtain ⟨k, means, -⟩ := (needs h).1
    exact ⟨k, means⟩
  · rintro ⟨key, b'⟩ made
    dsimp only
    rcases isHashable_spec made.sane made.known with ⟨run, leaf⟩ | ⟨run, notKey⟩
    · rw [run_bind_of_ok run, Bool.not_true, if_neg Bool.false_ne_true, StateT.run_bind]
      refine (object_spec plain made.sane inside.2 fun h => (needs h).2).bind id ?_
      rintro ⟨value, b''⟩ made'
      have leaf' := made'.grows.keeps.hasLeaf leaf
      exact ⟨made'.sane, made.grows.trans made'.grows, (key, value),
        ⟨made'.grows.lookups _ _ made.known, made'.known⟩, leaf', rfl⟩
    · rw [run_bind_of_ok run, Bool.not_false, if_pos rfl]
      intro h
      obtain ⟨k, means, scalar⟩ := (needs h).1
      exact notKey k means scalar

/-- The entries of a mapping, one after another. -/
theorem foldl_addEntry_spec (plain : g₀.Plain) (v : Vertex) {rest : List (Nat × Nat)}
    (inside : ∀ p ∈ rest, p.1 < g₀.vertices.size ∧ p.2 < g₀.vertices.size)
    (needs : H → ∀ p ∈ rest, (∃ k, g₀.Means p.1 k ∧ k.IsScalar) ∧ ∃ w, g₀.Means p.2 w)
    (sane : Sane g₀ H past current b) (seen refs : List (Nat × Nat))
    (parts : List.Forall₂ (Pairs b) seen refs) (leaves : ∀ q ∈ refs, b.store.HasLeaf q.1) :
    OkWhen H (fun r => Sane g₀ H past current r.2 ∧ Grows b r.2 ∧ ∃ all,
      List.Forall₂ (Pairs r.2) (seen ++ rest) all ∧ (∀ q ∈ all, r.2.store.HasLeaf q.1) ∧
        r.1 = r.2.store.gather all)
      ((rest.foldlM (addEntry v) (b.store.gather refs)).run b) := by
  induction rest generalizing b seen refs with
  | nil =>
    rw [List.append_nil]
    exact ⟨sane, .refl b, refs, parts, leaves, rfl⟩
  | cons p r ih =>
    rw [List.foldlM_cons, StateT.run_bind]
    refine (addEntry_spec plain sane v (inside p List.mem_cons_self)
      (fun h => needs h p List.mem_cons_self) _).bind id ?_
    rintro ⟨dict, b'⟩ ⟨sane', grows, q, pair, leaf, added⟩
    dsimp only at sane' grows pair leaf added ⊢
    have leaves' : ∀ q ∈ refs, b'.store.HasLeaf q.1 := fun q hq => grows.keeps.hasLeaf (leaves q hq)
    have more : b'.store.putEntry (b.store.gather refs) q.1 q.2 = b'.store.gather (refs ++ [q]) := by
      rw [← Store.gather_congr leaves grows.keeps.leaves, Store.gather, Store.gather,
        List.foldl_append]
      rfl
    rw [added, more]
    refine (ih (fun q hq => inside q (List.mem_cons_of_mem p hq))
      (fun h q hq => needs h q (List.mem_cons_of_mem p hq)) sane' (seen ++ [p])
      (refs ++ [q]) ?_ ?_).mono id ?_
    · refine List.rel_append (parts.imp ?_) (.cons pair .nil)
      exact fun _ _ l => ⟨grows.lookups _ _ l.1, grows.lookups _ _ l.2⟩
    · intro d hd
      rcases List.mem_append.mp hd with old | new
      · exact leaves' d old
      · rw [List.mem_singleton.mp new]
        exact leaf
    · rintro ⟨dict, b''⟩ ⟨sane'', grows', all, parts', rest'⟩
      rw [List.append_assoc, List.singleton_append] at parts'
      exact ⟨sane'', grows.trans grows', all, parts', rest'⟩

/-- A mapping that means something has parts that do, and keys that are scalars. -/
theorem means_of_flattens (down : g₀.Descends rank) {i : Nat} {all : List (Nat × Nat)}
    (flat : g₀.Flattens i all) {v : Value} (means : g₀.Means i v) {p : Nat × Nat} (hp : p ∈ all) :
    (∃ k, g₀.Means p.1 k ∧ k.IsScalar) ∧ ∃ w, g₀.Means p.2 w := by
  obtain ⟨_, _, _, here⟩ := flat.exists_mapping
  obtain ⟨_, entries, flat', reads, scalars, -⟩ := means.of_mapping here
  cases flat.unique down flat'
  obtain ⟨e, he, key, value⟩ := mem_of_forall₂ reads.flip hp
  exact ⟨⟨e.1, key, (scalars e he).1⟩, e.2, value⟩

/-- Replacing merge keys in the graph leaves the rest of the state. -/
theorem Sane.flattened (sane : Sane g₀ H past current b) {graph : Graph} {i : Nat}
    (h : Flattened g₀ b.graph graph rank i) : Sane g₀ H past current { b with graph } := by
  have housed : Housed g₀ (Fills g₀) past current { b with graph } :=
    sane.housed.keep (lasts_fills g₀) rfl rfl rfl
  refine housed.sane (h.size.trans sane.size) ?_ (fun j ref known => (sane.inside j ref known).1)
    sane.needed
  intro j
  by_cases same : j = i
  · rw [same]
    exact h.flatAt
  · exact h.nodes j same (sane.flat j)

/-- The entries of a mapping, behind its merge keys. -/
theorem entries_spec (down : g₀.Descends rank) (plain : g₀.Plain) (sane : Sane g₀ H past current b)
    {i : Nat} {tag : Tag} {start : Option Mark} {pairs : List (Nat × Nat)}
    (here : g₀.vertex? i = some ⟨tag, start, .mapping pairs⟩)
    (needs : H → ∃ v, g₀.Means i v) :
    OkWhen H (fun r => Sane g₀ H past current r.2 ∧ Grows b r.2 ∧ ∃ all refs, g₀.Flattens i all ∧
      List.Forall₂ (Pairs r.2) all refs ∧ (∀ q ∈ refs, r.2.store.HasLeaf q.1) ∧
        r.1 = r.2.store.gather refs) ((entries i).run b) := by
  obtain ⟨now, same⟩ := (sane.flat i).of_mapping here
  have flattened := flatten_spec down plain sane.size sane.flat (fun j => (sane.flat j).tag?)
    ⟨_, _, _, here⟩
  rw [entries, run_bind_of_ok (vertex_run i b), same]
  dsimp only [Option.getD_some]
  rw [run_bind_of_ok (s := b) (t := b) (a := b) rfl]
  cases flat : flatten b.graph i with
  | error e =>
    rw [flat] at flattened
    intro h
    obtain ⟨v, means⟩ := needs h
    obtain ⟨all, -, flat', -⟩ := means.of_mapping here
    exact flattened ⟨all, flat'⟩
  | ok graph =>
    rw [flat] at flattened
    have flat' := Flattened.flattens flattened
    dsimp only
    rw [run_bind_of_ok (s := b) (t := { b with graph }) (a := ⟨⟩) rfl]
    refine (foldl_addEntry_spec plain ⟨tag, start, .mapping now⟩ (fun p hp => ?_)
      (fun h p hp => ?_) (sane.flattened flattened) [] [] .nil nofun).mono id ?_
    · exact (flat'.origin down hp).inside down
    · obtain ⟨v, means⟩ := needs h
      exact means_of_flattens down flat' means hp
    · rintro ⟨dict, b'⟩ ⟨sane', grows, all, parts, leaves, same'⟩
      exact ⟨sane', ⟨grows.lookups, grows.objects⟩, _, all, flat', parts, leaves, same'⟩

/-! ## Pairs of a list -/

/-- A mapping without merge keys stays as it is. -/
theorem flattens_unmerged {i : Nat} {tag : Tag} {start : Option Mark} {pairs all : List (Nat × Nat)}
    (here : g₀.vertex? i = some ⟨tag, start, .mapping pairs⟩)
    (unmerged : ∀ p ∈ pairs, g₀.merges p = false) (flat : g₀.Flattens i all) : all = pairs := by
  obtain ⟨_, _, _, brought, here', sources, rfl⟩ := flattens_iff.mp flat
  cases here.symm.trans here'
  rw [filter_eq_nil_of unmerged] at sources
  cases sources
  exact filter_eq_self_of unmerged

/-- One more object, which is no node's. -/
theorem Sane.add (sane : Sane g₀ H past current b) (o : Object) :
    Sane g₀ H past current { b with store := (b.store.add o).2 } ∧
      Grows b { b with store := (b.store.add o).2 } := by
  exact ⟨(sane.housed.add (lasts_fills g₀) o).sane sane.size sane.flat
    (fun j ref known => (sane.inside j ref known).1) sane.needed, grows_add b o⟩

/-- One pair of a list of pairs. -/
def pairItem (keyed : Bool) (v : Vertex) (j : Nat) : Build Nat := do
  let sub ← vertex j
  match sub.body with
  | .mapping [(k, value)] =>
    let key ← object k
    let value ← object value
    let (ref, store) := (← get).store.add (.tuple [key, value])
    modify fun b => { b with store }
    return ref
  | .mapping pairs => fault (.pairsCount keyed pairs.length) v.start sub.start
  | _ => fault (.pairsMapping keyed sub.kind) v.start sub.start

theorem pairItem_spec (plain : g₀.Plain) (down : g₀.Descends rank) (sane : Sane g₀ H past current b)
    (keyed : Bool) (v : Vertex) {j : Nat} (inside : j < g₀.vertices.size)
    (unmerged : ∀ p ∈ g₀.pairs j, g₀.merges p = false)
    (needs : H → ∃ p, g₀.Single j p ∧ (∃ k, g₀.Means p.1 k) ∧ ∃ w, g₀.Means p.2 w) :
    OkWhen H (fun r => Sane g₀ H past current r.2 ∧ Grows b r.2 ∧
      ∃ p, g₀.Single j p ∧ Tupled r.2 p r.1) ((pairItem keyed v j).run b) := by
  obtain ⟨⟨tag, start, body⟩, here⟩ := exists_vertex inside
  have refused (many : ∀ p, body ≠ .mapping [p]) : ¬ H := by
    intro h
    obtain ⟨p, ⟨_, _, here'⟩, -⟩ := needs h
    cases here.symm.trans here'
    exact many p rfl
  rw [pairItem, run_bind_of_ok (vertex_run j b)]
  cases body with
  | scalar s =>
    rw [(sane.flat j).of_scalar here]
    exact refused nofun
  | sequence items =>
    rw [(sane.flat j).of_sequence here]
    exact refused nofun
  | mapping pairs =>
    have same : b.graph.vertex? j = some ⟨tag, start, .mapping pairs⟩ := by
      rcases sane.flat j with same | ⟨_, _, _, all, here', flat, now⟩
      · exact same.trans here
      · cases here.symm.trans here'
        rw [pairs_of_vertex? here] at unmerged
        rw [now, flattens_unmerged here unmerged flat]
    rw [same]
    dsimp only [Option.getD_some]
    match pairs, here with
    | [], _ => exact refused nofun
    | _ :: _ :: _, _ => exact refused (by rintro p ⟨⟩)
    | [(k, value)], here =>
      have single : g₀.Single j (k, value) := ⟨_, _, here⟩
      have below := single.inside down
      have needs : H → (∃ u, g₀.Means k u) ∧ ∃ u, g₀.Means value u := by
        intro h
        obtain ⟨p, single', key, value⟩ := needs h
        cases single.unique single'
        exact ⟨key, value⟩
      dsimp only
      rw [StateT.run_bind]
      refine (object_spec plain sane below.1 fun h => (needs h).1).bind id ?_
      rintro ⟨key, b'⟩ made
      dsimp only
      rw [StateT.run_bind]
      refine (object_spec plain made.sane below.2 fun h => (needs h).2).bind id ?_
      rintro ⟨ref, b''⟩ made'
      obtain ⟨sane', grows⟩ := made'.sane.add (.tuple [key, ref])
      refine ⟨sane', (made.grows.trans made'.grows).trans grows, (k, value), single, (key, ref),
        ⟨?_, made'.known⟩, ?_⟩
      · exact made'.grows.lookups _ _ made.known
      · show (b''.store.objects.push _)[b''.store.objects.size]? = _
        rw [Array.getElem?_push_size]

/-- The pairs of a list of pairs, one after another. -/
theorem mapM_pairItem_spec (plain : g₀.Plain) (down : g₀.Descends rank) (keyed : Bool) (v : Vertex)
    {items : List Nat} (inside : ∀ j ∈ items, j < g₀.vertices.size)
    (unmerged : ∀ j ∈ items, ∀ p ∈ g₀.pairs j, g₀.merges p = false)
    (needs : H → ∀ j ∈ items, ∃ p, g₀.Single j p ∧ (∃ k, g₀.Means p.1 k) ∧ ∃ w, g₀.Means p.2 w)
    (sane : Sane g₀ H past current b) :
    OkWhen H (fun r => Sane g₀ H past current r.2 ∧ Grows b r.2 ∧ ∃ all,
      List.Forall₂ g₀.Single items all ∧ List.Forall₂ (Tupled r.2) all r.1)
      ((items.mapM (pairItem keyed v)).run b) := by
  induction items generalizing b with
  | nil =>
    rw [List.mapM_nil]
    exact ⟨sane, .refl b, [], .nil, .nil⟩
  | cons j r ih =>
    rw [List.mapM_cons, StateT.run_bind]
    refine (pairItem_spec plain down sane keyed v (inside j List.mem_cons_self)
      (unmerged j List.mem_cons_self) fun h => needs h j List.mem_cons_self).bind id ?_
    rintro ⟨ref, b'⟩ ⟨sane', grows, p, single, tupled⟩
    rw [StateT.run_bind]
    refine (ih (fun k hk => inside k (List.mem_cons_of_mem j hk))
      (fun k hk => unmerged k (List.mem_cons_of_mem j hk))
      (fun h k hk => needs h k (List.mem_cons_of_mem j hk)) sane').bind id ?_
    rintro ⟨refs, b''⟩ ⟨sane'', grows', all, singles, parts⟩
    exact ⟨sane'', grows.trans grows', p :: all, .cons single singles,
      .cons (grows'.keeps.tupled tupled) parts⟩

theorem pairItems_spec (plain : g₀.Plain) (down : g₀.Descends rank) (keyed : Bool)
    (sane : Sane g₀ H past current b) {i : Nat} {tag : Tag} {start : Option Mark} {items : List Nat}
    (here : g₀.vertex? i = some ⟨tag, start, .sequence items⟩) (paired : tag.isPaired = true)
    (needs : H → ∃ v, g₀.Means i v) :
    OkWhen H (fun r => Sane g₀ H past current r.2 ∧ Grows b r.2 ∧ ∃ all,
      List.Forall₂ g₀.Single items all ∧ List.Forall₂ (Tupled r.2) all r.1)
      ((pairItems keyed i).run b) := by
  rw [pairItems, run_bind_of_ok (vertex_run i b), (sane.flat i).of_sequence here]
  refine mapM_pairItem_spec plain down keyed _ (down.inside i _ here)
    (plain.singles i tag start items here paired) ?_ sane
  intro h j hj
  obtain ⟨v, means⟩ := needs h
  rcases means.of_sequence here with ⟨rfl, -⟩ | ⟨-, all, entries, singles, reads, -⟩
  · cases paired
  · obtain ⟨p, hp, single⟩ := mem_of_forall₂ singles.flip hj
    obtain ⟨e, -, key, value⟩ := mem_of_forall₂ reads.flip hp
    exact ⟨p, single, ⟨_, key⟩, _, value⟩

/-! ## The content of a collection -/

/-- Nothing fills a node that is not of the kind that its tag asks for. -/
theorem content_misfit {i : Nat} {v : Vertex} (now : b.graph.vertex? i = some v)
    (container : v.tag.isContainer = true) (misfit : v.isFit = false) :
    ∃ e, (content i).run b = .error e := by
  obtain ⟨tag, start, body⟩ := v
  have noEntries (other : ∀ pairs, body ≠ .mapping pairs) : ∃ e, (entries i).run b = .error e := by
    rw [entries, run_bind_of_ok (vertex_run i b), now]
    cases body with
    | mapping pairs => exact absurd rfl (other pairs)
    | scalar | sequence => exact ⟨_, rfl⟩
  have noPairs (keyed : Bool) (other : ∀ items, body ≠ .sequence items) :
      ∃ e, (pairItems keyed i).run b = .error e := by
    rw [pairItems, run_bind_of_ok (vertex_run i b), now]
    cases body with
    | sequence items => exact absurd rfl (other items)
    | scalar | mapping => exact ⟨_, rfl⟩
  have chain {α : Type} {x : Build α} {f : α → Build Object} (h : ∃ e, x.run b = .error e) :
      ∃ e, (x >>= f).run b = .error e := by
    obtain ⟨e, h⟩ := h
    rw [StateT.run_bind, h]
    exact ⟨e, rfl⟩
  rw [content, run_bind_of_ok (vertex_run i b), now]
  dsimp only [Option.getD_some]
  cases tag with
  | map | set => exact chain (noEntries (by rintro pairs rfl; cases misfit))
  | omap => exact chain (noPairs true (by rintro items rfl; cases misfit))
  | pairs => exact chain (noPairs false (by rintro items rfl; cases misfit))
  | seq =>
    cases body with
    | sequence items => cases misfit
    | scalar | mapping => exact ⟨_, rfl⟩
  | _ => cases container

/-- A node between two changes is of the kind that it was. -/
theorem FlatAt.exists_vertex {g : Graph} {i : Nat} (h : FlatAt g₀ g i) {v : Vertex}
    (here : g₀.vertex? i = some v) :
    ∃ w, g.vertex? i = some w ∧ w.tag = v.tag ∧ w.isFit = v.isFit := by
  rcases h with same | ⟨tag, start, pairs, all, before, -, now⟩
  · exact ⟨v, same.trans here, rfl, rfl⟩
  · cases here.symm.trans before
    exact ⟨_, now, rfl, by cases tag <;> rfl⟩

/-- The content of a collection that is of the kind that its tag asks for. -/
theorem content_fit (down : g₀.Descends rank) (plain : g₀.Plain) (sane : Sane g₀ H past current b)
    {i : Nat} {tag : Tag} {start : Option Mark} {body : Vertex.Body}
    (here : g₀.vertex? i = some ⟨tag, start, body⟩)
    (fit : (⟨tag, start, body⟩ : Vertex).isFit = true) (needs : H → ∃ v, g₀.Means i v) :
    OkWhen H (fun r => Sane g₀ H past current r.2 ∧ Grows b r.2 ∧ Fills g₀ r.2 i r.1)
      ((content i).run b) := by
  rw [content, run_bind_of_ok (vertex_run i b)]
  cases body with
  | scalar s => cases tag <;> cases fit
  | sequence items =>
    have pairList (keyed : Bool) (paired : tag.isPaired = true) :
        OkWhen H (fun r => Sane g₀ H past current r.2 ∧ Grows b r.2 ∧ Fills g₀ r.2 i r.1)
          ((do return .list (← pairItems keyed i) : Build Object).run b) := by
      rw [StateT.run_bind]
      refine (pairItems_spec plain down keyed sane here paired needs).bind id ?_
      rintro ⟨refs, b'⟩ ⟨sane', grows, all, singles, parts⟩
      exact ⟨sane', grows, .tuples here paired singles parts⟩
    rw [(sane.flat i).of_sequence here]
    dsimp only [Option.getD_some]
    cases tag with
    | omap => exact pairList true rfl
    | pairs => exact pairList false rfl
    | seq =>
      dsimp only
      rw [StateT.run_bind]
      refine (objects_spec plain sane (down.inside i _ here) ?_).bind id ?_
      · intro h c hc
        obtain ⟨v, means⟩ := needs h
        obtain ⟨values, parts, -⟩ := means.of_seq here
        obtain ⟨w, -, part⟩ := mem_of_forall₂ parts.flip hc
        exact ⟨w, part⟩
      · rintro ⟨refs, b'⟩ ⟨sane', grows, parts⟩
        exact ⟨sane', grows, .list here parts⟩
    | _ => cases fit
  | mapping pairs =>
    obtain ⟨now, same⟩ := (sane.flat i).of_mapping here
    have filled := entries_spec down plain sane here needs
    rw [same]
    dsimp only [Option.getD_some]
    cases tag with
    | map =>
      dsimp only
      rw [StateT.run_bind]
      refine filled.bind id ?_
      rintro ⟨dict, b'⟩ ⟨sane', grows, all, refs, flat, parts, leaves, same'⟩
      dsimp only at same' ⊢
      rw [same']
      exact ⟨sane', grows, .dict here flat parts leaves⟩
    | set =>
      dsimp only
      rw [StateT.run_bind]
      refine filled.bind id ?_
      rintro ⟨dict, b'⟩ ⟨sane', grows, all, refs, flat, parts, leaves, same'⟩
      dsimp only at same' ⊢
      rw [same']
      exact ⟨sane', grows, .set here flat parts leaves⟩
    | _ => cases fit

/-- The content of an object that waits. -/
theorem content_spec (down : g₀.Descends rank) (plain : g₀.Plain) (sane : Sane g₀ H past current b)
    {i : Nat} (mine : i ∈ current) :
    OkWhen H (fun r => Sane g₀ H past current r.2 ∧ Grows b r.2 ∧ Fills g₀ r.2 i r.1)
      ((content i).run b) := by
  obtain ⟨ref, known, -, v, here, container⟩ := sane.waits i (List.mem_append_left _ mine)
  have needs : H → ∃ v, g₀.Means i v := fun h => sane.needed h i ref known
  cases fit : v.isFit with
  | true => exact content_fit down plain sane here fit needs
  | false =>
    obtain ⟨w, now, tag, kind⟩ := (sane.flat i).exists_vertex here
    obtain ⟨e, failed⟩ := content_misfit now (tag ▸ container) (kind.trans fit)
    rw [failed]
    intro h
    obtain ⟨x, means⟩ := needs h
    rcases fits_of_means here means with ⟨text, -, reads⟩ | fit'
    · rw [scalarValue?_of_isContainer container] at reads
      cases reads
    · rw [fit] at fit'
      cases fit'

/-! ## Filling all objects -/

/-- The object that is being filled gets its content. -/
theorem Sane.replace {i : Nat} (sane : Sane g₀ H past [i] b) {ref : Nat}
    (known : b.built.lookup i = some ref) {o : Object} (fills : Fills g₀ b i o) :
    Sane g₀ H (past ++ [i]) [] { b with store := b.store.replace ref o } := by
  have housed := sane.housed.replace (lasts_fills g₀) known fills
  exact housed.sane sane.size sane.flat (fun j ref known => (sane.inside j ref known).1) sane.needed

/-- Objects are filled until none waits. Every node waits once, so the steps suffice. -/
theorem fill_spec (down : g₀.Descends rank) (plain : g₀.Plain) {steps : Nat}
    (sane : Sane g₀ H past [] b) (enough : g₀.vertices.size < past.length + steps) :
    OkWhen H (fun r => (∃ past, Sane g₀ H past [] r.2) ∧ r.2.waiting = [] ∧
      ∀ j ref, b.built.lookup j = some ref → r.2.built.lookup j = some ref) ((fill steps).run b) := by
  induction steps generalizing past b with
  | zero =>
    have bound := sane.housed.length_le
    omega
  | succ steps ih =>
    rw [fill, run_bind_of_ok (s := b) (t := b) (a := b) rfl]
    cases queue : b.waiting with
    | nil => exact ⟨⟨past, sane⟩, queue, fun _ _ l => l⟩
    | cons i r =>
      have housed : Housed g₀ (Fills g₀) past [i] { b with waiting := r } :=
        sane.housed.keep (lasts_fills g₀) rfl rfl queue.symm
      have sane' := housed.sane sane.size sane.flat (fun j ref known => (sane.inside j ref known).1)
        sane.needed
      dsimp only
      rw [run_bind_of_ok (s := b) (t := { b with waiting := r }) (a := ⟨⟩) rfl, StateT.run_bind]
      refine (content_spec down plain sane' (List.mem_singleton_self i)).bind id ?_
      rintro ⟨o, b'⟩ ⟨sane'', grows, fills⟩
      dsimp only at sane'' grows fills ⊢
      obtain ⟨ref, known, -⟩ := sane''.waits i (by simp)
      rw [run_bind_of_ok (s := b') (t := b') (a := b') rfl, known, Option.getD_some,
        run_bind_of_ok (s := b') (t := { b' with store := b'.store.replace ref o }) (a := ⟨⟩) rfl]
      refine (ih (sane''.replace known fills) ?_).mono id ?_
      · rw [List.length_append, List.length_singleton]
        omega
      · rintro ⟨_, last⟩ ⟨done, empty, kept⟩
        exact ⟨done, empty, fun j ref l => kept j ref (grows.lookups j ref l)⟩

end Construct

end YamlEdit
