import YamlEdit.Proofs.Load.Build
import YamlEdit.Proofs.Load.Replace

/-!
# What is built of any graph

A graph with circles, value keys or keys that are no number can be built too. What is known then of the
object of a node is what it holds (`Arises`): the scalar that it is read as, or the references of the
node's parts, as the node is in one of the graphs that replacing merge keys has led to by then.
-/

namespace YamlEdit

/-- The tag under which a scalar is read in the end: a value key is a string. -/
def Tag.settled : Tag → Tag
  | .value => .str
  | tag => tag

theorem Graph.scalarValue?_of_retags {tag tag' : Tag} (tags : Retags tag tag') {s : Text} {x : Value}
    (reads : scalarValue? tag' s = some x) : scalarValue? tag.settled s = some x := by
  rcases tags with rfl | ⟨rfl, rfl⟩
  · cases tag' with
    | value => cases reads
    | _ => exact reads
  · exact reads

namespace Construct

open YamlEdit.Graph

/-- A graph that replacing the merge keys of mappings leads to. -/
inductive Replaced (g₀ : Graph) : Graph → Prop
  | start : Replaced g₀ g₀
  | next {g g' : Graph} {i : Nat} (before : Replaced g₀ g)
    (mapping : ∃ tag start pairs, g.vertex? i = some ⟨tag, start, .mapping pairs⟩)
    (flat : flatten g i = .ok g') : Replaced g₀ g'

/-- The text of a node: that of a scalar, or some text of a mapping with a value key. -/
inductive Texted (g : Graph) : Vertex.Body → Text → Prop
  | scalar (s : Text) : Texted g (.scalar s) s
  | valued {pairs : List (Nat × Nat)} {p : Nat × Nat} (listed : p ∈ pairs)
    (value : g.tag? p.1 = some .value) (s : Text) : Texted g (.mapping pairs) s

/-- What an object holds for a node, as the node was in a graph on the way. -/
inductive Arises (g₀ : Graph) (b : Builder) (i : Nat) : Object → Prop
  | leaf {g : Graph} {v : Vertex} {s : Text} {x : Value} (reached : Replaced g₀ g)
    (here : (g.vertex? i).getD default = v) (text : Texted g v.body s)
    (reads : scalarValue? v.tag s = some x) : Arises g₀ b i (.leaf x)
  | list {g : Graph} {start : Option Mark} {items refs : List Nat} (reached : Replaced g₀ g)
    (here : g.vertex? i = some ⟨.seq, start, .sequence items⟩)
    (parts : List.Forall₂ (fun c ref => b.built.lookup c = some ref) items refs) :
    Arises g₀ b i (.list refs)
  | dict {g g' : Graph} {start : Option Mark} {pairs refs : List (Nat × Nat)}
    (reached : Replaced g₀ g) (here : g.vertex? i = some ⟨.map, start, .mapping pairs⟩)
    (flat : flatten g i = .ok g') (parts : List.Forall₂ (Pairs b) (g'.pairs i) refs)
    (leaves : ∀ q ∈ refs, b.store.HasLeaf q.1) : Arises g₀ b i (.dict (b.store.gather refs))
  | set {g g' : Graph} {start : Option Mark} {pairs refs : List (Nat × Nat)}
    (reached : Replaced g₀ g) (here : g.vertex? i = some ⟨.set, start, .mapping pairs⟩)
    (flat : flatten g i = .ok g') (parts : List.Forall₂ (Pairs b) (g'.pairs i) refs)
    (leaves : ∀ q ∈ refs, b.store.HasLeaf q.1) :
    Arises g₀ b i (.set ((b.store.gather refs).map (·.1)))
  | tuples {g : Graph} {tag : Tag} {start : Option Mark} {items refs : List Nat}
    {all : List (Nat × Nat)} (reached : Replaced g₀ g)
    (here : g.vertex? i = some ⟨tag, start, .sequence items⟩) (paired : tag.isPaired = true)
    (singles : List.Forall₂ g.Single items all) (parts : List.Forall₂ (Tupled b) all refs) :
    Arises g₀ b i (.list refs)

variable {g₀ : Graph} {b b' : Builder} {past current : List Nat}

theorem Replaced.evolves {g : Graph} (h : Replaced g₀ g) : Evolves g₀ g := by
  induction h with
  | start => exact .refl g₀
  | next _ mapping flat ih => exact ih.trans (flatten_evolves mapping flat).1

/-- What an object holds stays while references, scalars and pairs stay. -/
theorem lasts_arises (g₀ : Graph) : Lasts (Arises g₀) := by
  intro b b' i o keeps arises
  cases arises with
  | leaf reached here text reads => exact .leaf reached here text reads
  | list reached here parts => exact .list reached here (parts.imp fun c ref l => keeps.lookups c ref l)
  | dict reached here flat parts leaves =>
    rw [← Store.gather_congr leaves keeps.leaves]
    exact .dict reached here flat (parts.imp fun _ _ => keeps.pairs)
      fun q hq => keeps.hasLeaf (leaves q hq)
  | set reached here flat parts leaves =>
    rw [← Store.gather_congr leaves keeps.leaves]
    exact .set reached here flat (parts.imp fun _ _ => keeps.pairs)
      fun q hq => keeps.hasLeaf (leaves q hq)
  | tuples reached here paired singles parts =>
    exact .tuples reached here paired singles (parts.imp fun _ _ => keeps.tupled)

/-- The object of a scalar holds what its text is read as, a value key's as a string. -/
theorem Arises.of_scalar {i : Nat} {o : Object} (arises : Arises g₀ b i o) {tag : Tag}
    {start : Option Mark} {s : Text} (here : g₀.vertex? i = some ⟨tag, start, .scalar s⟩) :
    ∃ x, scalarValue? tag.settled s = some x ∧ o = .leaf x := by
  have still {g : Graph} (reached : Replaced g₀ g) :
      ∃ tag', Retags tag tag' ∧ g.vertex? i = some ⟨tag', start, .scalar s⟩ := by
    obtain ⟨w, now, turns⟩ := reached.evolves.nodes i _ here
    cases turns with
    | same tags => exact ⟨_, tags, now⟩
  cases arises with
  | leaf reached here' text reads =>
    obtain ⟨tag', tags, now⟩ := still reached
    rw [now, Option.getD_some] at here'
    subst here'
    cases text with
    | scalar => exact ⟨_, scalarValue?_of_retags tags reads, rfl⟩
  | list reached here' | dict reached here' | set reached here' | tuples reached here' =>
    obtain ⟨tag', -, now⟩ := still reached
    cases now.symm.trans here'

/-- The object of a sequence holds the objects of its items. -/
theorem Arises.of_seq {i : Nat} {o : Object} (arises : Arises g₀ b i o) {start : Option Mark}
    {items : List Nat} (here : g₀.vertex? i = some ⟨.seq, start, .sequence items⟩) :
    ∃ refs, List.Forall₂ (fun c ref => b.built.lookup c = some ref) items refs ∧ o = .list refs := by
  have still {g : Graph} (reached : Replaced g₀ g) :
      g.vertex? i = some ⟨.seq, start, .sequence items⟩ := by
    obtain ⟨w, now, turns⟩ := reached.evolves.nodes i _ here
    cases turns with
    | same tags =>
      rcases tags with rfl | ⟨other, -⟩
      · exact now
      · cases other
  cases arises with
  | leaf reached here' text reads =>
    rw [still reached, Option.getD_some] at here'
    subst here'
    cases text
  | list reached here' parts =>
    cases (still reached).symm.trans here'
    exact ⟨_, parts, rfl⟩
  | dict reached here' | set reached here' => cases (still reached).symm.trans here'
  | tuples reached here' paired =>
    cases (still reached).symm.trans here'
    cases paired

/-- The object of a mapping holds the objects of its own pairs behind others. -/
theorem Arises.of_map {i : Nat} {o : Object} (arises : Arises g₀ b i o) {start : Option Mark}
    {pairs : List (Nat × Nat)} (here : g₀.vertex? i = some ⟨.map, start, .mapping pairs⟩) :
    ∃ all refs, (pairs.filter fun p => !g₀.merges p) <:+ all ∧
      List.Forall₂ (Pairs b) all refs ∧ (∀ q ∈ refs, b.store.HasLeaf q.1) ∧
        o = .dict (b.store.gather refs) := by
  have still {g : Graph} (reached : Replaced g₀ g) :
      ∃ now, g.vertex? i = some ⟨.map, start, .mapping now⟩ := by
    obtain ⟨w, now, turns⟩ := reached.evolves.nodes i _ here
    cases turns with
    | same tags | settled tags =>
      rcases tags with rfl | ⟨other, -⟩
      · exact ⟨_, now⟩
      · cases other
  cases arises with
  | leaf reached here' text reads =>
    obtain ⟨now, there⟩ := still reached
    rw [there, Option.getD_some] at here'
    subst here'
    cases reads
  | @dict g g' start' pairs' refs reached here' flat parts leaves =>
    refine ⟨g'.pairs i, refs, ?_, parts, leaves, rfl⟩
    obtain ⟨evolves, none⟩ := flatten_evolves ⟨_, _, _, here'⟩ flat
    obtain ⟨w, now, turns⟩ := (reached.evolves.trans evolves).nodes i _ here
    rw [reached.evolves.merges] at none
    rw [pairs_eq now] at none ⊢
    cases turns with
    | same =>
      rw [show (pairs.filter fun p => !g₀.merges p) = pairs from filter_own_of_none none]
      exact List.suffix_refl _
    | settled _ _ own => exact own
  | list reached here' | set reached here' | tuples reached here' =>
    obtain ⟨now, there⟩ := still reached
    cases there.symm.trans here'

/-- A state of building a graph. -/
structure Going (g₀ : Graph) (past current : List Nat) (b : Builder) : Prop where
  reached : Replaced g₀ b.graph
  housed : Housed g₀ (Arises g₀) past current b

/-- A state that another leads to while objects are made for parts of a collection. -/
structure Onward (g₀ : Graph) (past current : List Nat) (b b' : Builder) : Prop where
  going : Going g₀ past current b'
  grows : Grows b b'
  graph : b'.graph = b.graph

theorem Going.onward (going : Going g₀ past current b) : Onward g₀ past current b b :=
  ⟨going, .refl b, rfl⟩

theorem Onward.trans {b'' : Builder} (h : Onward g₀ past current b b')
    (h' : Onward g₀ past current b' b'') : Onward g₀ past current b b'' :=
  ⟨h'.going, h.grows.trans h'.grows, h'.graph.trans h.graph⟩

/-! ## The object of a node -/

/-- Reading a text changes nothing. -/
theorem scalarText_meets (steps i : Nat) (b : Builder) :
    Meets (fun s b' => b' = b ∧ Texted b.graph ((b.graph.vertex? i).getD default).body s)
      (scalarText steps i) b := by
  induction steps generalizing i with
  | zero => exact ⟨fun _ _ h => by cases h⟩
  | succ steps ih =>
    refine ⟨fun s b' h => ?_⟩
    rw [scalarText, run_bind_of_ok (vertex_run i b)] at h
    cases body : ((b.graph.vertex? i).getD default).body with
    | scalar text =>
      rw [body] at h
      cases h
      exact ⟨rfl, .scalar _⟩
    | sequence items =>
      rw [body] at h
      cases h
    | mapping pairs =>
      rw [body] at h
      dsimp only at h
      rw [run_bind_of_ok (s := b) (t := b) (a := b) rfl] at h
      cases found : pairs.find? fun p => b.graph.tag? p.1 == some .value with
      | none =>
        rw [found] at h
        cases h
      | some p =>
        rw [found] at h
        exact ⟨((ih p.2).run s b' h).1, .valued (List.mem_of_find?_eq_some found)
          (by simpa using List.find?_some found) s⟩

theorem text_meets (i : Nat) (b : Builder) :
    Meets (fun s b' => b' = b ∧ Texted b.graph ((b.graph.vertex? i).getD default).body s) (text i) b :=
  ⟨fun s b' h => (scalarText_meets (b.graph.vertices.size + 1) i b).run s b' h⟩

section

variable (going : Going g₀ past current b) {i : Nat} (fresh : b.built.lookup i = none)
include going fresh

theorem Going.with {o : Object} {waiting : List Nat}
    (slot : (waiting = b.waiting ∧ Arises g₀ b i o) ∨ (waiting = b.waiting ++ [i] ∧
      (o = .list [] ∨ o = .dict [] ∨ o = .set []) ∧
        ∃ v, g₀.vertex? i = some v ∧ v.tag.isContainer = true)) :
    Onward g₀ past current b (b.with i o waiting) ∧
      (b.with i o waiting).built.lookup i = some b.store.objects.size :=
  ⟨⟨⟨going.reached, going.housed.with (lasts_arises g₀) fresh slot⟩, grows_with fresh _ _, rfl⟩,
    lookup_with.trans (if_pos rfl)⟩

/-- A node whose text is read. -/
theorem leaf_meets {v : Vertex} (here : (b.graph.vertex? i).getD default = v) {s : Text} {x : Value}
    (text : Texted b.graph v.body s) (reads : scalarValue? v.tag s = some x) :
    Meets (fun ref b' => Onward g₀ past current b b' ∧ b'.built.lookup i = some ref) (leaf i x) b := by
  refine ⟨fun ref b' h => ?_⟩
  cases h
  exact going.with fresh (.inl ⟨rfl, .leaf going.reached here text reads⟩)

theorem literal_meets {v : Vertex} (here : (b.graph.vertex? i).getD default = v) {s : Text}
    (text : Texted b.graph v.body s) {x : Except LiteralFault Value}
    (reads : scalarValue? v.tag s = x.toOption) :
    Meets (fun ref b' => Onward g₀ past current b b' ∧ b'.built.lookup i = some ref)
      (literal x >>= leaf i) b := by
  cases x with
  | error f => exact ⟨fun _ _ h => by cases h⟩
  | ok x => exact leaf_meets going fresh here text reads

theorem later_meets {v : Vertex} (here : (b.graph.vertex? i).getD default = v)
    (container : v.tag.isContainer = true) {o : Object}
    (empty : o = .list [] ∨ o = .dict [] ∨ o = .set []) :
    Meets (fun ref b' => Onward g₀ past current b b' ∧ b'.built.lookup i = some ref) (later i o) b := by
  refine ⟨fun ref b' h => ?_⟩
  cases h
  refine going.with fresh (.inr ⟨rfl, empty, ?_⟩)
  cases found : b.graph.vertex? i with
  | none =>
    rw [found] at here
    subst here
    cases container
  | some w =>
    rw [found, Option.getD_some] at here
    subst here
    obtain ⟨u, there, turns⟩ := going.reached.evolves.node_of found
    refine ⟨u, there, ?_⟩
    rcases turns.tag with same | ⟨-, string⟩
    · rwa [← same]
    · rw [string] at container
      cases container

end

/-- The object of a node of any graph. -/
theorem object_meets (going : Going g₀ past current b) (i : Nat) :
    Meets (fun ref b' => Onward g₀ past current b b' ∧ b'.built.lookup i = some ref) (object i) b := by
  rw [object]
  refine .bind (.of_get ?_)
  cases fresh : b.built.lookup i with
  | some ref => exact .of_pure ⟨going.onward, fresh⟩
  | none =>
    refine .bind ⟨fun v b' h => ?_⟩
    rw [vertex_run] at h
    cases h
    generalize here : (b.graph.vertex? i).getD default = v
    have read {f : Text → Build Nat} (next : ∀ s, Texted b.graph v.body s → Meets
        (fun ref b' => Onward g₀ past current b b' ∧ b'.built.lookup i = some ref) (f s) b) :
        Meets (fun ref b' => Onward g₀ past current b b' ∧ b'.built.lookup i = some ref)
          (text i >>= f) b := by
      refine .bind ((text_meets i b).mono ?_)
      rintro s _ ⟨rfl, text⟩
      exact next s (here ▸ text)
    have parsed {x : Text → Except LiteralFault Value}
        (reads : ∀ s, scalarValue? v.tag s = (x s).toOption) :
        Meets (fun ref b' => Onward g₀ past current b b' ∧ b'.built.lookup i = some ref)
          (do leaf i (← literal (x (← text i)))) b :=
      read fun s text => literal_meets going fresh here text (reads s)
    have late {o : Object} (container : v.tag.isContainer = true)
        (empty : o = .list [] ∨ o = .dict [] ∨ o = .set []) :=
      later_meets going fresh here container empty
    cases tagged : v.tag with
    | null => exact read fun s text => leaf_meets going fresh here text (by rw [tagged]; rfl)
    | str => exact read fun s text => leaf_meets going fresh here text (by rw [tagged]; rfl)
    | bool => exact parsed fun s => by rw [tagged]; rfl
    | int => exact parsed fun s => by rw [tagged]; rfl
    | float => exact parsed fun s => by rw [tagged]; rfl
    | timestamp =>
      refine read fun s text => .ite (fun _ => ⟨fun _ _ h => by cases h⟩) fun _ => ?_
      exact literal_meets going fresh here text (by rw [tagged]; rfl)
    | binary =>
      refine read fun s text => ?_
      cases bytes : Literal.binary s with
      | error cause => exact ⟨fun _ _ h => by cases h⟩
      | ok x =>
        refine leaf_meets going fresh here text ?_
        rw [tagged, scalarValue?, bytes]
        rfl
    | seq => exact late (by rw [tagged]; rfl) (.inl rfl)
    | map => exact late (by rw [tagged]; rfl) (.inr (.inl rfl))
    | set => exact late (by rw [tagged]; rfl) (.inr (.inr rfl))
    | omap => exact late (by rw [tagged]; rfl) (.inl rfl)
    | pairs => exact late (by rw [tagged]; rfl) (.inl rfl)
    | merge | value | other => exact ⟨fun _ _ h => by cases h⟩

/-- The objects of several nodes. -/
theorem objects_meets (going : Going g₀ past current b) (items : List Nat) :
    Meets (fun refs b' => Onward g₀ past current b b' ∧
      List.Forall₂ (fun c ref => b'.built.lookup c = some ref) items refs) (items.mapM object) b := by
  induction items generalizing b with
  | nil =>
    rw [List.mapM_nil]
    exact .of_pure ⟨going.onward, .nil⟩
  | cons c r ih =>
    rw [List.mapM_cons]
    refine .bind ((object_meets going c).mono ?_)
    rintro ref b' ⟨onward, known⟩
    refine .bind ((ih onward.going).mono ?_)
    rintro refs b'' ⟨onward', parts⟩
    exact .of_pure ⟨onward.trans onward', .cons (onward'.grows.lookups c ref known) parts⟩

/-! ## Filling an object -/

/-- What can be a key is a leaf. -/
theorem isHashable_meets (going : Going g₀ past current b) {k key : Nat}
    (known : b.built.lookup k = some key) :
    Meets (fun yes b' => b' = b ∧ (yes = true → b.store.HasLeaf key)) (isHashable key) b := by
  rw [isHashable]
  refine .bind (.of_get ?_)
  by_cases waits : k ∈ current ++ b.waiting
  · obtain ⟨ref, known', ⟨o, here, empty⟩, -⟩ := going.housed.waits k waits
    cases known.symm.trans known'
    rw [here]
    rcases empty with rfl | rfl | rfl
    all_goals exact .of_pure ⟨rfl, fun h => by cases h⟩
  · obtain ⟨o, here, arises⟩ := going.housed.filled k key known waits
    rw [here]
    cases arises with
    | leaf => exact .of_pure ⟨rfl, fun _ => ⟨_, here⟩⟩
    | list | dict | set | tuples => exact .of_pure ⟨rfl, fun h => by cases h⟩

theorem addEntry_meets (going : Going g₀ past current b) (v : Vertex) (dict : List (Nat × Nat))
    (p : Nat × Nat) :
    Meets (fun r b' => Onward g₀ past current b b' ∧ ∃ q, Pairs b' p q ∧ b'.store.HasLeaf q.1 ∧
      r = b'.store.putEntry dict q.1 q.2) (addEntry v dict p) b := by
  rw [addEntry]
  refine .bind ((object_meets going p.1).mono ?_)
  rintro key b' ⟨onward, known⟩
  refine .bind ((isHashable_meets onward.going known).mono ?_)
  rintro yes _ ⟨rfl, leaf⟩
  refine .ite (fun _ => ⟨fun _ _ h => by cases h⟩) fun hashable => ?_
  refine .bind ((object_meets onward.going p.2).mono ?_)
  rintro value b'' ⟨onward', known'⟩
  refine .bind (.of_get (.of_pure ⟨onward.trans onward', (key, value), ?_, ?_, rfl⟩))
  · exact ⟨onward'.grows.lookups _ _ known, known'⟩
  · exact onward'.grows.keeps.hasLeaf (leaf (by simpa using hashable))

/-- The entries of a mapping, one after another. -/
theorem foldlM_addEntry_meets (going : Going g₀ past current b) (v : Vertex)
    {rest seen refs : List (Nat × Nat)} (parts : List.Forall₂ (Pairs b) seen refs)
    (leaves : ∀ q ∈ refs, b.store.HasLeaf q.1) :
    Meets (fun dict b' => Onward g₀ past current b b' ∧ ∃ all,
      List.Forall₂ (Pairs b') (seen ++ rest) all ∧ (∀ q ∈ all, b'.store.HasLeaf q.1) ∧
        dict = b'.store.gather all) (rest.foldlM (addEntry v) (b.store.gather refs)) b := by
  induction rest generalizing b seen refs with
  | nil =>
    rw [List.append_nil]
    exact .of_pure ⟨going.onward, refs, parts, leaves, rfl⟩
  | cons p r ih =>
    rw [List.foldlM_cons]
    refine .bind ((addEntry_meets going v _ p).mono ?_)
    rintro _ b' ⟨onward, q, pair, leaf, rfl⟩
    have more : b'.store.putEntry (b.store.gather refs) q.1 q.2 = b'.store.gather (refs ++ [q]) := by
      rw [← Store.gather_congr leaves onward.grows.keeps.leaves, Store.gather, Store.gather,
        List.foldl_append]
      rfl
    rw [more]
    have parts' : List.Forall₂ (Pairs b') (seen ++ [p]) (refs ++ [q]) :=
      List.rel_append (parts.imp fun _ _ => onward.grows.keeps.pairs) (.cons pair .nil)
    refine (ih onward.going parts' ?_).mono ?_
    · refine List.forall_mem_append.mpr ⟨?_, List.forall_mem_singleton.mpr leaf⟩
      exact fun d hd => onward.grows.keeps.hasLeaf (leaves d hd)
    · rintro dict b'' ⟨onward', all, parts', rest'⟩
      rw [List.append_assoc, List.singleton_append] at parts'
      exact ⟨onward.trans onward', all, parts', rest'⟩

/-- The entries of a mapping, behind its merge keys. -/
theorem entries_meets (going : Going g₀ past current b) (i : Nat) :
    Meets (fun dict b' => Going g₀ past current b' ∧ Grows b b' ∧ ∃ tag start pairs refs,
      b.graph.vertex? i = some ⟨tag, start, .mapping pairs⟩ ∧
      flatten b.graph i = .ok b'.graph ∧ List.Forall₂ (Pairs b') (b'.graph.pairs i) refs ∧
        (∀ q ∈ refs, b'.store.HasLeaf q.1) ∧ dict = b'.store.gather refs) (entries i) b := by
  rw [entries]
  refine .bind ⟨fun v b' h => ?_⟩
  rw [vertex_run] at h
  cases h
  cases here : b.graph.vertex? i with
  | none => exact ⟨fun _ _ h => by cases h⟩
  | some v =>
    obtain ⟨tag, start, body⟩ := v
    cases body with
    | scalar | sequence => exact ⟨fun _ _ h => by cases h⟩
    | mapping pairs =>
      refine .bind (.of_get ?_)
      cases flat : flatten b.graph i with
      | error e => exact ⟨fun _ _ h => by cases h⟩
      | ok graph =>
        have next : Going g₀ past current { b with graph } :=
          ⟨going.reached.next ⟨_, _, _, here⟩ flat, going.housed.keep (lasts_arises g₀) rfl rfl rfl⟩
        refine .bind (.of_modify ?_)
        have none : List.Forall₂ (Pairs { b with graph }) [] [] := .nil
        refine (foldlM_addEntry_meets next ⟨tag, start, .mapping pairs⟩ none
          (List.forall_mem_nil _)).mono ?_
        rintro dict b' ⟨onward, refs, parts, leaves, same⟩
        refine ⟨onward.going, ⟨onward.grows.lookups, onward.grows.objects⟩, tag, start, pairs, refs,
          rfl, ?_, ?_, leaves, same⟩
        · rw [onward.graph]
        · rw [onward.graph]
          exact parts

/-- One pair of a list of pairs. -/
theorem pairItem_meets (going : Going g₀ past current b) (keyed : Bool) (v : Vertex) (j : Nat) :
    Meets (fun ref b' => Onward g₀ past current b b' ∧ ∃ p, b.graph.Single j p ∧ Tupled b' p ref)
      (pairItem keyed v j) b := by
  rw [pairItem]
  refine .bind ⟨fun u b' h => ?_⟩
  rw [vertex_run] at h
  cases h
  cases here : b.graph.vertex? j with
  | none => exact ⟨fun _ _ h => by cases h⟩
  | some u =>
    obtain ⟨tag, start, body⟩ := u
    cases body with
    | scalar | sequence => exact ⟨fun _ _ h => by cases h⟩
    | mapping pairs =>
      rcases pairs with _ | ⟨⟨k, value⟩, _ | ⟨second, rest⟩⟩
      · exact ⟨fun _ _ h => by cases h⟩
      · refine .bind ((object_meets going k).mono ?_)
        rintro key b' ⟨onward, known⟩
        refine .bind ((object_meets onward.going value).mono ?_)
        rintro ref b'' ⟨onward', known'⟩
        have added := grows_add b'' (.tuple [key, ref])
        have next : Onward g₀ past current b'' { b'' with store := (b''.store.add (.tuple [key, ref])).2 } :=
          ⟨⟨onward'.going.reached, onward'.going.housed.add (lasts_arises g₀) _⟩, added, rfl⟩
        refine .bind (.of_get (.bind (.of_modify (.of_pure
          ⟨(onward.trans onward').trans next, (k, value), ⟨tag, start, here⟩, (key, ref), ?_, ?_⟩))))
        · exact ⟨onward'.grows.lookups _ _ known, known'⟩
        · show (b''.store.objects.push _)[b''.store.objects.size]? = _
          rw [Array.getElem?_push_size]
      · exact ⟨fun _ _ h => by cases h⟩

/-- The pairs of a list of pairs, one after another. -/
theorem mapM_pairItem_meets (going : Going g₀ past current b) (keyed : Bool) (v : Vertex)
    (items : List Nat) :
    Meets (fun refs b' => Onward g₀ past current b b' ∧ ∃ all,
      List.Forall₂ b.graph.Single items all ∧ List.Forall₂ (Tupled b') all refs)
      (items.mapM (pairItem keyed v)) b := by
  induction items generalizing b with
  | nil =>
    rw [List.mapM_nil]
    exact .of_pure ⟨going.onward, [], .nil, .nil⟩
  | cons j r ih =>
    rw [List.mapM_cons]
    refine .bind ((pairItem_meets going keyed v j).mono ?_)
    rintro ref b' ⟨onward, p, single, tupled⟩
    refine .bind ((ih onward.going).mono ?_)
    rintro refs b'' ⟨onward', all, singles, parts⟩
    rw [onward.graph] at singles
    exact .of_pure ⟨onward.trans onward', p :: all, .cons single singles,
      .cons (onward'.grows.keeps.tupled tupled) parts⟩

theorem pairItems_meets (going : Going g₀ past current b) (keyed : Bool) (i : Nat) :
    Meets (fun refs b' => Onward g₀ past current b b' ∧ ∃ tag start items all,
      b.graph.vertex? i = some ⟨tag, start, .sequence items⟩ ∧
      List.Forall₂ b.graph.Single items all ∧ List.Forall₂ (Tupled b') all refs)
      (pairItems keyed i) b := by
  rw [pairItems]
  refine .bind ⟨fun v b' h => ?_⟩
  rw [vertex_run] at h
  cases h
  cases here : b.graph.vertex? i with
  | none => exact ⟨fun _ _ h => by cases h⟩
  | some v =>
    obtain ⟨tag, start, body⟩ := v
    cases body with
    | scalar | mapping => exact ⟨fun _ _ h => by cases h⟩
    | sequence items =>
      refine (mapM_pairItem_meets going keyed ⟨tag, start, .sequence items⟩ items).mono ?_
      rintro refs b' ⟨onward, all, singles, parts⟩
      exact ⟨onward, tag, start, items, all, rfl, singles, parts⟩

/-! ## Filling all objects -/

/-- The content of an object that waits. -/
theorem content_meets (going : Going g₀ past current b) {i : Nat} {v : Vertex}
    (here : b.graph.vertex? i = some v) (container : v.tag.isContainer = true) :
    Meets (fun o b' => Going g₀ past current b' ∧ Grows b b' ∧ Arises g₀ b' i o) (content i) b := by
  obtain ⟨tag, start, body⟩ := v
  have paired (keyed : Bool) (paired : tag.isPaired = true) :
      Meets (fun o b' => Going g₀ past current b' ∧ Grows b b' ∧ Arises g₀ b' i o)
        (do return .list (← pairItems keyed i)) b := by
    refine .bind ((pairItems_meets going keyed i).mono ?_)
    rintro refs b' ⟨onward, tag', start', items, all, here', singles, parts⟩
    cases here.symm.trans here'
    exact .of_pure ⟨onward.going, onward.grows, .tuples going.reached here paired singles parts⟩
  rw [content]
  refine .bind ⟨fun u b' h => ?_⟩
  rw [vertex_run, here] at h
  cases h
  cases tag with
  | map =>
    refine .bind ((entries_meets going i).mono ?_)
    rintro _ b' ⟨going', grows, tag', start', pairs, refs, here', flat, parts, leaves, rfl⟩
    cases here.symm.trans here'
    exact .of_pure ⟨going', grows, .dict going.reached here flat parts leaves⟩
  | set =>
    refine .bind ((entries_meets going i).mono ?_)
    rintro _ b' ⟨going', grows, tag', start', pairs, refs, here', flat, parts, leaves, rfl⟩
    cases here.symm.trans here'
    exact .of_pure ⟨going', grows, .set going.reached here flat parts leaves⟩
  | omap => exact paired true rfl
  | pairs => exact paired false rfl
  | seq =>
    cases body with
    | scalar | mapping => exact ⟨fun _ _ h => by cases h⟩
    | sequence items =>
      refine .bind ((objects_meets going items).mono ?_)
      rintro refs b' ⟨onward, parts⟩
      exact .of_pure ⟨onward.going, onward.grows, .list going.reached here parts⟩
  | _ => cases container

/-- Objects are filled until none waits. Every node waits once, so the steps suffice. -/
theorem fill_meets (steps : Nat) (going : Going g₀ past [] b)
    (enough : g₀.vertices.size < past.length + steps) :
    Meets (fun _ b' => (∃ past, Going g₀ past [] b') ∧ b'.waiting = [] ∧
      ∀ j ref, b.built.lookup j = some ref → b'.built.lookup j = some ref) (fill steps) b := by
  induction steps generalizing past b with
  | zero =>
    have bound := going.housed.length_le
    omega
  | succ steps ih =>
    rw [fill]
    refine .bind (.of_get ?_)
    cases queue : b.waiting with
    | nil => exact .of_pure ⟨⟨past, going⟩, queue, fun _ _ l => l⟩
    | cons i r =>
      have taken : Going g₀ past [i] { b with waiting := r } :=
        ⟨going.reached, going.housed.keep (lasts_arises g₀) rfl rfl queue.symm⟩
      obtain ⟨ref, known, -, v, here, container⟩ := taken.housed.waits i (by simp)
      obtain ⟨w, now, turns⟩ := taken.reached.evolves.nodes i v here
      have still : w.tag.isContainer = true := by
        rcases turns.tag with same | ⟨value, -⟩
        · rwa [same]
        · rw [value] at container
          cases container
      refine .bind (.of_modify (.bind ((content_meets taken now still).mono ?_)))
      rintro o b' ⟨going', grows, arises⟩
      refine .bind (.of_get (.bind (.of_modify ?_)))
      rw [grows.lookups i ref known, Option.getD_some]
      have next : Going g₀ (past ++ [i]) [] { b' with store := b'.store.replace ref o } :=
        ⟨going'.reached,
          going'.housed.replace (lasts_arises g₀) (grows.lookups i ref known) arises⟩
      refine (ih next ?_).mono ?_
      · rw [List.length_append, List.length_singleton]
        omega
      · rintro _ last ⟨done, empty, kept⟩
        exact ⟨done, empty, fun j ref l => kept j ref (grows.lookups j ref l)⟩

/-- What has been built of a graph: every object holds what its node asks for. -/
theorem run_meets {g : Graph} {d : Loaded} (ran : run g = .ok d) :
    ∃ b past, d.store = b.store ∧ Going g past [] b ∧ b.waiting = [] ∧
      b.built.lookup g.root = some d.root := by
  have start : Going g [] [] { graph := g } := by
    refine ⟨.start, nofun, nofun, nofun, nofun, nofun, List.nodup_nil⟩
  rw [run] at ran
  obtain ⟨⟨root, b⟩, built, ended⟩ := bind_eq_ok.mp ran
  cases ended
  have meets : Meets (fun root b => (∃ past, Going g past [] b) ∧ b.waiting = [] ∧
      b.built.lookup g.root = some root) (do
        let ref ← object g.root
        fill (g.vertices.size + 1)
        return ref) { graph := g } := by
    refine .bind ((object_meets start g.root).mono ?_)
    rintro ref b ⟨onward, known⟩
    refine .bind ((fill_meets _ onward.going (by simp)).mono ?_)
    rintro _ b' ⟨done, empty, kept⟩
    exact .of_pure ⟨done, empty, kept g.root ref known⟩
  obtain ⟨⟨past, going⟩, empty, known⟩ := meets.run root b built
  exact ⟨b, past, rfl, going, empty, known⟩

end Construct

end YamlEdit
