import YamlEdit.Proofs.Graph.Part
import YamlEdit.Proofs.Outcome

/-!
# Replacing merge keys in any graph

A graph may have circles, value keys and keys that are no number, and a mapping may even be merged
into itself. What replacing merge keys does to it can still be told of each node (`Turns`): a value
key may become a string, and a mapping gets other pairs in front of its own. Of a closed part that is
plain and without circles more is known: its mappings get the pairs that their merge keys bring there,
whatever is replaced around it.
-/

namespace YamlEdit

/-- The pairs of a mapping. -/
def Vertex.pairs (v : Vertex) : List (Nat × Nat) :=
  match v.body with
  | .mapping pairs => pairs
  | _ => []

namespace Graph

theorem pairs_eq {g : Graph} {j : Nat} {v : Vertex} (here : g.vertex? j = some v) :
    g.pairs j = v.pairs := by
  obtain ⟨tag, start, body⟩ := v
  rw [pairs, here]
  cases body <;> rfl

/-- A tag stays, but that a value key may become a string. -/
def Retags (tag tag' : Tag) : Prop :=
  tag' = tag ∨ (tag = .value ∧ tag' = .str)

/-- What becomes of a node of a graph while merge keys are replaced. -/
inductive Turns (g : Graph) : Vertex → Vertex → Prop
  | same {tag tag' : Tag} {start : Option Mark} {body : Vertex.Body} (tags : Retags tag tag') :
    Turns g ⟨tag, start, body⟩ ⟨tag', start, body⟩
  | settled {tag tag' : Tag} {start : Option Mark} {pairs all : List (Nat × Nat)}
    (tags : Retags tag tag') (none : ∀ p ∈ all, g.merges p = false)
    (own : (pairs.filter fun p => !g.merges p) <:+ all) :
    Turns g ⟨tag, start, .mapping pairs⟩ ⟨tag', start, .mapping all⟩

/-- A graph in which merge keys have been replaced. -/
structure Evolves (g g' : Graph) : Prop where
  size : g'.vertices.size = g.vertices.size
  merges : g'.merges = g.merges
  nodes : ∀ j v, g.vertex? j = some v → ∃ w, g'.vertex? j = some w ∧ Turns g v w

theorem Retags.trans {a b c : Tag} (h : Retags a b) (h' : Retags b c) : Retags a c := by
  rcases h with rfl | ⟨rfl, rfl⟩
  · exact h'
  · rcases h' with rfl | ⟨other, -⟩
    · exact .inr ⟨rfl, rfl⟩
    · cases other

variable {g g' g'' : Graph}

theorem filter_own_of_none {l : List (Nat × Nat)} (none : ∀ p ∈ l, g.merges p = false) :
    (l.filter fun p => !g.merges p) = l :=
  Construct.filter_eq_self_of none

theorem Turns.tag {u v : Vertex} (h : Turns g u v) : Retags u.tag v.tag := by
  cases h with
  | same tags => exact tags
  | settled tags => exact tags

theorem Turns.trans {u v w : Vertex} (h : Turns g u v) (h' : Turns g v w) : Turns g u w := by
  cases h with
  | same tags =>
    cases h' with
    | same tags' => exact .same (tags.trans tags')
    | settled tags' none own => exact .settled (tags.trans tags') none own
  | settled tags none own =>
    cases h' with
    | same tags' => exact .settled (tags.trans tags') none own
    | settled tags' none' own' =>
      rw [filter_own_of_none none] at own'
      exact .settled (tags.trans tags') none' (own.trans own')

namespace Evolves

theorem refl (g : Graph) : Evolves g g :=
  ⟨rfl, rfl, fun _ v here => ⟨v, here, .same (.inl rfl)⟩⟩

theorem turns (h : Evolves g g') {u v : Vertex} (t : Turns g' u v) : Turns g u v := by
  cases t with
  | same tags => exact .same tags
  | settled tags none own =>
    rw [h.merges] at none own
    exact .settled tags none own

theorem trans (h : Evolves g g') (h' : Evolves g' g'') : Evolves g g'' := by
  refine ⟨h'.size.trans h.size, h'.merges.trans h.merges, ?_⟩
  intro j v here
  obtain ⟨w, there, first⟩ := h.nodes j v here
  obtain ⟨x, last, second⟩ := h'.nodes j w there
  exact ⟨x, last, first.trans (h.turns second)⟩

/-- A node that leads on comes from one that does. -/
theorem node_of (h : Evolves g g') {j : Nat} {w : Vertex} (there : g'.vertex? j = some w) :
    ∃ v, g.vertex? j = some v ∧ Turns g v w := by
  have bound := lt_of_vertex? there
  rw [h.size] at bound
  obtain ⟨v, here⟩ := exists_vertex bound
  obtain ⟨w', there', turns⟩ := h.nodes j v here
  cases there.symm.trans there'
  exact ⟨v, here, turns⟩

/-- A mapping stays one. -/
theorem mapping (h : Evolves g g') {j : Nat} {tag : Tag} {start : Option Mark}
    {pairs : List (Nat × Nat)} (here : g.vertex? j = some ⟨tag, start, .mapping pairs⟩) :
    ∃ tag' all, g'.vertex? j = some ⟨tag', start, .mapping all⟩ := by
  obtain ⟨w, there, turns⟩ := h.nodes j _ here
  cases turns with
  | same => exact ⟨_, _, there⟩
  | settled => exact ⟨_, _, there⟩

/-- Its pairs stay, or have no merge keys any more. -/
theorem pairs (h : Evolves g g') (j : Nat) :
    g'.pairs j = g.pairs j ∨ ∀ p ∈ g'.pairs j, g.merges p = false := by
  cases here : g.vertex? j with
  | none =>
    have outside : g'.vertex? j = none := by
      refine Array.getElem?_eq_none_iff.mpr ?_
      rw [h.size]
      exact Array.getElem?_eq_none_iff.mp here
    rw [Graph.pairs, outside, Graph.pairs, here]
    exact .inl rfl
  | some v =>
    obtain ⟨w, there, turns⟩ := h.nodes j v here
    rw [pairs_eq there, pairs_eq here]
    cases turns with
    | same => exact .inl rfl
    | settled _ none _ => exact .inr none

/-- No mapping gets more merge keys. -/
theorem mergeKeys_le (h : Evolves g g') : Construct.mergeKeys g' ≤ Construct.mergeKeys g := by
  refine Graph.mergeKeys_le h.size fun j => ?_
  rw [mergesAt, mergesAt, h.merges]
  rcases h.pairs j with same | none
  · rw [same]
  · rw [Construct.filter_eq_nil_of none]
    exact Nat.zero_le _

/-- When a merge key has been taken out of a mapping and its merge keys have been replaced then, they
have been replaced in the graph as it was. -/
theorem of_erased {i : Nat} {tag : Tag} {start : Option Mark} {pairs rest : List (Nat × Nat)}
    (here : g.vertex? i = some ⟨tag, start, .mapping pairs⟩)
    (kept : (rest.filter fun p => !g.merges p) = pairs.filter fun p => !g.merges p)
    (h : Evolves (g.setBody i (.mapping rest)) g') (none : ∀ p ∈ g'.pairs i, g.merges p = false) :
    Evolves g g' := by
  have merges : (g.setBody i (.mapping rest)).merges = g.merges :=
    merges_congr fun j => tag?_setBody ..
  refine ⟨h.size.trans (size_setBody ..), h.merges.trans merges, ?_⟩
  intro j v there
  by_cases same : j = i
  · subst same
    cases here.symm.trans there
    obtain ⟨w, now, turns⟩ := h.nodes j _ (vertex?_setBody_self here _)
    rw [pairs_eq now] at none
    refine ⟨w, now, ?_⟩
    cases turns with
    | same tags =>
      refine .settled tags none ?_
      have own : (pairs.filter fun p => !g.merges p) = rest := kept.symm.trans (filter_own_of_none none)
      exact own ▸ List.suffix_refl rest
    | settled tags none' own =>
      rw [merges, kept] at own
      exact .settled tags none own
  · obtain ⟨w, now, turns⟩ := h.nodes j v ((vertex?_setBody same _).trans there)
    refine ⟨w, now, ?_⟩
    cases turns with
    | same tags => exact .same tags
    | settled tags none' own =>
      rw [merges] at none' own
      exact .settled tags none' own

end Evolves

/-- A value key that becomes a string. -/
theorem evolves_setTag {k : Nat} (value : g.tag? k = some .value) :
    Evolves g (g.setTag k .str) ∧ ∀ j, (g.setTag k .str).pairs j = g.pairs j := by
  obtain ⟨⟨tag, start, body⟩, here, rfl⟩ := Option.map_eq_some_iff.mp value
  have now : (g.setTag k .str).vertex? k = some ⟨.str, start, body⟩ := by
    rw [vertex?_setTag, if_pos rfl, here]
    rfl
  have others : ∀ j, j ≠ k → (g.setTag k .str).vertex? j = g.vertex? j := by
    intro j other
    rw [vertex?_setTag, if_neg (Ne.symm other)]
  refine ⟨⟨size_setTag .., ?_, ?_⟩, ?_⟩
  · funext p
    rw [Graph.merges, Graph.merges, tag?, tag?]
    by_cases same : p.1 = k
    · rw [same, now, here]
      rfl
    · rw [others p.1 same]
  · intro j v there
    by_cases same : j = k
    · subst same
      cases here.symm.trans there
      exact ⟨_, now, .same (.inr ⟨rfl, rfl⟩)⟩
    · exact ⟨v, (others j same).trans there, .same (.inl rfl)⟩
  · intro j
    by_cases same : j = k
    · rw [same, pairs_eq now, pairs_eq here]
      rfl
    · rw [Graph.pairs, others j same, Graph.pairs]

end Graph

namespace Construct

open YamlEdit.Graph

variable {g g' : Graph}

/-- The search for the next merge key, in any graph. -/
theorem nextMerge_evolves (g : Graph) (index : Nat) (l : List (Nat × Nat)) :
    Evolves g (nextMerge g index l).1 ∧ (∀ j, (nextMerge g index l).1.pairs j = g.pairs j) ∧
      match (nextMerge g index l).2 with
      | none => ∀ p ∈ l, g.merges p = false
      | some (place, v) => ∃ a k b, l = a ++ (k, v) :: b ∧ (∀ p ∈ a, g.merges p = false) ∧
          g.merges (k, v) = true ∧ place = index + a.length := by
  induction l generalizing g index with
  | nil => exact ⟨.refl g, fun _ => rfl, nofun⟩
  | cons p r ih =>
    obtain ⟨k, v⟩ := p
    by_cases merge : g.tag? k = some .merge
    · rw [nextMerge, merge]
      refine ⟨.refl g, fun _ => rfl, [], k, r, rfl, nofun, ?_, rfl⟩
      rw [Graph.merges, merge]
      rfl
    · have other : g.merges (k, v) = false := by
        rw [Graph.merges, beq_eq_false_iff_ne]
        exact merge
      -- the search goes on in the graph, or in the one where a value key is a string
      obtain ⟨h, step, evolves, pairs⟩ : ∃ h, nextMerge g index ((k, v) :: r) =
          nextMerge h (index + 1) r ∧ Evolves g h ∧ ∀ j, h.pairs j = g.pairs j := by
        rw [nextMerge]
        split
        · next tag => exact absurd tag merge
        · next tag => exact ⟨_, rfl, evolves_setTag tag⟩
        · exact ⟨g, rfl, .refl g, fun _ => rfl⟩
      obtain ⟨more, pairs', found⟩ := ih h (index + 1)
      rw [step]
      refine ⟨evolves.trans more, fun j => (pairs' j).trans (pairs j), ?_⟩
      rw [evolves.merges] at found
      cases next : (nextMerge h (index + 1) r).2 with
      | none =>
        rw [next] at found
        exact List.forall_mem_cons.mpr ⟨other, found⟩
      | some e =>
        rw [next] at found
        obtain ⟨a, k', b, rfl, before, here, place⟩ := found
        refine ⟨(k, v) :: a, k', b, rfl, List.forall_mem_cons.mpr ⟨other, before⟩, here, ?_⟩
        rw [place, List.length_cons, Nat.add_assoc, Nat.add_comm 1]

/-- The pairs of a merged sequence, in any graph. -/
theorem mergedItems_evolves {flatten : Graph → Nat → Except LoadError Graph} {node : Vertex}
    {keys : Nat}
    (each : ∀ g j, (∃ tag start pairs, g.vertex? j = some ⟨tag, start, .mapping pairs⟩) →
      mergeKeys g ≤ keys → ∀ g', flatten g j = .ok g' →
        Evolves g g' ∧ ∀ p ∈ g'.pairs j, g.merges p = false)
    {items : List Nat} {collected : List (List (Nat × Nat))} (enough : mergeKeys g ≤ keys)
    (plain : ∀ l ∈ collected, ∀ p ∈ l, g.merges p = false) {r : Graph × List (Nat × Nat)}
    (merged : mergedItems flatten node g items collected = .ok r) :
    Evolves g r.1 ∧ ∀ p ∈ r.2, g.merges p = false := by
  induction items generalizing g collected with
  | nil =>
    cases merged
    exact ⟨.refl g, List.forall_mem_flatten.mpr plain⟩
  | cons i rest ih =>
    cases here : g.vertex? i with
    | none =>
      rw [mergedItems, here] at merged
      cases merged
    | some v =>
      obtain ⟨tag, start, body⟩ := v
      rw [mergedItems, here] at merged
      cases body with
      | scalar | sequence => cases merged
      | mapping pairs =>
        obtain ⟨h, flat, merged⟩ := bind_eq_ok.mp merged
        obtain ⟨evolves, none⟩ := each g i ⟨_, _, _, here⟩ enough h flat
        obtain ⟨more, none'⟩ := ih (Nat.le_trans evolves.mergeKeys_le enough) (by
          rw [evolves.merges]
          exact List.forall_mem_cons.mpr ⟨none, plain⟩) merged
        rw [evolves.merges] at none'
        exact ⟨evolves.trans more, none'⟩

/-- One step of replacing the merge keys of a mapping `i` from an index on: the search for the next
merge key leads to a graph `h`, and then `i` is done, or what the key brings is merged. -/
inductive Replaces (keys : Nat) (g : Graph) (i index : Nat) (merged pairs : List (Nat × Nat))
    (g' : Graph) : Prop
  | done {h : Graph} (search : nextMerge g index (pairs.drop index) = (h, none))
    (same : g' = if merged.isEmpty then h else h.setBody i (.mapping (merged ++ pairs)))
  | mapping {h h' : Graph} {place v : Nat} {tag : Tag} {start : Option Mark}
    {brought : List (Nat × Nat)}
    (search : nextMerge g index (pairs.drop index) = (h, some (place, v)))
    (source : (h.setBody i (.mapping (pairs.eraseIdx place))).vertex? v =
      some ⟨tag, start, .mapping brought⟩)
    (flat : flattenFrom keys (h.setBody i (.mapping (pairs.eraseIdx place))) v 0 [] = .ok h')
    (rest : flattenFrom keys h' i place (merged ++ h'.pairs v) = .ok g')
  | sequence {h h' : Graph} {place v : Nat} {tag : Tag} {start : Option Mark} {items : List Nat}
    {more : List (Nat × Nat)}
    (search : nextMerge g index (pairs.drop index) = (h, some (place, v)))
    (source : (h.setBody i (.mapping (pairs.eraseIdx place))).vertex? v =
      some ⟨tag, start, .sequence items⟩)
    (flat : mergedItems (fun g j => flattenFrom keys g j 0 []) ((h.vertex? i).getD default)
      (h.setBody i (.mapping (pairs.eraseIdx place))) items [] = .ok (h', more))
    (rest : flattenFrom keys h' i place (merged ++ more) = .ok g')

/-- Replacing goes on step by step, while there are steps left. -/
theorem replaces_of_flattenFrom {keys : Nat} {i index : Nat} {merged pairs : List (Nat × Nat)}
    (here : g.pairs i = pairs) (flat : flattenFrom (keys + 1) g i index merged = .ok g') :
    Replaces keys g i index merged pairs g' := by
  rw [flattenFrom, here] at flat
  have same := (nextMerge_evolves g index (pairs.drop index)).2.1 i
  cases search : nextMerge g index (pairs.drop index) with
  | mk h found =>
    rw [search] at flat same
    dsimp only at flat same
    rw [same, here] at flat
    cases found with
    | none => exact .done search (Except.ok.inj flat).symm
    | some e =>
      obtain ⟨place, v⟩ := e
      dsimp only at flat
      cases source : (h.setBody i (.mapping (pairs.eraseIdx place))).vertex? v with
      | none =>
        rw [source] at flat
        cases flat
      | some s =>
        obtain ⟨tag, start, body⟩ := s
        rw [source] at flat
        cases body with
        | scalar => cases flat
        | mapping brought =>
          obtain ⟨h', first, rest⟩ := bind_eq_ok.mp flat
          exact .mapping search source first rest
        | sequence items =>
          obtain ⟨⟨h', more⟩, first, rest⟩ := bind_eq_ok.mp flat
          exact .sequence search source first rest

/-- Where no steps are left, the search still ends a mapping without merge keys. -/
theorem ended_of_flattenFrom {i index : Nat} {merged : List (Nat × Nat)}
    (flat : flattenFrom 0 g i index merged = .ok g') :
    ∃ h found, nextMerge g index ((g.pairs i).drop index) = (h, found) ∧
      g' = if found.isNone then
        if merged.isEmpty then h else h.setBody i (.mapping (merged ++ g.pairs i)) else h := by
  have same := (nextMerge_evolves g index ((g.pairs i).drop index)).2.1 i
  rw [flattenFrom] at flat
  cases search : nextMerge g index ((g.pairs i).drop index) with
  | mk h found =>
    rw [search] at flat same
    dsimp only at flat same
    rw [same] at flat
    refine ⟨h, found, rfl, ?_⟩
    cases found with
    | none => exact (Except.ok.inj flat).symm
    | some e => exact (Except.ok.inj flat).symm

theorem flattenFrom_of_replaces {keys : Nat} {i index : Nat} {merged pairs : List (Nat × Nat)}
    (here : g.pairs i = pairs) (replaces : Replaces keys g i index merged pairs g') :
    flattenFrom (keys + 1) g i index merged = .ok g' := by
  have same := (nextMerge_evolves g index (pairs.drop index)).2.1 i
  rw [flattenFrom, here]
  cases replaces with
  | done search ended =>
    rw [search] at same ⊢
    dsimp only at same ⊢
    rw [same, here, ended]
  | mapping search source flat rest =>
    rw [search] at same ⊢
    dsimp only at same ⊢
    rw [same, here, source]
    dsimp only [Option.getD_some]
    rw [flat]
    exact rest
  | sequence search source flat rest =>
    rw [search] at same ⊢
    dsimp only at same ⊢
    rw [same, here, source]
    dsimp only [Option.getD_some]
    rw [flat]
    exact rest

/-- The merge keys of a mapping have been replaced up to an index, and there are steps enough for
those that are left in the graph. -/
structure Ready (keys : Nat) (g : Graph) (i index : Nat) (merged : List (Nat × Nat)) : Prop where
  mapping : ∃ tag start pairs, g.vertex? i = some ⟨tag, start, .mapping pairs⟩
  plain : ∀ p ∈ merged, g.merges p = false
  seen : ∀ p ∈ (g.pairs i).take index, g.merges p = false
  enough : mergeKeys g ≤ keys

/-- The graph from which a merge key has been taken, before what it brings is looked at. -/
structure Erased (g h : Graph) (i place : Nat) : Prop where
  evolves : Evolves g h
  mapping : ∃ tag start, h.vertex? i = some ⟨tag, start, .mapping (g.pairs i)⟩
  kept : (((g.pairs i).eraseIdx place).filter fun p => !g.merges p) =
    (g.pairs i).filter fun p => !g.merges p
  seen : ∀ p ∈ ((g.pairs i).eraseIdx place).take place, g.merges p = false
  fewer : mergeKeys (h.setBody i (.mapping ((g.pairs i).eraseIdx place))) < mergeKeys g

variable {keys i index place v : Nat} {merged brought : List (Nat × Nat)} {h h' : Graph}

/-- Before anything is replaced. -/
theorem Ready.start (mapping : ∃ tag start pairs, g.vertex? i = some ⟨tag, start, .mapping pairs⟩)
    (enough : mergeKeys g ≤ keys) : Ready keys g i 0 [] :=
  ⟨mapping, List.forall_mem_nil _, List.forall_mem_nil _, enough⟩

theorem Ready.erased (ready : Ready keys g i index merged)
    (search : nextMerge g index ((g.pairs i).drop index) = (h, some (place, v))) :
    Erased g h i place := by
  obtain ⟨evolves, same, found⟩ := nextMerge_evolves g index ((g.pairs i).drop index)
  rw [search] at evolves same found
  dsimp only at evolves same found
  obtain ⟨a, k, b, cut, before, merge, rfl⟩ := found
  -- the mapping up to the merge key, and behind it
  obtain ⟨first, pairs, length, none⟩ : ∃ first, g.pairs i = first ++ (k, v) :: b ∧
      first.length = index + a.length ∧ ∀ p ∈ first, g.merges p = false := by
    have bound : index ≤ (g.pairs i).length := by
      have length := congrArg List.length cut
      rw [List.length_drop, List.length_append, List.length_cons] at length
      omega
    refine ⟨(g.pairs i).take index ++ a, ?_, ?_, List.forall_mem_append.mpr ⟨ready.seen, before⟩⟩
    · rw [List.append_assoc, ← cut, List.take_append_drop]
    · rw [List.length_append, List.length_take_of_le bound]
  obtain ⟨tag, start, own, here⟩ := ready.mapping
  obtain ⟨tag', all, now⟩ := evolves.mapping here
  obtain rfl : all = g.pairs i := by
    rw [← pairs_of_vertex? now, same]
  have rest : (g.pairs i).eraseIdx (index + a.length) = first ++ b := by
    rw [pairs, ← length, List.eraseIdx_append_of_length_le (Nat.le_refl _), Nat.sub_self,
      List.eraseIdx_cons_zero]
  have now' := vertex?_setBody_self now (.mapping (first ++ b))
  have less : ((first ++ b).filter h.merges).length < ((g.pairs i).filter h.merges).length := by
    simp only [pairs, evolves.merges, List.filter_append, List.filter_cons, merge, if_true,
      List.length_append, List.length_cons]
    omega
  have changes : Changes h h (h.setBody i (.mapping (first ++ b))) id i :=
    .setBody now (Nat.le_of_lt less)
  refine ⟨evolves, ⟨tag', start, now⟩, ?_, ?_, ?_⟩
  · rw [rest, pairs]
    simp [merge]
  · rw [rest, ← length, List.take_left]
    exact none
  · rw [rest]
    refine Nat.lt_of_lt_of_le (mergeKeys_lt changes.size changes.fewer (lt_of_vertex? now') ?_)
      evolves.mergeKeys_le
    rw [mergesAt, mergesAt, pairs_of_vertex? now', same, merges_congr changes.tags]
    exact less

/-- When the source of a merge key has been replaced, the rest of the mapping can be. -/
theorem Ready.next (ready : Ready (keys + 1) g i index merged)
    (search : nextMerge g index ((g.pairs i).drop index) = (h, some (place, v)))
    (source : Evolves (h.setBody i (.mapping ((g.pairs i).eraseIdx place))) h')
    (none : ∀ p ∈ brought, h'.merges p = false) :
    h'.merges = g.merges ∧ Ready keys h' i place (merged ++ brought) := by
  obtain ⟨evolves, ⟨tag, start, now⟩, -, seen, fewer⟩ := ready.erased search
  have erased := vertex?_setBody_self now (.mapping ((g.pairs i).eraseIdx place))
  have merges : h'.merges = g.merges :=
    source.merges.trans ((merges_congr fun j => tag?_setBody ..).trans evolves.merges)
  obtain ⟨tag', all, now'⟩ := source.mapping erased
  have less := source.mergeKeys_le
  have enough := ready.enough
  refine ⟨merges, ⟨_, _, _, now'⟩,
    List.forall_mem_append.mpr ⟨merges ▸ ready.plain, none⟩, ?_, by omega⟩
  rw [merges]
  rcases source.pairs i with same | none
  · rw [same, pairs_of_vertex? erased]
    exact seen
  · rw [← source.merges, merges] at none
    exact fun p hp => none p (List.mem_of_mem_take hp)

/-- A mapping without merge keys gets other pairs in front. -/
theorem evolves_setBody {pairs all : List (Nat × Nat)} {tag : Tag} {start : Option Mark}
    (here : g.vertex? i = some ⟨tag, start, .mapping pairs⟩)
    (plain : ∀ p ∈ all, g.merges p = false) (own : (pairs.filter fun p => !g.merges p) <:+ all) :
    Evolves g (g.setBody i (.mapping all)) := by
  refine ⟨size_setBody .., merges_congr fun j => tag?_setBody .., ?_⟩
  intro j v there
  by_cases same : j = i
  · subst same
    cases here.symm.trans there
    exact ⟨_, vertex?_setBody_self here _, .settled (.inl rfl) plain own⟩
  · exact ⟨v, (vertex?_setBody same _).trans there, .same (.inl rfl)⟩

/-- A mapping in which no merge key is found any more gets what was brought in front. -/
theorem Ready.done (ready : Ready keys g i index merged)
    (search : nextMerge g index ((g.pairs i).drop index) = (h, none))
    (same : g' = if merged.isEmpty then h else h.setBody i (.mapping (merged ++ g.pairs i))) :
    Evolves g g' ∧ ∀ p ∈ g'.pairs i, g.merges p = false := by
  obtain ⟨evolves, pairs, none⟩ := nextMerge_evolves g index ((g.pairs i).drop index)
  rw [search] at evolves pairs none
  dsimp only at evolves pairs none
  have own : ∀ p ∈ g.pairs i, g.merges p = false := by
    rw [← List.take_append_drop index (g.pairs i)]
    exact List.forall_mem_append.mpr ⟨ready.seen, none⟩
  subst same
  split
  · refine ⟨evolves, ?_⟩
    rw [pairs i]
    exact own
  · have all := List.forall_mem_append.mpr ⟨ready.plain, own⟩
    obtain ⟨tag, start, first, here⟩ := ready.mapping
    obtain ⟨tag', more, now⟩ := evolves.mapping here
    obtain rfl : more = g.pairs i := by
      rw [← pairs_of_vertex? now, pairs]
    refine ⟨evolves.trans (evolves_setBody now (evolves.merges ▸ all) ?_), ?_⟩
    · rw [filter_own_of_none (evolves.merges ▸ own)]
      exact List.suffix_append merged _
    · rw [pairs_of_vertex? (vertex?_setBody_self now _)]
      exact all

/-- Replacing the merge keys of a mapping from an index on, in any graph: the bound on the number of
steps is never met, and what comes out has no merge keys. -/
theorem flattenFrom_evolves (keys : Nat) {i index : Nat} {merged : List (Nat × Nat)}
    (ready : Ready keys g i index merged) (flat : flattenFrom keys g i index merged = .ok g') :
    Evolves g g' ∧ ∀ p ∈ g'.pairs i, g.merges p = false := by
  induction keys generalizing g i index merged g' with
  | zero =>
    obtain ⟨h, found, search, ended⟩ := ended_of_flattenFrom flat
    cases found with
    | none => exact ready.done search ended
    | some e =>
      have fewer := (ready.erased search).fewer
      have enough := ready.enough
      omega
  | succ keys ih =>
    -- what is left to do when the merge key has been taken out and its source replaced
    have goes_on {h h' : Graph} {place v : Nat} {brought : List (Nat × Nat)}
        (search : nextMerge g index ((g.pairs i).drop index) = (h, some (place, v)))
        (source : Evolves (h.setBody i (.mapping ((g.pairs i).eraseIdx place))) h')
        (none : ∀ p ∈ brought, h'.merges p = false)
        (rest : flattenFrom keys h' i place (merged ++ brought) = .ok g') :
        Evolves g g' ∧ ∀ p ∈ g'.pairs i, g.merges p = false := by
      obtain ⟨merges, ready'⟩ := ready.next search source none
      obtain ⟨done, last⟩ := ih ready' rest
      rw [merges] at last
      obtain ⟨evolves, ⟨tag, start, now⟩, kept, -⟩ := ready.erased search
      exact ⟨evolves.trans (.of_erased now (evolves.merges ▸ kept) (source.trans done)
        (evolves.merges ▸ last)), last⟩
    have enough {h : Graph} {place v : Nat}
        (search : nextMerge g index ((g.pairs i).drop index) = (h, some (place, v))) :
        mergeKeys (h.setBody i (.mapping ((g.pairs i).eraseIdx place))) ≤ keys := by
      have fewer := (ready.erased search).fewer
      have enough := ready.enough
      omega
    cases replaces_of_flattenFrom rfl flat with
    | done search same => exact ready.done search same
    | mapping search source flat rest =>
      obtain ⟨evolves, none⟩ := ih (.start ⟨_, _, _, source⟩ (enough search)) flat
      exact goes_on search evolves (evolves.merges ▸ none) rest
    | sequence search source flat rest =>
      obtain ⟨evolves, none⟩ := mergedItems_evolves
        (fun _ _ here enough _ flat => ih (.start here enough) flat) (enough search)
        (List.forall_mem_nil _) flat
      exact goes_on search evolves (evolves.merges ▸ none) rest

/-- Replacing the merge keys of a mapping, in any graph. -/
theorem flatten_evolves {i : Nat}
    (mapping : ∃ tag start pairs, g.vertex? i = some ⟨tag, start, .mapping pairs⟩)
    (flat : flatten g i = .ok g') : Evolves g g' ∧ ∀ p ∈ g'.pairs i, g.merges p = false :=
  flattenFrom_evolves _ (.start mapping (Nat.le_refl _)) flat

end Construct

end YamlEdit
