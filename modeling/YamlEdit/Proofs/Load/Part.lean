import YamlEdit.Proofs.Load.Build
import YamlEdit.Proofs.Load.Replace

/-!
# Replacing merge keys in a part of a graph

Replacing the merge keys of a mapping in a closed part of a graph does to the part what it does where
only the part is shown, and replacing those of other mappings does to the part no more than replacing
some of its own. So a part that is plain and without circles has each of its mappings as it was or
with its merge keys replaced, whatever the graph around it is like.
-/

namespace YamlEdit

namespace Graph

/-- A part that nothing leads out of and that has no value keys. -/
structure Sealed (g : Graph) (part : Nat → Bool) : Prop where
  closed : g.Closed part
  valueless : ∀ j, part j = true → g.tag? j ≠ some .value

variable {g g' : Graph} {part : Nat → Bool} {i : Nat}

/-- The pairs of a mapping of the part lie in it. -/
theorem Closed.pairs (closed : g.Closed part) (mine : part i = true) {p : Nat × Nat}
    (hp : p ∈ g.pairs i) : part p.1 = true ∧ part p.2 = true := by
  cases here : g.vertex? i with
  | none =>
    rw [Graph.pairs, here] at hp
    cases hp
  | some v =>
    obtain ⟨tag, start, body⟩ := v
    rw [pairs_eq here] at hp
    cases body with
    | scalar | sequence => cases hp
    | mapping pairs =>
      obtain ⟨key, value⟩ := Vertex.mem_parts_mapping tag start hp
      exact ⟨closed i mine _ here _ key, closed i mine _ here _ value⟩

/-- A mapping of the part gets other pairs of the part. -/
theorem Sealed.setBody (h : g.Sealed part) {all : List (Nat × Nat)}
    (inner : ∀ p ∈ all, part p.1 = true ∧ part p.2 = true) :
    (g.setBody i (.mapping all)).Sealed part := by
  refine ⟨?_, ?_⟩
  · intro j mine v here c hc
    by_cases same : j = i
    · subst same
      cases before : g.vertex? j with
      | none =>
        have outside := lt_of_vertex? here
        rw [size_setBody] at outside
        rw [vertex?, Array.getElem?_eq_getElem outside] at before
        cases before
      | some u =>
        cases (vertex?_setBody_self before _).symm.trans here
        obtain ⟨p, hp, hc⟩ := List.mem_flatMap.mp hc
        have ends : c = p.1 ∨ c = p.2 := by simpa using hc
        rcases ends with rfl | rfl
        · exact (inner p hp).1
        · exact (inner p hp).2
    · rw [Option.mem_def, vertex?_setBody same] at here
      exact h.closed j mine v here c hc
  · intro j mine
    rw [tag?_setBody]
    exact h.valueless j mine

end Graph

namespace Construct

open YamlEdit.Graph

variable {g g' : Graph} {part : Nat → Bool}

/-- The search for the next merge key sees what is shown. -/
theorem nextMerge_mask (sealed_ : g.Sealed part) (index : Nat) {l : List (Nat × Nat)}
    (keys : ∀ p ∈ l, part p.1 = true) :
    (nextMerge g index l).1 = g ∧
      nextMerge (g.mask part) index l = (g.mask part, (nextMerge g index l).2) := by
  induction l generalizing index with
  | nil => exact ⟨rfl, rfl⟩
  | cons p r ih =>
    obtain ⟨k, v⟩ := p
    have mine : part k = true := keys (k, v) List.mem_cons_self
    obtain ⟨same, shown⟩ := ih (index + 1) fun q hq => keys q (List.mem_cons_of_mem _ hq)
    rw [nextMerge, nextMerge, tag?_mask_of mine]
    split
    · exact ⟨rfl, rfl⟩
    · next value => exact absurd value (sealed_.valueless k mine)
    · exact ⟨same, shown⟩

/-- What merging the mappings of a sequence does to the part, where replacing does to the part what it
does where only the part is shown. -/
theorem mergedItems_mask {flatten : Graph → Nat → Except LoadError Graph} {node : Vertex}
    (each : ∀ g j g', g.Sealed part → part j = true → flatten g j = .ok g' →
      g'.Sealed part ∧ flatten (g.mask part) j = .ok (g'.mask part))
    {items : List Nat} {collected : List (List (Nat × Nat))} (sealed_ : g.Sealed part)
    (mine : ∀ j ∈ items, part j = true)
    (inner : ∀ l ∈ collected, ∀ p ∈ l, part p.1 = true ∧ part p.2 = true)
    {r : Graph × List (Nat × Nat)} (merged : mergedItems flatten node g items collected = .ok r) :
    (r.1.Sealed part ∧ ∀ p ∈ r.2, part p.1 = true ∧ part p.2 = true) ∧
      mergedItems flatten node (g.mask part) items collected = .ok (r.1.mask part, r.2) := by
  induction items generalizing g collected with
  | nil =>
    cases merged
    exact ⟨⟨sealed_, List.forall_mem_flatten.mpr inner⟩, rfl⟩
  | cons i rest ih =>
    have here := mine i List.mem_cons_self
    rw [mergedItems] at merged ⊢
    rw [vertex?_mask_of here]
    split at merged
    · obtain ⟨h, flat, merged⟩ := bind_eq_ok.mp merged
      obtain ⟨next, shown⟩ := each g i h sealed_ here flat
      rw [shown]
      refine (ih next (fun j hj => mine j (List.mem_cons_of_mem i hj)) ?_ merged).imp id fun done => ?_
      · exact List.forall_mem_cons.mpr ⟨fun p hp => next.closed.pairs here hp, inner⟩
      · rw [← pairs_mask_of here] at done
        exact done
    · cases merged

/-- A mapping of the part in which no merge key is found any more. -/
theorem mask_of_search {h : Graph} {i index : Nat} {merged : List (Nat × Nat)}
    (sealed_ : g.Sealed part) (mine : part i = true)
    (inner : ∀ p ∈ merged, part p.1 = true ∧ part p.2 = true)
    (search : nextMerge g index ((g.pairs i).drop index) = (h, none))
    (ended : g' = if merged.isEmpty then h else h.setBody i (.mapping (merged ++ g.pairs i))) :
    g'.Sealed part ∧ nextMerge (g.mask part) index ((g.pairs i).drop index) = (g.mask part, none) ∧
      g'.mask part = if merged.isEmpty then g.mask part
        else (g.mask part).setBody i (.mapping (merged ++ g.pairs i)) := by
  obtain ⟨same, shown⟩ := nextMerge_mask sealed_ index (l := (g.pairs i).drop index)
    fun p hp => (sealed_.closed.pairs mine (List.mem_of_mem_drop hp)).1
  rw [search] at same shown
  obtain rfl : h = g := same
  subst ended
  have more := List.forall_mem_append.mpr ⟨inner, fun p hp => sealed_.closed.pairs mine hp⟩
  split
  · exact ⟨sealed_, shown, rfl⟩
  · exact ⟨sealed_.setBody more, shown, mask_setBody mine _⟩

/-- A mapping of the part in which a merge key is found: the graph without it, and its source. -/
theorem mask_of_found {h : Graph} {i index place v : Nat} (sealed_ : g.Sealed part)
    (mine : part i = true)
    (search : nextMerge g index ((g.pairs i).drop index) = (h, some (place, v))) :
    h = g ∧ part v = true ∧ nextMerge (g.mask part) index ((g.pairs i).drop index) =
        (g.mask part, some (place, v)) ∧
      (g.setBody i (.mapping ((g.pairs i).eraseIdx place))).Sealed part ∧
      (g.mask part).setBody i (.mapping ((g.pairs i).eraseIdx place)) =
        (g.setBody i (.mapping ((g.pairs i).eraseIdx place))).mask part := by
  have own : ∀ p ∈ g.pairs i, part p.1 = true ∧ part p.2 = true :=
    fun p hp => sealed_.closed.pairs mine hp
  obtain ⟨same, shown⟩ := nextMerge_mask sealed_ index (l := (g.pairs i).drop index)
    fun p hp => (own p (List.mem_of_mem_drop hp)).1
  have found := (nextMerge_evolves g index ((g.pairs i).drop index)).2.2
  rw [search] at same shown found
  obtain ⟨a, k, b, cut, -⟩ := found
  have listed : (k, v) ∈ (g.pairs i).drop index := by
    rw [cut]
    exact List.mem_append_right a List.mem_cons_self
  exact ⟨same, (own _ (List.mem_of_mem_drop listed)).2, shown,
    sealed_.setBody fun p hp => own p (List.mem_of_mem_eraseIdx hp), (mask_setBody mine _).symm⟩

/-- Replacing the merge keys of a mapping in the part does to the part what it does where only the
part is shown. -/
theorem flattenFrom_mask (keys : Nat) {i index : Nat} {merged : List (Nat × Nat)}
    (sealed_ : g.Sealed part) (mine : part i = true)
    (inner : ∀ p ∈ merged, part p.1 = true ∧ part p.2 = true)
    (flat : flattenFrom keys g i index merged = .ok g') :
    g'.Sealed part ∧ flattenFrom keys (g.mask part) i index merged = .ok (g'.mask part) := by
  induction keys generalizing g index merged g' i with
  | zero =>
    obtain ⟨h, found, search, ended⟩ := ended_of_flattenFrom flat
    rw [flattenFrom, pairs_mask_of mine]
    cases found with
    | none =>
      obtain ⟨next, shown, ended⟩ := mask_of_search sealed_ mine inner search ended
      rw [shown]
      dsimp only
      rw [pairs_mask_of mine, ← ended]
      exact ⟨next, rfl⟩
    | some e =>
      obtain ⟨rfl, -, shown, -⟩ := mask_of_found sealed_ mine search
      cases ended
      rw [shown]
      exact ⟨sealed_, rfl⟩
  | succ keys ih =>
    suffices both : g'.Sealed part ∧
        Replaces keys (g.mask part) i index merged (g.pairs i) (g'.mask part) from
      both.imp id fun shown => flattenFrom_of_replaces (pairs_mask_of mine) shown
    cases replaces_of_flattenFrom rfl flat with
    | done search ended =>
      obtain ⟨next, shown, ended⟩ := mask_of_search sealed_ mine inner search ended
      exact ⟨next, .done shown ended⟩
    | mapping search source flat rest =>
      obtain ⟨rfl, led, shown, erased, masked⟩ := mask_of_found sealed_ mine search
      obtain ⟨between, flat'⟩ := ih erased led (List.forall_mem_nil _) flat
      obtain ⟨next, rest'⟩ := ih between mine
        (List.forall_mem_append.mpr ⟨inner, fun p hp => between.closed.pairs led hp⟩) rest
      rw [← vertex?_mask_of led, ← masked] at source
      rw [← masked] at flat'
      rw [← pairs_mask_of led] at rest'
      exact ⟨next, .mapping shown source flat' rest'⟩
    | sequence search source flat rest =>
      obtain ⟨rfl, led, shown, erased, masked⟩ := mask_of_found sealed_ mine search
      obtain ⟨⟨between, inner'⟩, flat'⟩ := mergedItems_mask
        (fun g j g' next mine flat => ih next mine (List.forall_mem_nil _) flat) erased
        (erased.closed _ led _ source) (List.forall_mem_nil _) flat
      obtain ⟨next, rest'⟩ := ih between mine (List.forall_mem_append.mpr ⟨inner, inner'⟩) rest
      rw [← vertex?_mask_of led, ← masked] at source
      rw [← masked, ← vertex?_mask_of mine] at flat'
      exact ⟨next, .sequence shown source flat' rest'⟩

/-! ## A plain part without circles -/

/-- A graph between two changes shows in a part what `g₀` is, but that some merge keys may have been
replaced. -/
structure Shows (g₀ : Graph) (part : Nat → Bool) (g : Graph) : Prop where
  size : g.vertices.size = g₀.vertices.size
  flat : ∀ j, FlatAt g₀ (g.mask part) j

/-- A part as a graph of its own: plain, without circles, and with no way out. -/
structure Apart (g₀ : Graph) (part : Nat → Bool) (rank : Nat → Nat) : Prop where
  plain : g₀.Plain
  down : g₀.Descends rank
  inner : ∀ i, ∀ v ∈ g₀.vertex? i, ∀ c ∈ v.parts, part c = true

variable {g₀ : Graph} {rank : Nat → Nat}

section

variable (apart : Apart g₀ part rank)
include apart

/-- The pairs of a mapping whose merge keys have been replaced lie in the part. -/
theorem Apart.flattens {i : Nat} {all : List (Nat × Nat)} (flat : g₀.Flattens i all) {p : Nat × Nat}
    (hp : p ∈ all) : part p.1 = true ∧ part p.2 = true := by
  obtain ⟨j, tag, start, pairs, -, here, listed⟩ := (flat.origin apart.down hp).listed
  obtain ⟨key, value⟩ := Vertex.mem_parts_mapping tag start listed
  exact ⟨apart.inner j _ here _ key, apart.inner j _ here _ value⟩

omit apart in
theorem Shows.tag? (shows : Shows g₀ part g) {j : Nat} (mine : part j = true) :
    g.tag? j = g₀.tag? j := by
  rw [← tag?_mask_of mine]
  exact (shows.flat j).tag?

theorem Shows.sealed_ (shows : Shows g₀ part g) : g.Sealed part := by
  refine ⟨?_, ?_⟩
  · intro i mine v here c hc
    rcases shows.flat i with same | ⟨tag, start, pairs, all, -, flat, now⟩
    · rw [vertex?_mask_of mine] at same
      exact apart.inner i v (same.symm.trans here) c hc
    · rw [vertex?_mask_of mine] at now
      cases now.symm.trans here
      obtain ⟨p, hp, hc⟩ := List.mem_flatMap.mp hc
      have ends : c = p.1 ∨ c = p.2 := by simpa using hc
      rcases ends with rfl | rfl
      · exact (apart.flattens flat hp).1
      · exact (apart.flattens flat hp).2
  · intro j mine
    rw [shows.tag? mine]
    exact apart.plain.valueless j

end

theorem mergeKeys_mask_le (closed : g.Closed part) : mergeKeys (g.mask part) ≤ mergeKeys g := by
  refine mergeKeys_le (size_mask g part) fun j => ?_
  cases mine : part j with
  | true =>
    have same : (g.pairs j).filter (g.mask part).merges = (g.pairs j).filter g.merges :=
      List.filter_congr fun p hp => merges_mask_of (closed.pairs mine hp).1
    rw [mergesAt, mergesAt, pairs_mask_of mine, same]
  | false =>
    have none : (g.mask part).pairs j = [] := by
      rw [Graph.pairs, vertex?_mask_of_not mine]
      cases g.vertex? j <;> rfl
    rw [mergesAt, none]
    exact Nat.zero_le _

section

variable (apart : Apart g₀ part rank)
include apart

/-- A mapping in the part gets the pairs that its merge keys bring in the part. -/
theorem shows_flattenFrom_start {keys i : Nat} (shows : Shows g₀ part g) (mine : part i = true)
    (mapping : ∃ tag start pairs, g.vertex? i = some ⟨tag, start, .mapping pairs⟩)
    (enough : mergeKeys g ≤ keys) (flat : flattenFrom keys g i 0 [] = .ok g') :
    Shows g₀ part g' ∧ g₀.Flattens i (g'.pairs i) := by
  have sealed_ := shows.sealed_ apart
  have size : (g.mask part).vertices.size = g₀.vertices.size := (size_mask g part).trans shows.size
  obtain ⟨-, shown⟩ := flattenFrom_mask keys sealed_ mine (List.forall_mem_nil _) flat
  obtain ⟨tag, start, pairs, here⟩ := mapping
  rw [← vertex?_mask_of mine] at here
  obtain ⟨own, there, -⟩ := (shows.flat i).mapping here
  have spec := flattenFrom_start apart.down apart.plain
    (fun _ _ h => flattenFrom_spec apart.down apart.plain keys h size
      (Nat.le_trans (mergeKeys_mask_le sealed_.closed) enough))
    (fun j => (shows.flat j).tag?) (fun j _ => shows.flat j) (shows.flat i) ⟨_, _, _, there⟩
  rw [shown] at spec
  have spec : Flattened g₀ (g.mask part) (g'.mask part) rank i := spec
  refine ⟨⟨?_, ?_⟩, ?_⟩
  · rw [← size_mask g' part, spec.size, size]
  · intro j
    by_cases same : j = i
    · rw [same]
      exact spec.flatAt
    · exact spec.nodes j same (shows.flat j)
  · rw [← pairs_mask_of mine]
    exact spec.flattens

omit apart in
theorem Shows.of_mask (shows : Shows g₀ part g) (same : g'.mask part = g.mask part) :
    Shows g₀ part g' := by
  refine ⟨?_, ?_⟩
  · rw [← size_mask g' part, same, size_mask g part, shows.size]
  · rw [same]
    exact shows.flat

omit apart in
/-- The value keys that the search makes strings lie outside. -/
theorem mask_nextMerge (valueless : ∀ j, part j = true → g.tag? j ≠ some .value) (index : Nat)
    (l : List (Nat × Nat)) : (nextMerge g index l).1.mask part = g.mask part := by
  induction l generalizing g index with
  | nil => rfl
  | cons p r ih =>
    obtain ⟨k, v⟩ := p
    rw [nextMerge]
    split
    · rfl
    · next value =>
      have other : part k = false := by
        cases mine : part k with
        | true => exact absurd value (valueless k mine)
        | false => rfl
      have same := mask_setTag_of_not (g := g) other .str
      refine (ih ?_ _).trans same
      intro j mine
      rw [← tag?_mask_of mine, same, tag?_mask_of mine]
      exact valueless j mine
    · exact ih valueless _

omit apart in
/-- What merging the mappings of a sequence leaves, where replacing keeps what is shown. -/
theorem shows_mergedItems {flatten : Graph → Nat → Except LoadError Graph} {node : Vertex}
    {keys : Nat}
    (each : ∀ g j g', Shows g₀ part g →
      (∃ tag start pairs, g.vertex? j = some ⟨tag, start, .mapping pairs⟩) → mergeKeys g ≤ keys →
        flatten g j = .ok g' → Shows g₀ part g' ∧ Evolves g g')
    {items : List Nat} {collected : List (List (Nat × Nat))} (shows : Shows g₀ part g)
    (enough : mergeKeys g ≤ keys) {r : Graph × List (Nat × Nat)}
    (merged : mergedItems flatten node g items collected = .ok r) : Shows g₀ part r.1 := by
  induction items generalizing g collected with
  | nil =>
    cases merged
    exact shows
  | cons i rest ih =>
    cases here : g.vertex? i with
    | none =>
      rw [mergedItems, here] at merged
      cases merged
    | some v =>
      obtain ⟨tag, start, body⟩ := v
      rw [mergedItems, here] at merged
      cases body with
      | scalar | sequence => cases merged
      | mapping pairs =>
        obtain ⟨h, flat, merged⟩ := bind_eq_ok.mp merged
        obtain ⟨shows', evolves⟩ := each g i h shows ⟨_, _, _, here⟩ enough flat
        exact ih shows' (Nat.le_trans evolves.mergeKeys_le enough) merged

/-- Replacing the merge keys of a mapping outside of the part. -/
theorem shows_flattenFrom (keys : Nat) {i index : Nat} {merged : List (Nat × Nat)}
    (shows : Shows g₀ part g) (other : part i = false) (ready : Ready keys g i index merged)
    (flat : flattenFrom keys g i index merged = .ok g') : Shows g₀ part g' := by
  have search_shows {g h : Graph} {index : Nat} {l : List (Nat × Nat)} {found : Option (Nat × Nat)}
      (shows : Shows g₀ part g) (search : nextMerge g index l = (h, found)) : Shows g₀ part h := by
    have same := mask_nextMerge (shows.sealed_ apart).valueless index l
    rw [search] at same
    exact shows.of_mask same
  induction keys generalizing g i index merged g' with
  | zero =>
    obtain ⟨h, found, search, rfl⟩ := ended_of_flattenFrom flat
    have shows' := search_shows shows search
    split
    · split
      · exact shows'
      · exact shows'.of_mask (mask_setBody_of_not other _)
    · exact shows'
  | succ keys ih =>
    -- mappings that are merged may lie in the part or outside
    have nested {g : Graph} {j : Nat} {g' : Graph} (shows : Shows g₀ part g)
        (mapping : ∃ tag start pairs, g.vertex? j = some ⟨tag, start, .mapping pairs⟩)
        (enough : mergeKeys g ≤ keys) (flat : flattenFrom keys g j 0 [] = .ok g') :
        Shows g₀ part g' := by
      cases place : part j with
      | true => exact (shows_flattenFrom_start apart shows place mapping enough flat).1
      | false => exact ih shows place (.start mapping enough) flat
    have erased {h : Graph} {place v : Nat}
        (search : nextMerge g index ((g.pairs i).drop index) = (h, some (place, v))) :
        Shows g₀ part (h.setBody i (.mapping ((g.pairs i).eraseIdx place))) ∧
          mergeKeys (h.setBody i (.mapping ((g.pairs i).eraseIdx place))) ≤ keys := by
      have fewer := (ready.erased search).fewer
      have enough := ready.enough
      exact ⟨(search_shows shows search).of_mask (mask_setBody_of_not other _), by omega⟩
    cases replaces_of_flattenFrom rfl flat with
    | done search ended =>
      have shows' := search_shows shows search
      subst ended
      split
      · exact shows'
      · exact shows'.of_mask (mask_setBody_of_not other _)
    | mapping search source flat rest =>
      obtain ⟨shows', enough⟩ := erased search
      obtain ⟨evolves, none⟩ := flattenFrom_evolves keys (.start ⟨_, _, _, source⟩ enough) flat
      obtain ⟨-, ready'⟩ := ready.next search evolves (evolves.merges ▸ none)
      exact ih (nested shows' ⟨_, _, _, source⟩ enough flat) other ready' rest
    | sequence search source flat rest =>
      obtain ⟨shows', enough⟩ := erased search
      obtain ⟨evolves, none⟩ := mergedItems_evolves
        (fun _ _ here enough _ flat => flattenFrom_evolves keys (.start here enough) flat) enough
        (List.forall_mem_nil _) flat
      obtain ⟨-, ready'⟩ := ready.next search evolves (evolves.merges ▸ none)
      have shows'' := shows_mergedItems (fun _ _ _ shows here enough flat =>
        ⟨nested shows here enough flat, (flattenFrom_evolves keys (.start here enough) flat).1⟩)
        shows' enough flat
      exact ih shows'' other ready' rest

/-- Replacing the merge keys of a mapping, wherever it is; one in the part gets the pairs that its
merge keys bring there. -/
theorem shows_flatten {i : Nat} (shows : Shows g₀ part g)
    (mapping : ∃ tag start pairs, g.vertex? i = some ⟨tag, start, .mapping pairs⟩)
    (flat : flatten g i = .ok g') :
    Shows g₀ part g' ∧ (part i = true → g₀.Flattens i (g'.pairs i)) := by
  cases place : part i with
  | true =>
    obtain ⟨shows', flattens⟩ :=
      shows_flattenFrom_start apart shows place mapping (Nat.le_refl _) flat
    exact ⟨shows', fun _ => flattens⟩
  | false =>
    exact ⟨shows_flattenFrom apart _ shows place (.start mapping (Nat.le_refl _)) flat, nofun⟩

end

end Construct

end YamlEdit
