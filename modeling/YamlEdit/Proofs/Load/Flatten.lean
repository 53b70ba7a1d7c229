import Mathlib.Algebra.Order.BigOperators.Group.List
import YamlEdit.Proofs.Graph.Meaning

/-!
# Merge keys are replaced

Replacing merge keys changes the graph in place, and a mapping that several others merge in is
changed when the first of them is. What comes out does not depend on that: in a graph without circles
a mapping has the pairs that its merge keys bring in the graph as it was, whichever mappings have
been changed already.

So a graph between two changes holds each mapping as it was or with its merge keys replaced
(`FlatAt`), and one step changes nodes of lower rank and its own (`Lowers`). The bound on the number
of steps is never met, as every step takes away one of the merge keys that it counts.
-/

namespace YamlEdit

/-- An answer has a property, and there is one when something holds. -/
def OkWhen {ε α : Type} (H : Prop) (P : α → Prop) : Except ε α → Prop
  | .ok a => P a
  | .error _ => ¬ H

namespace OkWhen

variable {ε α β : Type} {H K : Prop} {P : α → Prop} {Q : β → Prop}

theorem bind {x : Except ε α} {f : α → Except ε β} (first : OkWhen H P x) (needs : K → H)
    (next : ∀ a, P a → OkWhen K Q (f a)) : OkWhen K Q (x >>= f) := by
  cases x with
  | error e => exact fun k => first (needs k)
  | ok a => exact next a first

theorem mono {P' : α → Prop} {x : Except ε α} (h : OkWhen H P x) (needs : K → H)
    (weaker : ∀ a, P a → P' a) : OkWhen K P' x := by
  cases x with
  | error e => exact fun k => h (needs k)
  | ok a => exact weaker a h

end OkWhen

namespace Graph

/-- The number of merge keys of a mapping. -/
def mergesAt (g : Graph) (i : Nat) : Nat :=
  ((g.pairs i).filter g.merges).length

theorem mergeKeys_eq_sum (g : Graph) :
    Construct.mergeKeys g = ((List.range g.vertices.size).map g.mergesAt).sum := by
  rw [Construct.mergeKeys, List.length_flatMap]
  rfl

theorem pairs_of_vertex? {g : Graph} {i : Nat} {tag : Tag} {start : Option Mark}
    {pairs : List (Nat × Nat)} (here : g.vertex? i = some ⟨tag, start, .mapping pairs⟩) :
    g.pairs i = pairs := by
  rw [Graph.pairs, here]

theorem vertex?_setBody {g : Graph} {i j : Nat} (other : j ≠ i) (body : Vertex.Body) :
    (g.setBody i body).vertex? j = g.vertex? j := by
  rw [Graph.setBody, Graph.vertex?, Graph.vertex?, Array.getElem?_modify, if_neg (Ne.symm other)]

theorem vertex?_setBody_self {g : Graph} {i : Nat} {v : Vertex} (here : g.vertex? i = some v)
    (body : Vertex.Body) : (g.setBody i body).vertex? i = some { v with body } := by
  rw [Graph.vertex?] at here
  rw [Graph.setBody, Graph.vertex?, Array.getElem?_modify, if_pos rfl, here]
  rfl

theorem tag?_setBody (g : Graph) (i j : Nat) (body : Vertex.Body) :
    (g.setBody i body).tag? j = g.tag? j := by
  rw [Graph.tag?, Graph.tag?]
  by_cases same : j = i
  · subst same
    cases here : g.vertex? j with
    | none =>
      rw [Graph.vertex?] at here
      rw [Graph.setBody, Graph.vertex?, Array.getElem?_modify, if_pos rfl, here]
      rfl
    | some v => rw [vertex?_setBody_self here]; rfl
  · rw [vertex?_setBody same]

theorem lt_of_vertex? {g : Graph} {i : Nat} {v : Vertex} (here : g.vertex? i = some v) :
    i < g.vertices.size :=
  (Array.getElem?_eq_some_iff.mp here).1

theorem merges_congr {g h : Graph} (tags : ∀ j, g.tag? j = h.tag? j) : g.merges = h.merges := by
  funext p
  rw [merges, merges, tags]

/-- Where no mapping has more merge keys and one has fewer, there are fewer altogether. -/
theorem mergeKeys_lt {g h : Graph} (size : g.vertices.size = h.vertices.size)
    (le : ∀ j, g.mergesAt j ≤ h.mergesAt j) {i : Nat} (inside : i < g.vertices.size)
    (lt : g.mergesAt i < h.mergesAt i) : Construct.mergeKeys g < Construct.mergeKeys h := by
  rw [mergeKeys_eq_sum, mergeKeys_eq_sum, ← size]
  exact List.sum_lt_sum _ _ (fun j _ => le j) ⟨i, List.mem_range.mpr inside, lt⟩

theorem mergeKeys_le {g h : Graph} (size : g.vertices.size = h.vertices.size)
    (le : ∀ j, g.mergesAt j ≤ h.mergesAt j) : Construct.mergeKeys g ≤ Construct.mergeKeys h := by
  rw [mergeKeys_eq_sum, mergeKeys_eq_sum, ← size]
  exact List.sum_le_sum fun j _ => le j

end Graph

namespace Construct

open YamlEdit.Graph

variable {g₀ g g' : Graph} {rank : Nat → Nat}

/-! ## Graphs between two changes -/

/-- A node is as it was, or it is a mapping whose merge keys have been replaced. -/
def FlatAt (g₀ g : Graph) (i : Nat) : Prop :=
  g.vertex? i = g₀.vertex? i ∨ ∃ tag start pairs all,
    g₀.vertex? i = some ⟨tag, start, .mapping pairs⟩ ∧ g₀.Flattens i all ∧
      g.vertex? i = some ⟨tag, start, .mapping all⟩

theorem FlatAt.of_eq {i : Nat} (h : FlatAt g₀ g i) (same : g'.vertex? i = g.vertex? i) :
    FlatAt g₀ g' i := by
  rw [FlatAt, same]
  exact h

theorem FlatAt.scalar {i : Nat} (h : FlatAt g₀ g i) {tag : Tag} {start : Option Mark} {text : Text}
    (here : g.vertex? i = some ⟨tag, start, .scalar text⟩) :
    g₀.vertex? i = some ⟨tag, start, .scalar text⟩ := by
  rcases h with same | ⟨_, _, _, _, -, -, there⟩
  · exact same.symm.trans here
  · cases here.symm.trans there

theorem FlatAt.sequence {i : Nat} (h : FlatAt g₀ g i) {tag : Tag} {start : Option Mark}
    {items : List Nat} (here : g.vertex? i = some ⟨tag, start, .sequence items⟩) :
    g₀.vertex? i = some ⟨tag, start, .sequence items⟩ := by
  rcases h with same | ⟨_, _, _, _, -, -, there⟩
  · exact same.symm.trans here
  · cases here.symm.trans there

theorem FlatAt.mapping {i : Nat} (h : FlatAt g₀ g i) {tag : Tag} {start : Option Mark}
    {pairs : List (Nat × Nat)} (here : g.vertex? i = some ⟨tag, start, .mapping pairs⟩) :
    ∃ own, g₀.vertex? i = some ⟨tag, start, .mapping own⟩ ∧
      (own = pairs ∨ g₀.Flattens i pairs) := by
  rcases h with same | ⟨_, _, own, _, first, flat, there⟩
  · exact ⟨pairs, same.symm.trans here, .inl rfl⟩
  · cases here.symm.trans there
    exact ⟨own, first, .inr flat⟩

theorem FlatAt.of_scalar {i : Nat} (h : FlatAt g₀ g i) {tag : Tag} {start : Option Mark} {text : Text}
    (here : g₀.vertex? i = some ⟨tag, start, .scalar text⟩) :
    g.vertex? i = some ⟨tag, start, .scalar text⟩ := by
  rcases h with same | ⟨_, _, _, _, first, -, -⟩
  · exact same.trans here
  · cases here.symm.trans first

theorem FlatAt.of_sequence {i : Nat} (h : FlatAt g₀ g i) {tag : Tag} {start : Option Mark}
    {items : List Nat} (here : g₀.vertex? i = some ⟨tag, start, .sequence items⟩) :
    g.vertex? i = some ⟨tag, start, .sequence items⟩ := by
  rcases h with same | ⟨_, _, _, _, first, -, -⟩
  · exact same.trans here
  · cases here.symm.trans first

theorem FlatAt.of_mapping {i : Nat} (h : FlatAt g₀ g i) {tag : Tag} {start : Option Mark}
    {own : List (Nat × Nat)} (here : g₀.vertex? i = some ⟨tag, start, .mapping own⟩) :
    ∃ pairs, g.vertex? i = some ⟨tag, start, .mapping pairs⟩ := by
  rcases h with same | ⟨_, _, _, all, first, -, there⟩
  · exact ⟨own, same.trans here⟩
  · cases here.symm.trans first
    exact ⟨all, there⟩

/-- Nodes up to a rank have been changed, no more than replacing merge keys does. -/
structure Lowers (g₀ g g' : Graph) (rank : Nat → Nat) (bound : Nat) : Prop where
  size : g'.vertices.size = g.vertices.size
  tags : ∀ j, g'.tag? j = g.tag? j
  nodes : ∀ j, FlatAt g₀ g j → FlatAt g₀ g' j
  frame : ∀ j, bound ≤ rank j → g'.vertex? j = g.vertex? j
  fewer : ∀ j, g'.mergesAt j ≤ g.mergesAt j

namespace Lowers

variable {bound : Nat}

theorem refl (g₀ g : Graph) (rank : Nat → Nat) (bound : Nat) : Lowers g₀ g g rank bound :=
  ⟨rfl, fun _ => rfl, fun _ h => h, fun _ _ => rfl, fun _ => Nat.le_refl _⟩

theorem trans {g'' : Graph} (h : Lowers g₀ g g' rank bound) (h' : Lowers g₀ g' g'' rank bound) :
    Lowers g₀ g g'' rank bound :=
  ⟨h'.size.trans h.size, fun j => (h'.tags j).trans (h.tags j), fun j f => h'.nodes j (h.nodes j f),
    fun j le => (h'.frame j le).trans (h.frame j le), fun j => Nat.le_trans (h'.fewer j) (h.fewer j)⟩

theorem mono {more : Nat} (h : Lowers g₀ g g' rank bound) (le : bound ≤ more) :
    Lowers g₀ g g' rank more :=
  { h with frame := fun j low => h.frame j (Nat.le_trans le low) }

end Lowers

/-- One node and others of lower rank have been changed, the others no more than replacing merge keys
does. -/
structure Changes (g₀ g g' : Graph) (rank : Nat → Nat) (i : Nat) : Prop where
  size : g'.vertices.size = g.vertices.size
  tags : ∀ j, g'.tag? j = g.tag? j
  nodes : ∀ j, j ≠ i → FlatAt g₀ g j → FlatAt g₀ g' j
  frame : ∀ j, j ≠ i → rank i ≤ rank j → g'.vertex? j = g.vertex? j
  fewer : ∀ j, g'.mergesAt j ≤ g.mergesAt j

theorem Lowers.changes {i : Nat} (h : Lowers g₀ g g' rank (rank i)) : Changes g₀ g g' rank i :=
  ⟨h.size, h.tags, fun j _ => h.nodes j, fun j _ => h.frame j, h.fewer⟩

theorem Changes.trans {g'' : Graph} {i : Nat} (h : Changes g₀ g g' rank i)
    (h' : Changes g₀ g' g'' rank i) : Changes g₀ g g'' rank i :=
  ⟨h'.size.trans h.size, fun j => (h'.tags j).trans (h.tags j),
    fun j other f => h'.nodes j other (h.nodes j other f),
    fun j other le => (h'.frame j other le).trans (h.frame j other le),
    fun j => Nat.le_trans (h'.fewer j) (h.fewer j)⟩

/-- A mapping gets other pairs, with no more merge keys among them. -/
theorem Changes.setBody {i : Nat} {tag : Tag} {start : Option Mark} {pairs more : List (Nat × Nat)}
    (here : g.vertex? i = some ⟨tag, start, .mapping pairs⟩)
    (fewer : (more.filter g.merges).length ≤ (pairs.filter g.merges).length) :
    Changes g₀ g (g.setBody i (.mapping more)) rank i := by
  refine ⟨size_setBody .., fun j => tag?_setBody .., ?_, fun j other _ => vertex?_setBody other _, ?_⟩
  · intro j other flat
    exact flat.of_eq (vertex?_setBody other _)
  · intro j
    rw [mergesAt, mergesAt, merges_congr fun j => tag?_setBody ..]
    by_cases same : j = i
    · rw [same, pairs_of_vertex? here, pairs_of_vertex? (vertex?_setBody_self here _)]
      exact fewer
    · rw [Graph.pairs, vertex?_setBody same, ← Graph.pairs]

/-- The merge keys of one mapping have been replaced, and before it those of lower rank. -/
structure Flattened (g₀ g g' : Graph) (rank : Nat → Nat) (i : Nat) : Prop
    extends Changes g₀ g g' rank i where
  here : ∃ tag start pairs all, g₀.vertex? i = some ⟨tag, start, .mapping pairs⟩ ∧
    g₀.Flattens i all ∧ g'.vertex? i = some ⟨tag, start, .mapping all⟩

theorem Flattened.flatAt {i : Nat} (h : Flattened g₀ g g' rank i) : FlatAt g₀ g' i :=
  .inr h.here

theorem Flattened.flattens {i : Nat} (h : Flattened g₀ g g' rank i) : g₀.Flattens i (g'.pairs i) := by
  obtain ⟨tag, start, pairs, all, -, flat, here⟩ := h.here
  rw [pairs_of_vertex? here]
  exact flat

theorem Flattened.lowers {i : Nat} (h : Flattened g₀ g g' rank i) :
    Lowers g₀ g g' rank (rank i + 1) := by
  refine ⟨h.size, h.tags, ?_, ?_, h.fewer⟩
  · intro j flat
    by_cases same : j = i
    · rw [same]
      exact h.flatAt
    · exact h.nodes j same flat
  · intro j above
    refine h.frame j ?_ (by omega)
    rintro rfl
    omega

/-! ## The next merge key -/

/-- The search finds the first merge key, and leaves the graph alone where no key is a value key. -/
theorem nextMerge_spec (g : Graph) (index : Nat) {l : List (Nat × Nat)}
    (plain : ∀ p ∈ l, g.tag? p.1 ≠ some .value) :
    ((∀ p ∈ l, g.merges p = false) ∧ nextMerge g index l = (g, none)) ∨
      ∃ a k v b, l = a ++ (k, v) :: b ∧ (∀ p ∈ a, g.merges p = false) ∧ g.merges (k, v) = true ∧
        nextMerge g index l = (g, some (index + a.length, v)) := by
  induction l generalizing index with
  | nil => exact .inl ⟨nofun, rfl⟩
  | cons p r ih =>
    obtain ⟨k, v⟩ := p
    have key := plain (k, v) List.mem_cons_self
    by_cases merge : g.tag? k = some .merge
    · refine .inr ⟨[], k, v, r, rfl, nofun, ?_, ?_⟩
      · rw [merges, merge]
        rfl
      · rw [nextMerge, merge]
        rfl
    · have other : g.merges (k, v) = false := by
        rw [merges, beq_eq_false_iff_ne]
        exact merge
      have skip : nextMerge g index ((k, v) :: r) = nextMerge g (index + 1) r := by
        rw [nextMerge]
        split
        · next tag => exact absurd tag merge
        · next tag => exact absurd tag key
        · rfl
      rw [skip]
      rcases ih (index + 1) fun q hq => plain q (List.mem_cons_of_mem _ hq) with
        ⟨none, found⟩ | ⟨a, k', v', b, rfl, before, here, found⟩
      · refine .inl ⟨?_, found⟩
        intro q hq
        rcases List.mem_cons.mp hq with rfl | later
        · exact other
        · exact none q later
      · refine .inr ⟨(k, v) :: a, k', v', b, rfl, ?_, here, ?_⟩
        · intro q hq
          rcases List.mem_cons.mp hq with rfl | later
          · exact other
          · exact before q later
        · rw [found, List.length_cons, Nat.add_assoc, Nat.add_comm 1]

/-! ## Replacing the merge keys of a mapping -/

/-- The merge keys of a mapping have been replaced up to an index. -/
structure Replacing (g₀ g : Graph) (rank : Nat → Nat) (i index : Nat)
    (merged : List (Nat × Nat)) : Prop where
  tags : ∀ j, g.tag? j = g₀.tag? j
  below : ∀ j, rank j < rank i → FlatAt g₀ g j
  here : ∃ tag start seen rest brought,
    g₀.vertex? i = some ⟨tag, start, .mapping (seen ++ rest)⟩ ∧
    g.vertex? i = some ⟨tag, start, .mapping ((seen.filter fun p => !g₀.merges p) ++ rest)⟩ ∧
    index = (seen.filter fun p => !g₀.merges p).length ∧
    List.Forall₂ g₀.Brings ((seen.filter g₀.merges).map (·.2)) brought ∧ merged = brought.flatten

/-- Before anything is replaced. -/
theorem Replacing.start {i : Nat} (tags : ∀ j, g.tag? j = g₀.tag? j)
    (below : ∀ j, rank j < rank i → FlatAt g₀ g j) {tag : Tag} {start : Option Mark}
    {pairs : List (Nat × Nat)} (here : g₀.vertex? i = some ⟨tag, start, .mapping pairs⟩)
    (same : g.vertex? i = g₀.vertex? i) : Replacing g₀ g rank i 0 [] :=
  ⟨tags, below, tag, start, [], pairs, [], here, same.trans here, rfl, .nil, rfl⟩

theorem filter_eq_nil_of {l : List (Nat × Nat)} (h : ∀ p ∈ l, g.merges p = false) :
    l.filter g.merges = [] :=
  List.filter_eq_nil_iff.mpr fun p hp => by rw [h p hp]; exact Bool.false_ne_true

theorem filter_eq_self_of {l : List (Nat × Nat)} (h : ∀ p ∈ l, g.merges p = false) :
    (l.filter fun p => !g.merges p) = l :=
  List.filter_eq_self.mpr fun p hp => by rw [h p hp]; rfl

/-- When no merge key is left, what was brought goes in front. -/
theorem Replacing.finish (down : g₀.Descends rank) {i index : Nat} {merged : List (Nat × Nat)}
    (h : Replacing g₀ g rank i index merged)
    (none : ∀ p ∈ (g.pairs i).drop index, g.merges p = false) :
    Flattened g₀ g (if merged.isEmpty then g else g.setBody i (.mapping (merged ++ g.pairs i)))
      rank i := by
  obtain ⟨tag, start, seen, rest, brought, before, here, rfl, sources, rfl⟩ := h.here
  rw [pairs_of_vertex? here, merges_congr h.tags, List.drop_left] at none
  have flat : g₀.Flattens i
      (brought.flatten ++ ((seen.filter fun p => !g₀.merges p) ++ rest)) := by
    refine flattens_iff.mpr ⟨tag, start, seen ++ rest, brought, before, ?_, ?_⟩
    · rw [List.filter_append, filter_eq_nil_of none, List.append_nil]
      exact sources
    · rw [List.filter_append, filter_eq_self_of none]
  split
  · next empty =>
    rw [List.isEmpty_iff.mp empty, List.nil_append] at flat
    exact ⟨(Lowers.refl g₀ g rank (rank i)).changes, tag, start, _, _, before, flat, here⟩
  · rw [pairs_of_vertex? here]
    refine ⟨Changes.setBody here ?_, tag, start, _, _, before, flat, vertex?_setBody_self here _⟩
    rw [merges_congr h.tags, filter_eq_nil_of fun p hp => (flat.origin down hp).plain]
    exact Nat.zero_le _

/-- A merge key has a source if the mapping has pairs without merge keys. -/
theorem exists_brings {i : Nat} {all pairs : List (Nat × Nat)} {tag : Tag} {start : Option Mark}
    (flat : g₀.Flattens i all) (here : g₀.vertex? i = some ⟨tag, start, .mapping pairs⟩)
    {p : Nat × Nat} (hp : p ∈ pairs) (merge : g₀.merges p = true) : ∃ l, g₀.Brings p.2 l := by
  obtain ⟨_, _, _, brought, here', sources, -⟩ := flattens_iff.mp flat
  cases here.symm.trans here'
  have listed : p.2 ∈ (pairs.filter g₀.merges).map (·.2) :=
    List.mem_map_of_mem (List.mem_filter.mpr ⟨hp, merge⟩)
  obtain ⟨l, -, brings⟩ := mem_of_forall₂ sources.flip listed
  exact ⟨l, brings⟩

/-- The items of a merged sequence, one after another. -/
theorem mergedItems_spec {flatten : Graph → Nat → Except LoadError Graph} {bound : Nat}
    {node : Vertex} (size : g.vertices.size = g₀.vertices.size)
    (below : ∀ j, rank j < bound → FlatAt g₀ g j)
    (each : ∀ g' j, Lowers g₀ g g' rank bound → rank j < bound →
      (∃ tag start pairs, g₀.vertex? j = some ⟨tag, start, .mapping pairs⟩) →
        OkWhen (∃ all, g₀.Flattens j all)
          (fun g'' => Lowers g₀ g' g'' rank bound ∧ g₀.Flattens j (g''.pairs j)) (flatten g' j))
    {items : List Nat} (inside : ∀ j ∈ items, j < g₀.vertices.size)
    (low : ∀ j ∈ items, rank j < bound) (now : Lowers g₀ g g' rank bound)
    (collected : List (List (Nat × Nat))) :
    OkWhen (∃ lists, List.Forall₂ g₀.Flattens items lists)
      (fun p => Lowers g₀ g p.1 rank bound ∧ ∃ lists, List.Forall₂ g₀.Flattens items lists ∧
        p.2 = (lists.reverse ++ collected).flatten)
      (mergedItems flatten node g' items collected) := by
  induction items generalizing g' collected with
  | nil => exact ⟨now, [], .nil, rfl⟩
  | cons i r ih =>
    have bound' : i < g'.vertices.size := by
      rw [now.size, size]
      exact inside i List.mem_cons_self
    have flatAt := now.nodes i (below i (low i List.mem_cons_self))
    obtain ⟨⟨tag, start, body⟩, here⟩ := exists_vertex bound'
    rw [mergedItems, here]
    cases body with
    | scalar text =>
      rintro ⟨_, parts⟩
      cases parts with
      | cons first _ =>
        obtain ⟨_, _, _, there⟩ := first.exists_mapping
        cases (flatAt.scalar here).symm.trans there
    | sequence items =>
      rintro ⟨_, parts⟩
      cases parts with
      | cons first _ =>
        obtain ⟨_, _, _, there⟩ := first.exists_mapping
        cases (flatAt.sequence here).symm.trans there
    | mapping pairs =>
      obtain ⟨own, there, -⟩ := flatAt.mapping here
      refine (each g' i now (low i List.mem_cons_self) ⟨_, _, _, there⟩).bind ?_ ?_
      · rintro ⟨_, parts⟩
        cases parts with
        | cons first _ => exact ⟨_, first⟩
      · rintro next ⟨step, flat⟩
        refine (ih (fun j hj => inside j (List.mem_cons_of_mem i hj))
          (fun j hj => low j (List.mem_cons_of_mem i hj)) (now.trans step) _).mono ?_ ?_
        · rintro ⟨_, parts⟩
          cases parts with
          | cons _ rest => exact ⟨_, rest⟩
        · rintro ⟨last, more⟩ ⟨done, lists, parts, same⟩
          refine ⟨done, next.pairs i :: lists, .cons flat parts, ?_⟩
          rw [same, List.reverse_cons, List.append_assoc, List.singleton_append]

/-- A merge key is taken out of a mapping, and when its source has been replaced too, what that brings
is merged. -/
theorem Replacing.take {i index : Nat} {merged a b : List (Nat × Nat)}
    {k v : Nat} (h : Replacing g₀ g rank i index merged)
    (cut : (g.pairs i).drop index = a ++ (k, v) :: b) (before : ∀ p ∈ a, g.merges p = false)
    (merge : g.merges (k, v) = true) (g₁ : Graph)
    (erased : g₁ = g.setBody i (.mapping ((g.pairs i).eraseIdx (index + a.length)))) :
    Changes g₀ g g₁ rank i ∧ mergeKeys g₁ < mergeKeys g ∧
      ∀ g₂ l, Lowers g₀ g₁ g₂ rank (rank i) → g₀.Brings v l →
        Replacing g₀ g₂ rank i (index + a.length) (merged ++ l) := by
  obtain ⟨tag, start, seen, rest, brought, first, here, rfl, sources, rfl⟩ := h.here
  have pairs := pairs_of_vertex? here
  rw [pairs, List.drop_left] at cut
  subst cut
  have same : g.merges = g₀.merges := merges_congr h.tags
  rw [same] at before merge
  have kept : (seen ++ a ++ [(k, v)]).filter (fun p => !g₀.merges p) =
      (seen.filter fun p => !g₀.merges p) ++ a := by
    rw [List.filter_append, List.filter_append, filter_eq_self_of before]
    simp [merge]
  have place : (seen.filter fun p => !g₀.merges p).length + a.length =
      ((seen ++ a ++ [(k, v)]).filter fun p => !g₀.merges p).length := by
    rw [kept, List.length_append]
  have left : (g.pairs i).eraseIdx ((seen.filter fun p => !g₀.merges p).length + a.length) =
      ((seen ++ a ++ [(k, v)]).filter fun p => !g₀.merges p) ++ b := by
    rw [kept, pairs, ← List.append_assoc, ← List.length_append, List.eraseIdx_append_of_length_le
      (Nat.le_refl _), Nat.sub_self, List.eraseIdx_cons_zero]
  rw [left] at erased
  have now : g₁.vertex? i = some ⟨tag, start, .mapping
      (((seen ++ a ++ [(k, v)]).filter fun p => !g₀.merges p) ++ b)⟩ := by
    rw [erased]
    exact vertex?_setBody_self here _
  have less : (((((seen ++ a ++ [(k, v)]).filter fun p => !g₀.merges p) ++ b).filter
      g.merges).length) <
      (((seen.filter fun p => !g₀.merges p) ++ (a ++ (k, v) :: b)).filter g.merges).length := by
    rw [same, kept]
    simp only [List.filter_append, List.filter_cons, merge, if_true, List.length_append,
      List.length_cons]
    omega
  have changes : Changes g₀ g g₁ rank i := by
    rw [erased]
    exact Changes.setBody here (Nat.le_of_lt less)
  refine ⟨changes, ?_, ?_⟩
  · refine mergeKeys_lt changes.size changes.fewer (lt_of_vertex? now) ?_
    rw [mergesAt, mergesAt, pairs_of_vertex? now, pairs, merges_congr changes.tags]
    exact less
  · intro g₂ l step brings
    refine ⟨fun j => (step.tags j).trans ((changes.tags j).trans (h.tags j)), ?_, ?_⟩
    · intro j low
      refine step.nodes j (changes.nodes j ?_ (h.below j low))
      rintro rfl
      omega
    · refine ⟨tag, start, seen ++ a ++ [(k, v)], b, brought ++ [l], ?_, ?_, place, ?_, ?_⟩
      · rw [first, List.append_assoc, List.append_assoc, List.singleton_append]
      · exact (step.frame i (Nat.le_refl _)).trans now
      · rw [List.filter_append, List.filter_append, filter_eq_nil_of before, List.append_nil,
          List.map_append]
        refine List.rel_append sources ?_
        rw [List.filter_cons_of_pos merge]
        exact .cons brings .nil
      · rw [List.flatten_append, List.flatten_singleton]

theorem Replacing.listed {i index : Nat} {merged a b : List (Nat × Nat)} {p : Nat × Nat}
    (h : Replacing g₀ g rank i index merged) (cut : (g.pairs i).drop index = a ++ p :: b) :
    ∃ tag start pairs, g₀.vertex? i = some ⟨tag, start, .mapping pairs⟩ ∧ p ∈ pairs := by
  obtain ⟨tag, start, seen, rest, brought, first, here, rfl, -, -⟩ := h.here
  rw [pairs_of_vertex? here, List.drop_left] at cut
  subst cut
  exact ⟨tag, start, _, first, by simp⟩

/-- A mapping that is as it was, or that has been changed already. -/
theorem flattenFrom_start (down : g₀.Descends rank) (plain : g₀.Plain) {keys : Nat} {j : Nat}
    (loop : ∀ merged index, Replacing g₀ g rank j index merged →
      OkWhen (∃ all, g₀.Flattens j all) (Flattened g₀ g · rank j) (flattenFrom keys g j index merged))
    (tags : ∀ k, g.tag? k = g₀.tag? k) (below : ∀ k, rank k < rank j → FlatAt g₀ g k)
    (flat : FlatAt g₀ g j)
    (mapping : ∃ tag start pairs, g₀.vertex? j = some ⟨tag, start, .mapping pairs⟩) :
    OkWhen (∃ all, g₀.Flattens j all) (Flattened g₀ g · rank j) (flattenFrom keys g j 0 []) := by
  obtain ⟨tag, start, pairs, here⟩ := mapping
  rcases flat with same | done
  · exact loop [] 0 (.start tags below here same)
  · obtain ⟨_, _, _, all, first, flat, now⟩ := done
    have settled : ∀ p ∈ g.pairs j, g.merges p = false := by
      intro p hp
      rw [pairs_of_vertex? now] at hp
      rw [merges_congr tags]
      exact (flat.origin down hp).plain
    have stops : nextMerge g 0 ((g.pairs j).drop 0) = (g, none) := by
      rcases nextMerge_spec g 0 (l := (g.pairs j).drop 0)
        (fun p _ => by rw [tags]; exact plain.valueless _) with
        ⟨-, found⟩ | ⟨a, k, v, b, cut, -, merge, -⟩
      · exact found
      · rw [List.drop_zero] at cut
        rw [settled (k, v) (by rw [cut]; simp)] at merge
        cases merge
    rw [flattenFrom, stops]
    exact ⟨(Lowers.refl g₀ g rank (rank j)).changes, _, _, _, all, first, flat, now⟩

/-- A mapping of lower rank, in a graph that is changed below a rank only. What is merged may be
changed already, and so may what lies below it. -/
theorem flattenFrom_below (down : g₀.Descends rank) (plain : g₀.Plain) {keys : Nat}
    (loop : ∀ {g : Graph} {i index : Nat} {merged : List (Nat × Nat)},
      Replacing g₀ g rank i index merged → g.vertices.size = g₀.vertices.size → mergeKeys g ≤ keys →
        OkWhen (∃ all, g₀.Flattens i all) (Flattened g₀ g · rank i)
          (flattenFrom keys g i index merged))
    {bound : Nat} (size : g.vertices.size = g₀.vertices.size) (tags : ∀ k, g.tag? k = g₀.tag? k)
    (below : ∀ k, rank k < bound → FlatAt g₀ g k) (enough : mergeKeys g ≤ keys)
    (now : Lowers g₀ g g' rank bound) {j : Nat} (low : rank j < bound)
    (mapping : ∃ tag start pairs, g₀.vertex? j = some ⟨tag, start, .mapping pairs⟩) :
    OkWhen (∃ all, g₀.Flattens j all)
      (fun g'' => Lowers g₀ g' g'' rank bound ∧ g₀.Flattens j (g''.pairs j))
      (flattenFrom keys g' j 0 []) := by
  refine (flattenFrom_start down plain ?_ ?_ ?_ ?_ mapping).mono id ?_
  · intro merged index h
    exact loop h (now.size.trans size) (Nat.le_trans (mergeKeys_le now.size now.fewer) enough)
  · exact fun k => (now.tags k).trans (tags k)
  · exact fun k lower => now.nodes k (below k (Nat.lt_trans lower low))
  · exact now.nodes j (below j low)
  · exact fun g'' done => ⟨done.lowers.mono low, done.flattens⟩

/-- The merge keys of a mapping are replaced by the pairs that they bring, and where that fails there
are no such pairs. -/
theorem flattenFrom_spec (down : g₀.Descends rank) (plain : g₀.Plain) (keys : Nat) {i index : Nat}
    {merged : List (Nat × Nat)} (h : Replacing g₀ g rank i index merged)
    (size : g.vertices.size = g₀.vertices.size) (enough : mergeKeys g ≤ keys) :
    OkWhen (∃ all, g₀.Flattens i all) (Flattened g₀ g · rank i)
      (flattenFrom keys g i index merged) := by
  induction keys generalizing g i index merged with
  | zero =>
    rw [flattenFrom]
    rcases nextMerge_spec g index (l := (g.pairs i).drop index)
      (fun p _ => by rw [h.tags]; exact plain.valueless _) with
      ⟨settled, found⟩ | ⟨a, k, v, b, cut, before, merge, -⟩
    · rw [found]
      exact h.finish down settled
    · have less := (h.take cut before merge _ rfl).2.1
      omega
  | succ keys ih =>
    rw [flattenFrom]
    rcases nextMerge_spec g index (l := (g.pairs i).drop index)
      (fun p _ => by rw [h.tags]; exact plain.valueless _) with
      ⟨settled, found⟩ | ⟨a, k, v, b, cut, before, merge, found⟩
    · rw [found]
      exact h.finish down settled
    · obtain ⟨changes, less, next⟩ := h.take cut before merge _ rfl
      obtain ⟨tag, start, pairs, here, listed⟩ := h.listed cut
      rw [found]
      dsimp only
      generalize g.setBody i (.mapping ((g.pairs i).eraseIdx (index + a.length))) = g₁ at *
      have part := (Vertex.mem_parts_mapping tag start listed).2
      have low : rank v < rank i := down.lower i _ here v part
      have size₁ : g₁.vertices.size = g₀.vertices.size := changes.size.trans size
      have tags₁ : ∀ j, g₁.tag? j = g₀.tag? j := fun j => (changes.tags j).trans (h.tags j)
      have below₁ : ∀ j, rank j < rank i → FlatAt g₀ g₁ j := by
        intro j low
        refine changes.nodes j ?_ (h.below j low)
        rintro rfl
        omega
      have needs : (∃ all, g₀.Flattens i all) → ∃ l, g₀.Brings v l := by
        rintro ⟨all, flat⟩
        exact exists_brings flat here listed (merges_congr h.tags ▸ merge)
      have inner {g' : Graph} (now : Lowers g₀ g₁ g' rank (rank i)) {j : Nat} :=
        flattenFrom_below down plain (fun h => ih h) size₁ tags₁ below₁ (by omega) now (j := j)
      have goes_on : ∀ g₂ l, Lowers g₀ g₁ g₂ rank (rank i) → g₀.Brings v l →
          OkWhen (∃ all, g₀.Flattens i all) (Flattened g₀ g · rank i)
            (flattenFrom keys g₂ i (index + a.length) (merged ++ l)) := by
        intro g₂ l step brings
        refine (ih (next g₂ l step brings) (step.size.trans size₁) ?_).mono id ?_
        · exact Nat.le_trans (mergeKeys_le step.size step.fewer) (by omega)
        · exact fun g' done => { done with
            toChanges := (changes.trans step.changes).trans done.toChanges }
      obtain ⟨⟨tag', start', body⟩, source⟩ := exists_vertex (g := g₁) (k := v) (by
        rw [size₁]
        exact down.inside i _ here v part)
      rw [source]
      cases body with
      | scalar text =>
        intro flat
        obtain ⟨l, brings⟩ := needs flat
        exact not_brings_scalar ((below₁ v low).scalar source) brings
      | mapping pairs =>
        obtain ⟨own, there, -⟩ := (below₁ v low).mapping source
        refine (inner (.refl ..) low ⟨_, _, _, there⟩).bind ?_ ?_
        · intro flat
          obtain ⟨l, brings⟩ := needs flat
          exact ⟨l, brings.of_mapping there⟩
        · rintro g₂ ⟨step, flat⟩
          exact goes_on g₂ _ step (.mapping flat)
      | sequence items =>
        have there := (below₁ v low).sequence source
        refine (mergedItems_spec size₁ below₁ (fun _ _ now => inner now) (down.inside v _ there) ?_
          (.refl ..) []).bind ?_ ?_
        · exact fun j hj => Nat.lt_trans (down.lower v _ there j hj) low
        · intro flat
          obtain ⟨l, brings⟩ := needs flat
          obtain ⟨lists, parts, -⟩ := brings.of_sequence there
          exact ⟨lists, parts⟩
        · rintro ⟨g₂, more⟩ ⟨step, lists, parts, rfl⟩
          rw [List.append_nil]
          exact goes_on g₂ _ step (.sequence there parts)

/-- Replacing the merge keys of a mapping, in a graph between two changes. -/
theorem flatten_spec (down : g₀.Descends rank) (plain : g₀.Plain)
    (size : g.vertices.size = g₀.vertices.size) (flat : ∀ j, FlatAt g₀ g j)
    (tags : ∀ j, g.tag? j = g₀.tag? j) {i : Nat}
    (mapping : ∃ tag start pairs, g₀.vertex? i = some ⟨tag, start, .mapping pairs⟩) :
    OkWhen (∃ all, g₀.Flattens i all) (Flattened g₀ g · rank i) (flatten g i) :=
  flattenFrom_start down plain
    (fun _ _ h => flattenFrom_spec down plain _ h size (Nat.le_refl _)) tags (fun k _ => flat k)
    (flat i) mapping

end Construct

end YamlEdit
