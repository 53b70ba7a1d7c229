import Mathlib.Data.List.Forall2
import YamlEdit.Load.Construct
import YamlEdit.Proofs.Value.Same

/-!
# What a graph means

The value of a node by the values of its parts, without a store, an order of work or identities: a
sequence is the list of its items' values, and a mapping is the dictionary that its pairs fill one
after another, where the pairs that merge keys bring come first. A set has the keys of such a
dictionary, and a list of pairs is read off mappings of one pair each, which are no nodes of their own
there.

This is said of plain graphs: no node is a value key, no key is no number, and no merge key waits to
be replaced in the mappings that a list of pairs is given as.
-/

namespace YamlEdit

namespace Graph

/-- The value of a scalar under its tag. -/
def scalarValue? (tag : Tag) (text : Text) : Option Value :=
  match tag with
  | .null => some .null
  | .bool => (Literal.bool text).toOption
  | .int => (Literal.int text).toOption
  | .float => (Literal.float text).toOption
  | .str => some (.str text)
  | .timestamp => (Literal.timestamp text).toOption
  | .binary => (Literal.binary text).toOption
  | _ => none

theorem toOption_eq_some {ε α : Type} {x : Except ε α} {a : α} :
    x.toOption = some a ↔ x = .ok a := by
  cases x <;> simp [Except.toOption]

/-- What a scalar stands for is a scalar. -/
theorem isScalar_of_scalarValue? {tag : Tag} {text : Text} {v : Value}
    (h : scalarValue? tag text = some v) : v.IsScalar := by
  cases tag with
  | null =>
    cases h
    trivial
  | str =>
    cases h
    trivial
  | bool =>
    have h := toOption_eq_some.mp h
    rw [Literal.bool] at h
    split at h <;> cases h
    trivial
  | int =>
    have h := toOption_eq_some.mp h
    rw [Literal.int] at h
    obtain ⟨_, -, h⟩ := bind_eq_ok.mp h
    obtain ⟨_, -, h⟩ := bind_eq_ok.mp h
    cases h
    trivial
  | float =>
    have h := toOption_eq_some.mp h
    rcases Literal.nan_or_float h with rfl | ⟨x, rfl⟩
    · trivial
    · exact Literal.normalized_float h
  | timestamp =>
    have h := toOption_eq_some.mp h
    rw [Literal.timestamp] at h
    split at h
    · cases h
    · split at h
      · split at h <;> cases h
        trivial
      · dsimp only at h
        split at h <;> cases h
        trivial
  | binary =>
    have h := toOption_eq_some.mp h
    rw [Literal.binary] at h
    split at h
    · cases decoded : Base64.decode text with
      | error e =>
        rw [decoded] at h
        cases h
      | ok b =>
        rw [decoded] at h
        cases h
        trivial
    · cases h
  | _ => cases h

end Graph

/-- Whether a sequence of this tag is given as mappings of one pair each. -/
def Tag.isPaired (tag : Tag) : Bool :=
  tag == .omap || tag == .pairs

namespace Graph

/-- Whether a pair of a mapping merges others in. -/
def merges (g : Graph) (p : Nat × Nat) : Bool :=
  g.tag? p.1 == some .merge

mutual

/-- The pairs of a mapping when merge keys are replaced: what they bring, and then its own. -/
inductive Flattens (g : Graph) : Nat → List (Nat × Nat) → Prop
  | intro {i : Nat} {tag : Tag} {start : Option Mark} {pairs : List (Nat × Nat)}
    {brought : List (List (Nat × Nat))} (here : g.vertex? i = some ⟨tag, start, .mapping pairs⟩)
    (sources : List.Forall₂ (Brings g) ((pairs.filter g.merges).map (·.2)) brought) :
    Flattens g i (brought.flatten ++ pairs.filter fun p => !g.merges p)

/-- The pairs that a merge key brings: those of a mapping, or of the mappings of a sequence, where
earlier ones win and so come last. -/
inductive Brings (g : Graph) : Nat → List (Nat × Nat) → Prop
  | mapping {i : Nat} {pairs : List (Nat × Nat)} (flat : Flattens g i pairs) : Brings g i pairs
  | sequence {i : Nat} {tag : Tag} {start : Option Mark} {items : List Nat}
    {lists : List (List (Nat × Nat))} (here : g.vertex? i = some ⟨tag, start, .sequence items⟩)
    (flat : List.Forall₂ (Flattens g) items lists) : Brings g i lists.reverse.flatten

end

/-- A mapping of one pair. -/
def Single (g : Graph) (i : Nat) (p : Nat × Nat) : Prop :=
  ∃ tag start, g.vertex? i = some ⟨tag, start, .mapping [p]⟩

/-- The value of a node, without identities. -/
inductive Means (g : Graph) : Nat → Value → Prop
  | scalar {i : Nat} {tag : Tag} {start : Option Mark} {text : Text} {v : Value}
    (here : g.vertex? i = some ⟨tag, start, .scalar text⟩) (reads : scalarValue? tag text = some v) :
    Means g i v.bare
  | list {i : Nat} {start : Option Mark} {items : List Nat} {values : List Value}
    (here : g.vertex? i = some ⟨.seq, start, .sequence items⟩)
    (parts : List.Forall₂ (Means g) items values) : Means g i (.list none values)
  | dict {i : Nat} {start : Option Mark} {pairs all : List (Nat × Nat)}
    {entries : List (Value × Value)} (here : g.vertex? i = some ⟨.map, start, .mapping pairs⟩)
    (flat : Flattens g i all)
    (keys : List.Forall₂ (Means g) (all.map (·.1)) (entries.map (·.1)))
    (values : List.Forall₂ (Means g) (all.map (·.2)) (entries.map (·.2)))
    (scalars : ∀ e ∈ entries, e.1.IsScalar ∧ e.1.isNan = false) :
    Means g i (.dict none (Value.gather entries))
  | set {i : Nat} {start : Option Mark} {pairs all : List (Nat × Nat)}
    {entries : List (Value × Value)} (here : g.vertex? i = some ⟨.set, start, .mapping pairs⟩)
    (flat : Flattens g i all)
    (keys : List.Forall₂ (Means g) (all.map (·.1)) (entries.map (·.1)))
    (values : List.Forall₂ (Means g) (all.map (·.2)) (entries.map (·.2)))
    (scalars : ∀ e ∈ entries, e.1.IsScalar ∧ e.1.isNan = false) :
    Means g i (.set none ((Value.gather entries).map (·.1)))
  | tuples {i : Nat} {tag : Tag} {start : Option Mark} {items : List Nat} {all : List (Nat × Nat)}
    {entries : List (Value × Value)} (here : g.vertex? i = some ⟨tag, start, .sequence items⟩)
    (paired : tag.isPaired = true) (singles : List.Forall₂ g.Single items all)
    (keys : List.Forall₂ (Means g) (all.map (·.1)) (entries.map (·.1)))
    (values : List.Forall₂ (Means g) (all.map (·.2)) (entries.map (·.2))) :
    Means g i (.list none (entries.map fun e => .tuple none [e.1, e.2]))

/-! ## Graphs without circles -/

end Graph

/-- The nodes that a node leads to. -/
def Vertex.parts (v : Vertex) : List Nat :=
  match v.body with
  | .scalar _ => []
  | .sequence items => items
  | .mapping pairs => pairs.flatMap fun p => [p.1, p.2]

theorem Vertex.mem_parts_mapping (tag : Tag) (start : Option Mark) {pairs : List (Nat × Nat)}
    {p : Nat × Nat} (hp : p ∈ pairs) :
    p.1 ∈ (⟨tag, start, .mapping pairs⟩ : Vertex).parts ∧
      p.2 ∈ (⟨tag, start, .mapping pairs⟩ : Vertex).parts :=
  ⟨List.mem_flatMap.mpr ⟨p, hp, by simp⟩, List.mem_flatMap.mpr ⟨p, hp, by simp⟩⟩

namespace Graph

/-- Every node leads to nodes of the graph of lower rank. -/
structure Descends (g : Graph) (rank : Nat → Nat) : Prop where
  inside : ∀ i, ∀ v ∈ g.vertex? i, ∀ c ∈ v.parts, c < g.vertices.size
  lower : ∀ i, ∀ v ∈ g.vertex? i, ∀ c ∈ v.parts, rank c < rank i

/-- No node is a value key, no key is no number, and lists of pairs are given without merge keys. -/
structure Plain (g : Graph) : Prop where
  valueless : ∀ i, g.tag? i ≠ some .value
  singles : ∀ i tag start items, g.vertex? i = some ⟨tag, start, .sequence items⟩ →
    tag.isPaired = true → ∀ c ∈ items, ∀ p ∈ g.pairs c, g.merges p = false
  keys : ∀ i tag start pairs, g.vertex? i = some ⟨tag, start, .mapping pairs⟩ → ∀ p ∈ pairs,
    ∀ tag' start' text v, g.vertex? p.1 = some ⟨tag', start', .scalar text⟩ →
      scalarValue? tag' text = some v → v.isNan = false

variable {g : Graph} {rank : Nat → Nat}

theorem exists_vertex {k : Nat} (bound : k < g.vertices.size) : ∃ v, g.vertex? k = some v :=
  ⟨g.vertices[k], Array.getElem?_eq_getElem bound⟩

/-- A pair of nodes means a pair of values. -/
def Reads (g : Graph) (p : Nat × Nat) (e : Value × Value) : Prop :=
  g.Means p.1 e.1 ∧ g.Means p.2 e.2

theorem reads_iff {all : List (Nat × Nat)} {entries : List (Value × Value)} :
    List.Forall₂ g.Reads all entries ↔
      List.Forall₂ g.Means (all.map (·.1)) (entries.map (·.1)) ∧
        List.Forall₂ g.Means (all.map (·.2)) (entries.map (·.2)) := by
  constructor
  · intro reads
    simp only [List.forall₂_map_left_iff, List.forall₂_map_right_iff]
    exact ⟨reads.imp fun _ _ r => r.1, reads.imp fun _ _ r => r.2⟩
  · rintro ⟨keys, values⟩
    induction all generalizing entries with
    | nil =>
      cases entries with
      | nil => exact .nil
      | cons e r => cases keys
    | cons p all ih =>
      cases entries with
      | nil => cases keys
      | cons e r =>
        obtain ⟨key, keys⟩ := List.forall₂_cons.mp keys
        obtain ⟨value, values⟩ := List.forall₂_cons.mp values
        exact .cons ⟨key, value⟩ (ih keys values)

theorem flattens_iff {i : Nat} {all : List (Nat × Nat)} : g.Flattens i all ↔
    ∃ tag start pairs brought, g.vertex? i = some ⟨tag, start, .mapping pairs⟩ ∧
      List.Forall₂ g.Brings ((pairs.filter g.merges).map (·.2)) brought ∧
      all = brought.flatten ++ pairs.filter fun p => !g.merges p := by
  constructor
  · rintro ⟨here, sources⟩
    exact ⟨_, _, _, _, here, sources, rfl⟩
  · rintro ⟨tag, start, pairs, brought, here, sources, rfl⟩
    exact .intro here sources

section

variable {i : Nat} {tag : Tag} {start : Option Mark}

theorem Flattens.exists_mapping {all : List (Nat × Nat)} (flat : g.Flattens i all) :
    ∃ tag start pairs, g.vertex? i = some ⟨tag, start, .mapping pairs⟩ := by
  obtain ⟨tag, start, pairs, _, here, -⟩ := flattens_iff.mp flat
  exact ⟨tag, start, pairs, here⟩

/-- A scalar brings nothing. -/
theorem not_brings_scalar {text : Text} (here : g.vertex? i = some ⟨tag, start, .scalar text⟩)
    {l : List (Nat × Nat)} : ¬ g.Brings i l := by
  rintro (flat | ⟨here', -⟩)
  · obtain ⟨_, _, _, here'⟩ := flat.exists_mapping
    cases here.symm.trans here'
  · cases here.symm.trans here'

theorem Brings.of_sequence {l : List (Nat × Nat)} (brings : g.Brings i l) {items : List Nat}
    (here : g.vertex? i = some ⟨tag, start, .sequence items⟩) :
    ∃ lists, List.Forall₂ g.Flattens items lists ∧ l = lists.reverse.flatten := by
  cases brings with
  | mapping flat =>
    obtain ⟨_, _, _, here'⟩ := flat.exists_mapping
    cases here.symm.trans here'
  | sequence here' lists =>
    cases here.symm.trans here'
    exact ⟨_, lists, rfl⟩

theorem Brings.of_mapping {l : List (Nat × Nat)} (brings : g.Brings i l) {pairs : List (Nat × Nat)}
    (here : g.vertex? i = some ⟨tag, start, .mapping pairs⟩) : g.Flattens i l := by
  cases brings with
  | mapping flat => exact flat
  | sequence here' _ => cases here.symm.trans here'

variable {v : Value} (means : g.Means i v)
include means

theorem Means.of_scalar {text : Text} (here : g.vertex? i = some ⟨tag, start, .scalar text⟩) :
    ∃ w, scalarValue? tag text = some w ∧ v = w.bare := by
  cases means with
  | scalar here' reads =>
    cases here.symm.trans here'
    exact ⟨_, reads, rfl⟩
  | list here' | dict here' | set here' | tuples here' => cases here.symm.trans here'

/-- A sequence is a list of its items or a list of pairs. -/
theorem Means.of_sequence {items : List Nat}
    (here : g.vertex? i = some ⟨tag, start, .sequence items⟩) :
    (tag = .seq ∧ ∃ values, List.Forall₂ g.Means items values ∧ v = .list none values) ∨
      (tag.isPaired = true ∧ ∃ all entries, List.Forall₂ g.Single items all ∧
        List.Forall₂ g.Reads all entries ∧
          v = .list none (entries.map fun e => .tuple none [e.1, e.2])) := by
  cases means with
  | list here' parts =>
    cases here.symm.trans here'
    exact .inl ⟨rfl, _, parts, rfl⟩
  | tuples here' paired singles keys values =>
    cases here.symm.trans here'
    exact .inr ⟨paired, _, _, singles, reads_iff.mpr ⟨keys, values⟩, rfl⟩
  | scalar here' | dict here' | set here' => cases here.symm.trans here'

theorem Means.of_seq {items : List Nat}
    (here : g.vertex? i = some ⟨.seq, start, .sequence items⟩) :
    ∃ values, List.Forall₂ g.Means items values ∧ v = .list none values := by
  rcases means.of_sequence here with ⟨-, list⟩ | ⟨paired, -⟩
  · exact list
  · cases paired

/-- A mapping is a dictionary or a set. -/
theorem Means.of_mapping {pairs : List (Nat × Nat)}
    (here : g.vertex? i = some ⟨tag, start, .mapping pairs⟩) :
    ∃ all entries, g.Flattens i all ∧ List.Forall₂ g.Reads all entries ∧
      (∀ e ∈ entries, e.1.IsScalar ∧ e.1.isNan = false) ∧
        ((tag = .map ∧ v = .dict none (Value.gather entries)) ∨
          (tag = .set ∧ v = .set none ((Value.gather entries).map (·.1)))) := by
  cases means with
  | dict here' flat keys values scalars =>
    cases here.symm.trans here'
    exact ⟨_, _, flat, reads_iff.mpr ⟨keys, values⟩, scalars, .inl ⟨rfl, rfl⟩⟩
  | set here' flat keys values scalars =>
    cases here.symm.trans here'
    exact ⟨_, _, flat, reads_iff.mpr ⟨keys, values⟩, scalars, .inr ⟨rfl, rfl⟩⟩
  | scalar here' | list here' | tuples here' => cases here.symm.trans here'

theorem Means.of_map {pairs : List (Nat × Nat)}
    (here : g.vertex? i = some ⟨.map, start, .mapping pairs⟩) :
    ∃ all entries, g.Flattens i all ∧ List.Forall₂ g.Reads all entries ∧
      (∀ e ∈ entries, e.1.IsScalar ∧ e.1.isNan = false) ∧ v = .dict none (Value.gather entries) := by
  obtain ⟨all, entries, flat, reads, scalars, ⟨-, same⟩ | ⟨other, -⟩⟩ := means.of_mapping here
  · exact ⟨all, entries, flat, reads, scalars, same⟩
  · cases other

end

/-- Where the pairs of a mapping without merge keys come from: from the mapping itself or from one
of lower rank. -/
structure Origin (g : Graph) (rank : Nat → Nat) (i : Nat) (p : Nat × Nat) : Prop where
  plain : g.merges p = false
  listed : ∃ j tag start pairs, rank j ≤ rank i ∧ g.vertex? j = some ⟨tag, start, .mapping pairs⟩ ∧
    p ∈ pairs

theorem Origin.mono {i j : Nat} {p : Nat × Nat} (h : Origin g rank j p) (le : rank j ≤ rank i) :
    Origin g rank i p := by
  obtain ⟨k, tag, start, pairs, low, here, hp⟩ := h.listed
  exact ⟨h.plain, k, tag, start, pairs, Nat.le_trans low le, here, hp⟩

theorem Origin.lower {i : Nat} {p : Nat × Nat} (h : Origin g rank i p) (down : g.Descends rank) :
    rank p.1 < rank i ∧ rank p.2 < rank i := by
  obtain ⟨j, tag, start, pairs, low, here, hp⟩ := h.listed
  obtain ⟨key, value⟩ := Vertex.mem_parts_mapping tag start hp
  exact ⟨Nat.lt_of_lt_of_le (down.lower j _ here _ key) low,
    Nat.lt_of_lt_of_le (down.lower j _ here _ value) low⟩

theorem Origin.inside {i : Nat} {p : Nat × Nat} (h : Origin g rank i p) (down : g.Descends rank) :
    p.1 < g.vertices.size ∧ p.2 < g.vertices.size := by
  obtain ⟨j, tag, start, pairs, -, here, hp⟩ := h.listed
  obtain ⟨key, value⟩ := Vertex.mem_parts_mapping tag start hp
  exact ⟨down.inside j _ here _ key, down.inside j _ here _ value⟩

theorem mem_of_forall₂ {α β : Type} {R : α → β → Prop} {l : List α} {m : List β}
    (h : List.Forall₂ R l m) {b : β} (hb : b ∈ m) : ∃ a ∈ l, R a b := by
  induction h with
  | nil => cases hb
  | cons first _ ih =>
    rcases List.mem_cons.mp hb with rfl | later
    · exact ⟨_, List.mem_cons_self, first⟩
    · obtain ⟨a, ha, r⟩ := ih later
      exact ⟨a, List.mem_cons_of_mem _ ha, r⟩

theorem filter_map_of_mem {α β : Type} {f : α → β} {p : β → Bool} {q : α → Bool} {l : List α}
    (h : ∀ a ∈ l, p (f a) = q a) : (l.map f).filter p = (l.filter q).map f := by
  rw [List.filter_map]
  exact congrArg (List.map f) (List.filter_congr h)

theorem forall₂_of_mem {α β : Type} {R S : α → β → Prop} {l : List α} {m : List β}
    (h : List.Forall₂ R l m) (next : ∀ a ∈ l, ∀ b, R a b → S a b) : List.Forall₂ S l m := by
  induction h with
  | nil => exact .nil
  | cons first _ ih =>
    exact .cons (next _ List.mem_cons_self _ first)
      (ih fun a ha => next a (List.mem_cons_of_mem _ ha))

/-- Pairs that are left when merge keys are replaced. -/
theorem Flattens.origin (down : g.Descends rank) {i : Nat} {all : List (Nat × Nat)}
    (h : g.Flattens i all) {p : Nat × Nat} (hp : p ∈ all) : Origin g rank i p := by
  induction bound : rank i using Nat.strongRecOn generalizing i all with
  | ind r ih =>
    subst bound
    obtain ⟨tag, start, pairs, brought, here, sources, rfl⟩ := flattens_iff.mp h
    rcases List.mem_append.mp hp with merged | own
    · obtain ⟨list, hlist, hp⟩ := List.mem_flatten.mp merged
      obtain ⟨j, hj, brings⟩ := mem_of_forall₂ sources hlist
      obtain ⟨q, hq, rfl⟩ := List.mem_map.mp hj
      have low := down.lower i _ here _
        (Vertex.mem_parts_mapping _ _ (List.mem_of_mem_filter hq)).2
      cases brings with
      | mapping flat => exact (ih _ low flat hp rfl).mono (Nat.le_of_lt low)
      | sequence there flat =>
        obtain ⟨part, hpart, hp⟩ := List.mem_flatten.mp hp
        obtain ⟨k, hk, flat⟩ := mem_of_forall₂ flat (List.mem_reverse.mp hpart)
        have lower := Nat.lt_trans (down.lower _ _ there k hk) low
        exact (ih _ lower flat hp rfl).mono (Nat.le_of_lt lower)
    · obtain ⟨listed, plain⟩ := List.mem_filter.mp own
      exact ⟨by simpa using plain, i, tag, start, pairs, Nat.le_refl _, here, listed⟩

/-! ## One meaning -/

theorem forall₂_unique {α β : Type} {R : α → β → Prop} {l : List α} {m m' : List β}
    (h : List.Forall₂ R l m) (h' : List.Forall₂ R l m')
    (unique : ∀ a ∈ l, ∀ b b', R a b → R a b' → b = b') : m = m' := by
  induction h generalizing m' with
  | nil =>
    cases h'
    rfl
  | cons first _ ih =>
    cases h' with
    | cons first' rest' =>
      rw [unique _ List.mem_cons_self _ _ first first',
        ih rest' fun a ha => unique a (List.mem_cons_of_mem _ ha)]

/-- The pairs of a mapping without merge keys are determined. -/
theorem Flattens.unique (down : g.Descends rank) {i : Nat} {all all' : List (Nat × Nat)}
    (h : g.Flattens i all) (h' : g.Flattens i all') : all = all' := by
  induction bound : rank i using Nat.strongRecOn generalizing i all all' with
  | ind r ih =>
    subst bound
    obtain ⟨tag, start, pairs, brought, here, sources, rfl⟩ := flattens_iff.mp h
    obtain ⟨_, _, _, brought', here', sources', rfl⟩ := flattens_iff.mp h'
    cases here.symm.trans here'
    suffices same : brought = brought' by rw [same]
    refine forall₂_unique sources sources' ?_
    intro j hj l l' brings brings'
    obtain ⟨q, hq, rfl⟩ := List.mem_map.mp hj
    have low := down.lower i _ here _ (Vertex.mem_parts_mapping _ _ (List.mem_of_mem_filter hq)).2
    cases brings with
    | mapping flat =>
      obtain ⟨_, _, _, there⟩ := flat.exists_mapping
      exact ih _ low flat (brings'.of_mapping there) rfl
    | sequence there flat =>
      obtain ⟨lists, flat', rfl⟩ := brings'.of_sequence there
      have same := forall₂_unique flat flat' fun k hk _ _ one two =>
        ih _ (Nat.lt_trans (down.lower _ _ there k hk) low) one two rfl
      rw [same]

/-- The pair of a mapping of one is determined. -/
theorem Single.unique {i : Nat} {p q : Nat × Nat} (h : g.Single i p) (h' : g.Single i q) : p = q := by
  obtain ⟨_, _, here⟩ := h
  obtain ⟨_, _, here'⟩ := h'
  cases here.symm.trans here'
  rfl

theorem Single.lower (down : g.Descends rank) {i : Nat} {p : Nat × Nat} (h : g.Single i p) :
    rank p.1 < rank i ∧ rank p.2 < rank i := by
  obtain ⟨tag, start, here⟩ := h
  obtain ⟨key, value⟩ := Vertex.mem_parts_mapping tag start (List.mem_singleton_self p)
  exact ⟨down.lower i _ here _ key, down.lower i _ here _ value⟩

theorem Single.inside (down : g.Descends rank) {i : Nat} {p : Nat × Nat} (h : g.Single i p) :
    p.1 < g.vertices.size ∧ p.2 < g.vertices.size := by
  obtain ⟨tag, start, here⟩ := h
  obtain ⟨key, value⟩ := Vertex.mem_parts_mapping tag start (List.mem_singleton_self p)
  exact ⟨down.inside i _ here _ key, down.inside i _ here _ value⟩

/-- The pairs that a list of pairs is given as lie below it. -/
theorem lower_of_singles (down : g.Descends rank) {i : Nat} {tag : Tag} {start : Option Mark}
    {items : List Nat} {all : List (Nat × Nat)}
    (here : g.vertex? i = some ⟨tag, start, .sequence items⟩)
    (singles : List.Forall₂ g.Single items all) {p : Nat × Nat} (hp : p ∈ all) :
    rank p.1 < rank i ∧ rank p.2 < rank i := by
  obtain ⟨c, hc, single⟩ := mem_of_forall₂ singles hp
  have low := down.lower i _ here c hc
  exact (single.lower down).imp (Nat.lt_trans · low) (Nat.lt_trans · low)

theorem Flattens.lower (down : g.Descends rank) {i : Nat} {all : List (Nat × Nat)}
    (flat : g.Flattens i all) {p : Nat × Nat} (hp : p ∈ all) :
    rank p.1 < rank i ∧ rank p.2 < rank i :=
  (flat.origin down hp).lower down

/-- The value of a node is determined. -/
theorem Means.unique (down : g.Descends rank) {i : Nat} {v w : Value} (h : g.Means i v)
    (h' : g.Means i w) : v = w := by
  induction bound : rank i using Nat.strongRecOn generalizing i v w with
  | ind r ih =>
    subst bound
    have one : ∀ {all : List (Nat × Nat)} {entries entries' : List (Value × Value)},
        (∀ p ∈ all, rank p.1 < rank i ∧ rank p.2 < rank i) → List.Forall₂ g.Reads all entries →
          List.Forall₂ g.Reads all entries' → entries = entries' := by
      intro all entries entries' low reads reads'
      refine forall₂_unique reads reads' ?_
      intro p hp e e' r r'
      exact Prod.ext (ih _ (low p hp).1 r.1 r'.1 rfl) (ih _ (low p hp).2 r.2 r'.2 rfl)
    cases h with
    | scalar here reads =>
      obtain ⟨_, reads', rfl⟩ := h'.of_scalar here
      rw [Option.some.inj (reads.symm.trans reads')]
    | list here parts =>
      obtain ⟨_, parts', rfl⟩ := h'.of_seq here
      have values := forall₂_unique parts parts' fun c hc _ _ one two =>
        ih _ (down.lower _ _ here c hc) one two rfl
      rw [values]
    | dict here flat keys values _ =>
      obtain ⟨_, _, flat', reads', -, rfl⟩ := h'.of_map here
      cases flat.unique down flat'
      rw [one (fun p hp => flat.lower down hp) (reads_iff.mpr ⟨keys, values⟩) reads']
    | set here flat keys values _ =>
      obtain ⟨_, _, flat', reads', -, ⟨other, -⟩ | ⟨-, rfl⟩⟩ := h'.of_mapping here
      · cases other
      · cases flat.unique down flat'
        rw [one (fun p hp => flat.lower down hp) (reads_iff.mpr ⟨keys, values⟩) reads']
    | tuples here paired singles keys values =>
      rcases h'.of_sequence here with ⟨rfl, -⟩ | ⟨-, _, _, singles', reads', rfl⟩
      · cases paired
      · cases forall₂_unique singles singles' fun _ _ _ _ => Single.unique
        rw [one (fun p hp => lower_of_singles down here singles hp) (reads_iff.mpr ⟨keys, values⟩)
          reads']

end Graph

/-! ## Graphs inside of graphs -/

/-- A node whose parts have other names. -/
def Vertex.rename (name : Nat → Nat) (v : Vertex) : Vertex :=
  { v with body := match v.body with
    | .scalar text => .scalar text
    | .sequence items => .sequence (items.map name)
    | .mapping pairs => .mapping (pairs.map (Prod.map name name)) }

namespace Graph

/-- The nodes of a graph are among those of another, under other names. -/
def Within (g h : Graph) (name : Nat → Nat) : Prop :=
  ∀ k, ∀ v ∈ g.vertex? k, h.vertex? (name k) = some (v.rename name)

namespace Within

variable {g h : Graph} {rank name : Nat → Nat}

theorem tag? (w : g.Within h name) {k : Nat} (bound : k < g.vertices.size) :
    h.tag? (name k) = g.tag? k := by
  obtain ⟨v, here⟩ := exists_vertex bound
  rw [Graph.tag?, Graph.tag?, here, w k v here]
  rfl

/-- A renamed node is of the kind that the node is. -/
theorem scalar (w : g.Within h name) {k : Nat} (bound : k < g.vertices.size) {tag : Tag}
    {start : Option Mark} {text : Text} (there : h.vertex? (name k) = some ⟨tag, start, .scalar text⟩) :
    g.vertex? k = some ⟨tag, start, .scalar text⟩ := by
  obtain ⟨⟨tag', start', body⟩, here⟩ := exists_vertex bound
  have same := (w k _ here).symm.trans there
  cases body <;> cases same
  exact here

theorem sequence (w : g.Within h name) {k : Nat} (bound : k < g.vertices.size) {tag : Tag}
    {start : Option Mark} {items : List Nat}
    (there : h.vertex? (name k) = some ⟨tag, start, .sequence items⟩) :
    ∃ own, g.vertex? k = some ⟨tag, start, .sequence own⟩ ∧ items = own.map name := by
  obtain ⟨⟨tag', start', body⟩, here⟩ := exists_vertex bound
  have same := (w k _ here).symm.trans there
  cases body <;> cases same
  exact ⟨_, here, rfl⟩

theorem mapping (w : g.Within h name) {k : Nat} (bound : k < g.vertices.size) {tag : Tag}
    {start : Option Mark} {pairs : List (Nat × Nat)}
    (there : h.vertex? (name k) = some ⟨tag, start, .mapping pairs⟩) :
    ∃ own, g.vertex? k = some ⟨tag, start, .mapping own⟩ ∧
      pairs = own.map (Prod.map name name) := by
  obtain ⟨⟨tag', start', body⟩, here⟩ := exists_vertex bound
  have same := (w k _ here).symm.trans there
  cases body <;> cases same
  exact ⟨_, here, rfl⟩

/-- What is known of a list with renamed items is known of the items, if it is so for each. -/
theorem forall₂_unname {α β : Type} {R : Nat → α → Prop} {S : Nat → β → Prop} {f : β → α}
    {items : List Nat} {values : List α} (parts : List.Forall₂ R (items.map name) values)
    (each : ∀ c ∈ items, ∀ v, R (name c) v → ∃ own, v = f own ∧ S c own) :
    ∃ own, values = own.map f ∧ List.Forall₂ S items own := by
  induction items generalizing values with
  | nil =>
    cases parts
    exact ⟨[], rfl, .nil⟩
  | cons c r ih =>
    rw [List.map_cons] at parts
    cases parts with
    | cons first rest =>
      obtain ⟨own, rfl, here⟩ := each c List.mem_cons_self _ first
      obtain ⟨more, rfl, there⟩ := ih rest fun d hd => each d (List.mem_cons_of_mem c hd)
      exact ⟨own :: more, rfl, .cons here there⟩

/-- The parts of a renamed node are the renamed parts. -/
theorem mem_parts_rename {v : Vertex} {c : Nat} (hc : c ∈ v.parts) : name c ∈ (v.rename name).parts := by
  obtain ⟨tag, start, body⟩ := v
  cases body with
  | scalar text => cases hc
  | sequence items => exact List.mem_map_of_mem hc
  | mapping pairs =>
    obtain ⟨p, hp, hc⟩ := List.mem_flatMap.mp hc
    refine List.mem_flatMap.mpr ⟨Prod.map name name p, List.mem_map_of_mem hp, ?_⟩
    simpa using (by simpa using hc : c = p.1 ∨ c = p.2).imp (congrArg name) (congrArg name)

/-- A graph goes down as the one around it. -/
theorem descends (w : g.Within h name) (down : h.Descends rank)
    (inside : ∀ i, ∀ v ∈ g.vertex? i, ∀ c ∈ v.parts, c < g.vertices.size) :
    g.Descends (rank ∘ name) := by
  refine ⟨inside, ?_⟩
  intro i v here c hc
  exact down.lower (name i) _ (w i v here) (name c) (mem_parts_rename hc)

theorem plain (w : g.Within h name) (known : h.Plain) : g.Plain := by
  refine ⟨?_, ?_, ?_⟩
  · intro i value
    obtain ⟨v, here, same⟩ := Option.map_eq_some_iff.mp value
    refine known.valueless (name i) ?_
    rw [Graph.tag?, w i v here]
    exact congrArg some same
  · intro i tag start items here paired c hc p hp
    cases merge : g.tag? p.1 with
    | none => rw [Graph.merges, merge]; rfl
    | some tag' =>
      obtain ⟨v, key, -⟩ := Option.map_eq_some_iff.mp merge
      have bound := (Array.getElem?_eq_some_iff.mp key).1
      have listed : Prod.map name name p ∈ h.pairs (name c) := by
        rw [Graph.pairs] at hp
        split at hp
        · next part =>
          rw [Graph.pairs, w c _ part]
          exact List.mem_map_of_mem hp
        · cases hp
      have none := known.singles _ _ _ _ (w i _ here) paired (name c) (List.mem_map_of_mem hc) _ listed
      rw [Graph.merges, Prod.map_fst, w.tag? bound] at none
      exact none
  · intro i tag start pairs here p hp tag' start' text v key reads
    exact known.keys _ _ _ _ (w i _ here) (Prod.map name name p) (List.mem_map_of_mem hp) _ _ _ v
      (w p.1 _ key) reads

/-- Renamed pairs are merge pairs where the pairs are. -/
theorem merges_of_inside (w : g.Within h name) {p : Nat × Nat} (inside : p.1 < g.vertices.size) :
    h.merges (Prod.map name name p) = g.merges p := by
  rw [Graph.merges, Graph.merges, Prod.map_fst, w.tag? inside]

variable (w : g.Within h name) (down : g.Descends rank)
include w down

theorem merges {k : Nat} {tag : Tag} {start : Option Mark} {pairs : List (Nat × Nat)}
    (here : g.vertex? k = some ⟨tag, start, .mapping pairs⟩) {p : Nat × Nat} (hp : p ∈ pairs) :
    h.merges (Prod.map name name p) = g.merges p :=
  w.merges_of_inside (down.inside k _ here _ (Vertex.mem_parts_mapping _ _ hp).1)

/-- The names of the merge sources of a mapping. -/
theorem filter_merges {k : Nat} {tag : Tag} {start : Option Mark} {pairs : List (Nat × Nat)}
    (here : g.vertex? k = some ⟨tag, start, .mapping pairs⟩) :
    ((pairs.map (Prod.map name name)).filter h.merges).map (·.2) =
      ((pairs.filter g.merges).map (·.2)).map name := by
  rw [filter_map_of_mem fun p hp => w.merges down here hp, List.map_map, List.map_map]
  rfl

/-- The names of the other pairs of a mapping. -/
theorem filter_not_merges {k : Nat} {tag : Tag} {start : Option Mark} {pairs : List (Nat × Nat)}
    (here : g.vertex? k = some ⟨tag, start, .mapping pairs⟩) :
    ((pairs.map (Prod.map name name)).filter fun p => !h.merges p) =
      (pairs.filter fun p => !g.merges p).map (Prod.map name name) :=
  filter_map_of_mem fun _ hp => congrArg (!·) (w.merges down here hp)

/-- Merge keys bring the pairs of the same names. -/
theorem flattens {k : Nat} {all : List (Nat × Nat)} (flat : g.Flattens k all) :
    h.Flattens (name k) (all.map (Prod.map name name)) := by
  induction bound : rank k using Nat.strongRecOn generalizing k all with
  | ind r ih =>
    subst bound
    obtain ⟨tag, start, pairs, brought, here, sources, rfl⟩ := flattens_iff.mp flat
    refine flattens_iff.mpr ⟨tag, start, _, brought.map (List.map (Prod.map name name)),
      w k _ here, ?_, ?_⟩
    · rw [w.filter_merges down here, List.forall₂_map_left_iff, List.forall₂_map_right_iff]
      refine forall₂_of_mem sources ?_
      intro j hj l brings
      obtain ⟨q, hq, rfl⟩ := List.mem_map.mp hj
      have low := down.lower k _ here _ (Vertex.mem_parts_mapping _ _ (List.mem_of_mem_filter hq)).2
      cases brings with
      | mapping flat => exact .mapping (ih _ low flat rfl)
      | @sequence _ tag start items lists there flat =>
        have renamed : List.Forall₂ h.Flattens (items.map name)
            (lists.map (List.map (Prod.map name name))) := by
          rw [List.forall₂_map_left_iff, List.forall₂_map_right_iff]
          refine forall₂_of_mem flat ?_
          intro c hc l flat
          exact ih _ (Nat.lt_trans (down.lower _ _ there c hc) low) flat rfl
        have brings := Brings.sequence (w _ _ there) renamed
        rw [← List.map_reverse, ← List.map_flatten] at brings
        exact brings
    · rw [w.filter_not_merges down here, List.map_append, List.map_flatten]

omit down in
theorem singles {items : List Nat} {all : List (Nat × Nat)} (known : List.Forall₂ g.Single items all) :
    List.Forall₂ h.Single (items.map name) (all.map (Prod.map name name)) := by
  rw [List.forall₂_map_left_iff, List.forall₂_map_right_iff]
  refine known.imp ?_
  rintro c p ⟨tag, start, here⟩
  exact ⟨tag, start, w c _ here⟩

/-- A renamed node means what the node means. -/
theorem means {k : Nat} {v : Value} (m : g.Means k v) : h.Means (name k) v := by
  induction bound : rank k using Nat.strongRecOn generalizing k v with
  | ind r ih =>
    subst bound
    have renamed : ∀ {all : List (Nat × Nat)} {entries : List (Value × Value)},
        (∀ p ∈ all, rank p.1 < rank k ∧ rank p.2 < rank k) → List.Forall₂ g.Reads all entries →
          List.Forall₂ h.Reads (all.map (Prod.map name name)) entries := by
      intro all entries low reads
      rw [List.forall₂_map_left_iff]
      refine forall₂_of_mem reads ?_
      intro p hp e r
      exact ⟨ih _ (low p hp).1 r.1 rfl, ih _ (low p hp).2 r.2 rfl⟩
    cases m with
    | scalar here reads => exact .scalar (w k _ here) reads
    | list here parts =>
      refine .list (w k _ here) ?_
      rw [List.forall₂_map_left_iff]
      exact forall₂_of_mem parts fun c hc _ m => ih _ (down.lower k _ here c hc) m rfl
    | dict here flat keys values scalars =>
      obtain ⟨keys', values'⟩ := reads_iff.mp <|
        renamed (fun p hp => flat.lower down hp) (reads_iff.mpr ⟨keys, values⟩)
      exact .dict (w k _ here) (w.flattens down flat) keys' values' scalars
    | set here flat keys values scalars =>
      obtain ⟨keys', values'⟩ := reads_iff.mp <|
        renamed (fun p hp => flat.lower down hp) (reads_iff.mpr ⟨keys, values⟩)
      exact .set (w k _ here) (w.flattens down flat) keys' values' scalars
    | tuples here paired known keys values =>
      obtain ⟨keys', values'⟩ := reads_iff.mp <|
        renamed (fun p hp => lower_of_singles down here known hp) (reads_iff.mpr ⟨keys, values⟩)
      exact .tuples (w k _ here) paired (w.singles known) keys' values'

/-- The pairs that a renamed mapping gets are renamed pairs. -/
theorem flattens_of_renamed {k : Nat} (inside : k < g.vertices.size) {all : List (Nat × Nat)}
    (flat : h.Flattens (name k) all) :
    ∃ own, all = own.map (Prod.map name name) ∧ g.Flattens k own := by
  induction bound : rank k using Nat.strongRecOn generalizing k all with
  | ind r ih =>
    subst bound
    obtain ⟨tag, start, _, brought, there, sources, rfl⟩ := flattens_iff.mp flat
    obtain ⟨pairs, here, rfl⟩ := w.mapping inside there
    rw [w.filter_merges down here] at sources
    obtain ⟨own, rfl, sources'⟩ := forall₂_unname (f := List.map (Prod.map name name)) (S := g.Brings)
      sources <| by
      intro j hj l brings
      obtain ⟨q, hq, rfl⟩ := List.mem_map.mp hj
      have part := (Vertex.mem_parts_mapping tag start
        (List.mem_of_mem_filter hq)).2
      have low := down.lower k _ here _ part
      have inside := down.inside k _ here _ part
      cases brings with
      | mapping flat =>
        obtain ⟨own, rfl, flat'⟩ := ih _ low inside flat rfl
        exact ⟨own, rfl, .mapping flat'⟩
      | sequence there flat =>
        obtain ⟨items, here, rfl⟩ := w.sequence inside there
        obtain ⟨lists, rfl, flat'⟩ := forall₂_unname (f := List.map (Prod.map name name))
          (S := g.Flattens) flat fun c hc l flat =>
            ih _ (Nat.lt_trans (down.lower _ _ here c hc) low) (down.inside _ _ here c hc) flat rfl
        refine ⟨lists.reverse.flatten, ?_, .sequence here flat'⟩
        rw [← List.map_reverse, ← List.map_flatten]
    refine ⟨own.flatten ++ pairs.filter fun p => !g.merges p, ?_,
      flattens_iff.mpr ⟨tag, start, pairs, own, here, sources', rfl⟩⟩
    rw [w.filter_not_merges down here, List.map_append, List.map_flatten]

omit down in
theorem singles_of_renamed {items : List Nat} (inside : ∀ c ∈ items, c < g.vertices.size)
    {all : List (Nat × Nat)} (known : List.Forall₂ h.Single (items.map name) all) :
    ∃ own, all = own.map (Prod.map name name) ∧ List.Forall₂ g.Single items own := by
  refine forall₂_unname known ?_
  rintro c hc p ⟨tag, start, there⟩
  obtain ⟨own, here, same⟩ := w.mapping (inside c hc) there
  obtain ⟨q, rfl, rfl⟩ := List.map_eq_singleton_iff.mp same.symm
  exact ⟨q, rfl, tag, start, here⟩

/-- A node means what the renamed node means. -/
theorem means_of_renamed {k : Nat} (inside : k < g.vertices.size) {v : Value}
    (m : h.Means (name k) v) : g.Means k v := by
  induction bound : rank k using Nat.strongRecOn generalizing k v with
  | ind r ih =>
    subst bound
    have own : ∀ {all : List (Nat × Nat)} {entries : List (Value × Value)},
        (∀ p ∈ all, (rank p.1 < rank k ∧ rank p.2 < rank k) ∧
          p.1 < g.vertices.size ∧ p.2 < g.vertices.size) →
        List.Forall₂ h.Means ((all.map (Prod.map name name)).map (·.1)) (entries.map (·.1)) →
        List.Forall₂ h.Means ((all.map (Prod.map name name)).map (·.2)) (entries.map (·.2)) →
          List.Forall₂ g.Means (all.map (·.1)) (entries.map (·.1)) ∧
            List.Forall₂ g.Means (all.map (·.2)) (entries.map (·.2)) := by
      intro all entries low keys values
      have reads := reads_iff.mpr ⟨keys, values⟩
      rw [List.forall₂_map_left_iff] at reads
      refine reads_iff.mp (forall₂_of_mem reads ?_)
      intro p hp e r
      obtain ⟨less, known⟩ := low p hp
      exact ⟨ih _ less.1 known.1 r.1 rfl, ih _ less.2 known.2 r.2 rfl⟩
    generalize place : name k = j at m
    cases m with
    | scalar there reads =>
      subst place
      exact .scalar (w.scalar inside there) reads
    | list there parts =>
      subst place
      obtain ⟨items, here, rfl⟩ := w.sequence inside there
      rw [List.forall₂_map_left_iff] at parts
      exact .list here (forall₂_of_mem parts fun c hc _ m =>
        ih _ (down.lower k _ here c hc) (down.inside k _ here c hc) m rfl)
    | dict there flat keys values scalars =>
      subst place
      obtain ⟨pairs, here, rfl⟩ := w.mapping inside there
      obtain ⟨all, rfl, flat'⟩ := w.flattens_of_renamed down inside flat
      obtain ⟨keys', values'⟩ := own (fun p hp =>
        ⟨flat'.lower down hp, (flat'.origin down hp).inside down⟩) keys values
      exact .dict here flat' keys' values' scalars
    | set there flat keys values scalars =>
      subst place
      obtain ⟨pairs, here, rfl⟩ := w.mapping inside there
      obtain ⟨all, rfl, flat'⟩ := w.flattens_of_renamed down inside flat
      obtain ⟨keys', values'⟩ := own (fun p hp =>
        ⟨flat'.lower down hp, (flat'.origin down hp).inside down⟩) keys values
      exact .set here flat' keys' values' scalars
    | tuples there paired known keys values =>
      subst place
      obtain ⟨items, here, rfl⟩ := w.sequence inside there
      obtain ⟨all, rfl, known'⟩ := w.singles_of_renamed (down.inside k _ here) known
      have below : ∀ p ∈ all, p.1 < g.vertices.size ∧ p.2 < g.vertices.size := by
        intro p hp
        obtain ⟨c, -, single⟩ := mem_of_forall₂ known' hp
        exact single.inside down
      obtain ⟨keys', values'⟩ := own (fun p hp =>
        ⟨lower_of_singles down here known' hp, below p hp⟩) keys values
      exact .tuples here paired known' keys' values'

end Within

end Graph

end YamlEdit
