import Mathlib.Data.List.Induction
import YamlEdit.Proofs.Value.Same
import YamlEdit.Value.Store

/-!
# Entries of a store

Keys of a stored dictionary are references, and are compared by what they refer to. Where all of them
are scalars, filling a stored dictionary is filling the dictionary of values.
-/

namespace YamlEdit.Store

variable {s s' : Store}

/-- A reference to a scalar. -/
def HasLeaf (s : Store) (ref : Nat) : Prop :=
  ∃ v, s.objects[ref]? = some (.leaf v)

theorem read_leaf {ref : Nat} {v : Value} (here : s.objects[ref]? = some (.leaf v)) :
    s.read ref = v.identified ref := by
  rw [read, unfold, List.contains_nil, if_neg Bool.false_ne_true, here]

theorem sameKey_congr {a b : Nat} (same : ∀ ref, ref = a ∨ ref = b → s'.read ref = s.read ref) :
    s'.sameKey a b = s.sameKey a b := by
  rw [sameKey, sameKey, same a (.inl rfl), same b (.inr rfl)]

/-- Entries put into a stored dictionary, one after another. -/
def gather (s : Store) (entries : List (Nat × Nat)) : List (Nat × Nat) :=
  entries.foldl (fun dict e => s.putEntry dict e.1 e.2) []

theorem mem_keys_putEntry {entries : List (Nat × Nat)} {key value : Nat} {e : Nat × Nat}
    (h : e ∈ s.putEntry entries key value) : e.1 = key ∨ ∃ d ∈ entries, e.1 = d.1 := by
  induction entries with
  | nil =>
    rw [putEntry, List.mem_singleton] at h
    rw [h]
    exact .inl rfl
  | cons d r ih =>
    rw [putEntry] at h
    split at h
    · rcases List.mem_cons.mp h with rfl | later
      · exact .inr ⟨d, List.mem_cons_self, rfl⟩
      · exact .inr ⟨e, List.mem_cons_of_mem d later, rfl⟩
    · rcases List.mem_cons.mp h with rfl | later
      · exact .inr ⟨e, List.mem_cons_self, rfl⟩
      · refine (ih later).imp id ?_
        rintro ⟨f, hf, same⟩
        exact ⟨f, List.mem_cons_of_mem d hf, same⟩

/-- Putting an entry looks at keys only. -/
theorem putEntry_congr {entries : List (Nat × Nat)} {key : Nat} (value : Nat)
    (here : s'.read key = s.read key) (there : ∀ e ∈ entries, s'.read e.1 = s.read e.1) :
    s'.putEntry entries key value = s.putEntry entries key value := by
  induction entries with
  | nil => rfl
  | cons e r ih =>
    have same : s'.sameKey key e.1 = s.sameKey key e.1 := by
      refine sameKey_congr ?_
      rintro ref (rfl | rfl)
      · exact here
      · exact there e List.mem_cons_self
    rw [putEntry, putEntry, same, ih fun d hd => there d (List.mem_cons_of_mem e hd)]

theorem foldl_putEntry_congr {entries dict : List (Nat × Nat)}
    (keys : ∀ e ∈ entries, s'.read e.1 = s.read e.1) (old : ∀ e ∈ dict, s'.read e.1 = s.read e.1) :
    entries.foldl (fun dict e => s'.putEntry dict e.1 e.2) dict =
      entries.foldl (fun dict e => s.putEntry dict e.1 e.2) dict := by
  induction entries generalizing dict with
  | nil => rfl
  | cons e r ih =>
    have here := keys e List.mem_cons_self
    rw [List.foldl_cons, List.foldl_cons, putEntry_congr e.2 here old]
    refine ih (fun d hd => keys d (List.mem_cons_of_mem e hd)) ?_
    intro d hd
    rcases mem_keys_putEntry hd with same | ⟨f, hf, same⟩
    · rw [same]
      exact here
    · rw [same]
      exact old f hf

/-- A dictionary that has been filled stays the same when objects are added to the store. -/
theorem gather_congr {entries : List (Nat × Nat)} (leaves : ∀ e ∈ entries, s.HasLeaf e.1)
    (kept : ∀ (ref : Nat) (v : Value), s.objects[ref]? = some (.leaf v) → s'.objects[ref]? = some (.leaf v)) :
    s'.gather entries = s.gather entries := by
  refine foldl_putEntry_congr ?_ nofun
  intro e he
  obtain ⟨v, here⟩ := leaves e he
  rw [read_leaf here, read_leaf (kept _ v here)]

/-- An entry put into a stored dictionary is one put into the dictionary of values. -/
theorem map_putEntry {value : Nat → Value} {entries : List (Nat × Nat)} {key ref : Nat}
    (same : ∀ e ∈ entries, s.sameKey key e.1 = (value key).same (value e.1)) :
    (s.putEntry entries key ref).map (Prod.map value value) =
      Value.put (entries.map (Prod.map value value)) (value key) (value ref) := by
  induction entries with
  | nil => rfl
  | cons e r ih =>
    rw [putEntry, same e List.mem_cons_self, List.map_cons, Value.put, Prod.map_fst]
    split
    · rfl
    · rw [List.map_cons, ih fun d hd => same d (List.mem_cons_of_mem e hd)]

/-- A stored dictionary that is filled is the dictionary that is filled with the values. -/
theorem map_gather {value : Nat → Value} {entries : List (Nat × Nat)}
    (same : ∀ d ∈ entries, ∀ e ∈ entries, s.sameKey d.1 e.1 = (value d.1).same (value e.1)) :
    (s.gather entries).map (Prod.map value value) =
      Value.gather (entries.map (Prod.map value value)) := by
  have folded : ∀ (more dict : List (Nat × Nat)), (∀ e ∈ more, e ∈ entries) →
      (∀ e ∈ dict, ∃ d ∈ entries, e.1 = d.1) →
      (more.foldl (fun dict e => s.putEntry dict e.1 e.2) dict).map (Prod.map value value) =
        (more.map (Prod.map value value)).foldl (fun dict e => Value.put dict e.1 e.2)
          (dict.map (Prod.map value value)) := by
    intro more
    induction more with
    | nil => exact fun _ _ _ => rfl
    | cons e r ih =>
      intro dict listed keys
      have he := listed e List.mem_cons_self
      rw [List.foldl_cons, List.map_cons, List.foldl_cons, ih]
      · congr 1
        refine map_putEntry ?_
        intro d hd
        obtain ⟨f, hf, key⟩ := keys d hd
        rw [key]
        exact same e he f hf
      · exact fun d hd => listed d (List.mem_cons_of_mem e hd)
      · intro d hd
        rcases mem_keys_putEntry hd with key | ⟨f, hf, key⟩
        · exact ⟨e, he, key⟩
        · obtain ⟨f', hf', key'⟩ := keys f hf
          exact ⟨f', hf', key.trans key'⟩
  exact folded entries [] (fun _ he => he) nofun

/-! ## Looking up -/

/-- What a stored dictionary has under a key. -/
def under? (s : Store) (entries : List (Nat × Nat)) (k : Value) : Option Nat :=
  (entries.find? fun e => k.same (s.read e.1)).map (·.2)

theorem under?_cons (e : Nat × Nat) (r : List (Nat × Nat)) (k : Value) :
    s.under? (e :: r) k = if k.same (s.read e.1) then some e.2 else s.under? r k := by
  rw [under?, List.find?_cons]
  split <;> simp_all [under?]

/-- Beside a scalar, a key of the dictionary is the key that is put exactly if both are the scalar, or
neither is. -/
theorem same_of_sameKey {a b : Nat} (ha : (s.read a).IsScalar) (hb : (s.read b).IsScalar) {k : Value}
    (hk : k.IsScalar) (same : s.sameKey a b = true) : k.same (s.read a) = k.same (s.read b) := by
  rw [sameKey, Bool.or_eq_true, beq_iff_eq] at same
  rcases same with rfl | same
  · rfl
  · refine Bool.eq_iff_iff.mpr ⟨fun first => ?_, fun second => ?_⟩
    · exact Value.same_of_same hk hb first (Value.same_comm ha _ ▸ same)
    · exact Value.same_of_same hk ha second same

/-- What is under a key when another entry has been put, even if there are keys that are not one with
themselves. -/
theorem under?_putEntry {entries : List (Nat × Nat)}
    (scalars : ∀ e ∈ entries, (s.read e.1).IsScalar) {key : Nat} (scalar : (s.read key).IsScalar)
    (value : Nat) {k : Value} (hk : k.IsScalar) :
    s.under? (s.putEntry entries key value) k =
      if k.same (s.read key) then some value else s.under? entries k := by
  induction entries with
  | nil => exact under?_cons (key, value) [] k
  | cons e r ih =>
    obtain ⟨first, rest⟩ := List.forall_mem_cons.mp scalars
    rw [putEntry]
    by_cases same : s.sameKey key e.1 = true
    · rw [if_pos same, under?_cons, under?_cons, same_of_sameKey scalar first hk same]
      split <;> rfl
    · rw [if_neg same, under?_cons, under?_cons, ih rest]
      split
      · next here =>
        rw [if_neg]
        intro there
        refine same ?_
        rw [sameKey, Value.same_of_same scalar first (x := k) ?_ ?_, Bool.or_true]
        · rwa [Value.same_comm scalar]
        · rwa [Value.same_comm first]
      · rfl

theorem gather_concat (entries : List (Nat × Nat)) (e : Nat × Nat) :
    s.gather (entries ++ [e]) = s.putEntry (s.gather entries) e.1 e.2 := by
  rw [gather, gather, List.foldl_append]
  rfl

theorem mem_keys_gather {entries : List (Nat × Nat)} {e : Nat × Nat} (h : e ∈ s.gather entries) :
    ∃ d ∈ entries, e.1 = d.1 := by
  induction entries using List.reverseRecOn generalizing e with
  | nil => cases h
  | append_singleton entries last ih =>
    rw [gather_concat] at h
    rcases mem_keys_putEntry h with same | ⟨f, hf, same⟩
    · exact ⟨last, by simp, same⟩
    · obtain ⟨d, hd, key⟩ := ih hf
      exact ⟨d, List.mem_append_left _ hd, same.trans key⟩

/-- The last entry of a key stays. -/
theorem under?_gather {first rest : List (Nat × Nat)} {key value : Nat}
    (scalars : ∀ e ∈ first ++ (key, value) :: rest, (s.read e.1).IsScalar) {k : Value}
    (hk : k.IsScalar) (here : k.same (s.read key) = true)
    (last : ∀ e ∈ rest, k.same (s.read e.1) = false) :
    s.under? (s.gather (first ++ (key, value) :: rest)) k = some value := by
  have gathered {part : List (Nat × Nat)} (known : ∀ e ∈ part, (s.read e.1).IsScalar) :
      ∀ e ∈ s.gather part, (s.read e.1).IsScalar := by
    intro e he
    obtain ⟨d, hd, same⟩ := mem_keys_gather he
    rw [same]
    exact known d hd
  induction rest using List.reverseRecOn with
  | nil =>
    obtain ⟨before, scalar⟩ := List.forall_mem_append.mp scalars
    rw [gather_concat, under?_putEntry (gathered before) (scalar _ (List.mem_singleton_self _)) _ hk,
      if_pos here]
  | append_singleton rest e ih =>
    obtain ⟨untouched, apart⟩ := List.forall_mem_append.mp last
    rw [← List.cons_append, ← List.append_assoc] at scalars ⊢
    obtain ⟨before, scalar⟩ := List.forall_mem_append.mp scalars
    rw [gather_concat, under?_putEntry (gathered before) (scalar _ (List.mem_singleton_self _)) _ hk,
      apart e (List.mem_singleton_self _), if_neg Bool.false_ne_true]
    exact ih before untouched

end YamlEdit.Store
