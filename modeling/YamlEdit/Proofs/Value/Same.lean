import Mathlib.Data.List.Perm.Subperm
import YamlEdit.Proofs.Number.Normalized
import YamlEdit.Value.Equal

/-!
# Sameness of keys

Identities play no part in comparing values. Among the values that scalars of a text have, being the
same key is an equivalence, whatever the types are; so a dictionary that is filled by putting one
entry after another has under a key the last value that was put there.
-/

namespace YamlEdit.Value

/-! ## Values without identities -/

mutual

/-- A value without identities. -/
def bare : Value → Value
  | date _ d => date none d
  | dateTime _ t => dateTime none t
  | list _ items => list none (bareItems items)
  | dict _ entries => dict none (bareEntries entries)
  | tuple _ items => tuple none (bareItems items)
  | set _ members => set none (bareItems members)
  | v => v
termination_by structural v => v

/-- Item by item. -/
def bareItems : List Value → List Value
  | [] => []
  | v :: r => bare v :: bareItems r

/-- Entry by entry. -/
def bareEntries : List (Value × Value) → List (Value × Value)
  | [] => []
  | (k, v) :: r => (bare k, bare v) :: bareEntries r

end

theorem bareItems_eq_map (items : List Value) : bareItems items = items.map bare := by
  induction items with
  | nil => rfl
  | cons v r ih => rw [bareItems, ih, List.map_cons]

theorem bareEntries_eq_map (entries : List (Value × Value)) :
    bareEntries entries = entries.map fun e => (e.1.bare, e.2.bare) := by
  induction entries with
  | nil => rfl
  | cons e r ih => rw [bareEntries, ih, List.map_cons]

@[simp] theorem bare_list (id : Option Nat) (items : List Value) :
    (list id items).bare = list none (items.map bare) := by
  rw [bare, bareItems_eq_map]

@[simp] theorem bare_dict (id : Option Nat) (entries : List (Value × Value)) :
    (dict id entries).bare = dict none (entries.map fun e => (e.1.bare, e.2.bare)) := by
  rw [bare, bareEntries_eq_map]

@[simp] theorem bare_tuple (id : Option Nat) (items : List Value) :
    (tuple id items).bare = tuple none (items.map bare) := by
  rw [bare, bareItems_eq_map]

@[simp] theorem bare_set (id : Option Nat) (members : List Value) :
    (set id members).bare = set none (members.map bare) := by
  rw [bare, bareItems_eq_map]

@[simp] theorem bare_identified (id : Nat) (v : Value) : (v.identified id).bare = v.bare := by
  cases v <;> rfl

mutual

/-- A key without identities is the same key. -/
theorem same_bare (v w : Value) : same v.bare w = same v w := by
  cases v with
  | list id items =>
    cases w with
    | list id' items' => rw [bare, same, same, sameItems_bareItems]
    | _ => rfl
  | tuple id items =>
    cases w with
    | tuple id' items' => rw [bare, same, same, sameItems_bareItems]
    | _ => rfl
  | dict id entries =>
    cases w with
    | dict id' entries' =>
      rw [bare, same, same, sameEntries_bareEntries, bareEntries_eq_map, List.length_map]
    | _ => rfl
  | set id members =>
    cases w with
    | set id' members' =>
      rw [bare, same, same, sameMembers_bareItems, bareItems_eq_map, List.length_map]
    | _ => rfl
  | _ => cases w <;> rfl
termination_by structural v

theorem sameItems_bareItems (items items' : List Value) :
    sameItems (bareItems items) items' = sameItems items items' := by
  cases items with
  | nil => rfl
  | cons v r =>
    cases items' with
    | nil => rfl
    | cons w r' => rw [bareItems, sameItems, sameItems, same_bare, sameItems_bareItems]

theorem sameEntries_bareEntries (entries entries' : List (Value × Value)) :
    sameEntries (bareEntries entries) entries' = sameEntries entries entries' := by
  cases entries with
  | nil => rfl
  | cons e r =>
    obtain ⟨k, v⟩ := e
    have key : ∀ w, same k.bare w = same k w := same_bare k
    have value : ∀ w, same v.bare w = same v w := same_bare v
    simp only [bareEntries, sameEntries, key, value, sameEntries_bareEntries r]

theorem sameMembers_bareItems (members members' : List Value) :
    sameMembers (bareItems members) members' = sameMembers members members' := by
  cases members with
  | nil => rfl
  | cons v r =>
    have member : ∀ w, same v.bare w = same v w := same_bare v
    simp only [bareItems, sameMembers, funext member, sameMembers_bareItems r]

end

theorem hasKey_bare (entries : List (Value × Value)) (k : Value) :
    hasKey entries k.bare = hasKey entries k := by
  simp only [hasKey, same_bare]

theorem find?_bare (entries : List (Value × Value)) (k : Value) :
    find? entries k.bare = find? entries k := by
  simp only [find?, same_bare]

theorem isNan_bare (v : Value) : v.bare.isNan = v.isNan := by
  cases v <;> rfl

theorem equalScalar_bare (v w : Value) : equalScalar v.bare w = equalScalar v w := by
  have keys : same v.bare w = same v w := same_bare v w
  cases v with
  | list id items => cases w <;> rfl
  | dict id entries => cases w <;> rfl
  | tuple id items =>
    cases w <;> simp only [bare, equalScalar] at keys ⊢ <;> rw [keys] <;> rfl
  | set id members =>
    cases w <;> simp only [bare, equalScalar] at keys ⊢ <;> rw [keys] <;> rfl
  | _ => cases w <;> rfl

mutual

/-- What equals a value without identities equals the value. -/
theorem equal_bare (v w : Value) : equal v.bare w = equal v w := by
  cases v with
  | list id items =>
    cases w with
    | list id' items' => rw [bare, equal, equal, equalItems_bareItems]
    | _ => rfl
  | dict id entries =>
    cases w with
    | dict id' entries' =>
      have keys : sameKeys (bareEntries entries) entries' = sameKeys entries entries' := by
        simp only [sameKeys, bareEntries_eq_map, List.length_map, List.all_map, Function.comp_def,
          hasKey_bare]
      rw [bare, equal, equal, equalEntries_bareEntries, keys]
    | _ => rfl
  | tuple id items => exact equalScalar_bare (tuple id items) w
  | set id members => exact equalScalar_bare (set id members) w
  | _ => cases w <;> rfl
termination_by structural v

theorem equalItems_bareItems (items items' : List Value) :
    equalItems (bareItems items) items' = equalItems items items' := by
  cases items with
  | nil => rfl
  | cons v r =>
    cases items' with
    | nil => rfl
    | cons w r' => rw [bareItems, equalItems, equalItems, equal_bare, equalItems_bareItems]

theorem equalEntries_bareEntries (entries entries' : List (Value × Value)) :
    equalEntries (bareEntries entries) entries' = equalEntries entries entries' := by
  cases entries with
  | nil => rfl
  | cons e r =>
    obtain ⟨k, v⟩ := e
    have value : ∀ w, equal v.bare w = equal v w := equal_bare v
    simp only [bareEntries, equalEntries, find?_bare, value, equalEntries_bareEntries r]

end

/-- Values that differ in identities only equal the same values. -/
theorem equal_congr {v w : Value} (h : v.bare = w.bare) (x : Value) : equal v x = equal w x := by
  rw [← equal_bare v, h, equal_bare]

end Value

/-! ## Scalars as keys -/

/-- A size as a number of a text has it. -/
def Quantity.Normalized : Quantity → Prop
  | whole _ => True
  | binary x => x.Normalized

/-- Sizes that equal a third are equal. -/
theorem Quantity.eq_of_eq {a b c : Quantity} (ha : a.Normalized) (hb : b.Normalized)
    (h : a.eq c = true) (h' : b.eq c = true) : a.eq b = true := by
  cases a with
  | whole n =>
    cases b with
    | whole m =>
      cases c with
      | whole k => simp_all [eq]
      | binary z => simp_all [eq]
    | binary y =>
      cases c with
      | whole k => simp_all [eq]
      | binary z =>
        have same := Binary64.toInt?_of_numEq (x := y) (y := z) h'
        simp_all [eq]
  | binary x =>
    cases b with
    | whole m =>
      cases c with
      | whole k => simp_all [eq]
      | binary z =>
        have same := Binary64.toInt?_of_numEq (x := x) (y := z) h
        simp_all [eq]
    | binary y =>
      cases c with
      | whole k =>
        simp only [eq, beq_iff_eq] at h h'
        exact Binary64.numEq_of_toInt? ha hb h h'
      | binary z => exact Binary64.numEq_of_numEq h h'

theorem DateTime.sameTime_of_sameTime {t u x : DateTime} (h : t.sameTime x = true)
    (h' : u.sameTime x = true) : t.sameTime u = true := by
  unfold sameTime at h h' ⊢
  cases ht : t.offset <;> cases hu : u.offset <;> cases hx : x.offset <;> simp_all

namespace Value

/-- A value as a scalar of a text has it. -/
def IsScalar : Value → Prop
  | null | bool _ | int _ | nan | str _ | bytes _ | date .. | dateTime .. => True
  | float x => x.Normalized
  | _ => False

theorem isScalar_bare {v : Value} : v.bare.IsScalar ↔ v.IsScalar := by
  cases v <;> exact Iff.rfl

theorem IsScalar.normalized {v : Value} (h : v.IsScalar) {q : Quantity}
    (size : v.quantity? = some q) : q.Normalized := by
  cases v <;> cases size
  · trivial
  · trivial
  · exact h

/-- A scalar is compared by its size or by its content. -/
theorem same_scalar {v : Value} (h : v.IsScalar) (w : Value) : same v w = sameScalar v w := by
  cases v <;> first | (cases h; done) | (cases w <;> rfl)

theorem same_scalar_right {v : Value} (h : v.IsScalar) (w : Value) : same w v = sameScalar w v := by
  cases v <;> first | (cases h; done) | (cases w <;> rfl)

theorem sameScalar_comm (v w : Value) : sameScalar v w = sameScalar w v := by
  cases v <;> cases w <;>
    simp only [sameScalar, quantity?, Quantity.eq_comm, Bool.beq_comm, DateTime.sameTime_comm]

theorem same_comm {v : Value} (h : v.IsScalar) (w : Value) : same v w = same w v := by
  rw [same_scalar h, same_scalar_right h, sameScalar_comm]

/-- Two scalars are compared by their sizes, if both have one. -/
theorem sameScalar_of_quantity? {v w : Value} {q r : Quantity} (hv : v.quantity? = some q)
    (hw : w.quantity? = some r) : sameScalar v w = q.eq r := by
  cases v <;> cases hv <;> cases w <;> cases hw <;> rfl

/-- A value with a size is one key with values that have a size only. -/
theorem quantity?_of_sameScalar {v w : Value} (h : sameScalar v w = true) {q : Quantity}
    (size : v.quantity? = some q) : ∃ r, w.quantity? = some r ∧ q.eq r = true := by
  cases size' : w.quantity? with
  | none =>
    cases v <;> cases size <;> cases w <;> first | cases h | cases size'
  | some r => exact ⟨r, rfl, (sameScalar_of_quantity? size size').symm.trans h⟩

/-- Scalars that are one key with a third value are one key. -/
theorem same_of_same {v w x : Value} (hv : v.IsScalar) (hw : w.IsScalar) (h : same v x = true)
    (h' : same w x = true) : same v w = true := by
  rw [same_scalar hv] at h ⊢
  rw [same_scalar hw] at h'
  cases size : v.quantity? with
  | some q =>
    obtain ⟨c, third, first⟩ := quantity?_of_sameScalar h size
    obtain ⟨d, size', second⟩ := quantity?_of_sameScalar ((sameScalar_comm x w).trans h') third
    rw [sameScalar_of_quantity? size size']
    rw [Quantity.eq_comm] at second
    exact Quantity.eq_of_eq (hv.normalized size) (hw.normalized size') first second
  | none =>
    cases v <;> cases size <;> cases x <;> first
      | (cases h; done)
      | (cases w <;> first | (cases h'; done) | skip)
    all_goals first
      | rfl
      | (simp only [sameScalar, beq_iff_eq] at h h' ⊢; rw [h, h'])
      | exact DateTime.sameTime_of_sameTime h h'

theorem same_self {v : Value} (h : v.IsScalar) (number : v.isNan = false) : same v v = true := by
  rw [same_scalar h]
  cases v with
  | float x =>
    exact Binary64.numEq_self fun none => by rw [none] at number; cases number
  | bool b => simp [sameScalar, quantity?, Quantity.eq]
  | int n => simp [sameScalar, quantity?, Quantity.eq]
  | dateTime id t => exact DateTime.sameTime_self t
  | null => rfl
  | nan => cases number
  | str s => simp [sameScalar]
  | bytes b => simp [sameScalar]
  | date id d => simp [sameScalar]
  | _ => cases h

/-! ## Dictionaries by their keys -/

/-- Entries put into a dictionary, one after another. -/
def gather (entries : List (Value × Value)) : List (Value × Value) :=
  entries.foldl (fun dict e => put dict e.1 e.2) []

/-- Scalars of which no two are one key. -/
structure Distinct (keys : List Value) : Prop where
  scalar : ∀ k ∈ keys, k.IsScalar
  apart : keys.Pairwise fun k l => same k l = false

/-- Keys are apart if they are so without identities. -/
theorem distinct_of_bare {keys : List Value} (h : Distinct (keys.map bare)) : Distinct keys := by
  have scalar : ∀ k ∈ keys, k.IsScalar :=
    fun k hk => isScalar_bare.mp (h.scalar _ (List.mem_map_of_mem hk))
  refine ⟨scalar, (List.pairwise_map.mp h.apart).imp_of_mem ?_⟩
  intro k l hk hl apart
  rwa [same_bare, same_comm (scalar k hk), same_bare, ← same_comm (scalar k hk)] at apart

theorem distinct_of_bareEntries {entries : List (Value × Value)}
    (h : Distinct ((bareEntries entries).map (·.1))) : Distinct (entries.map (·.1)) := by
  rw [bareEntries_eq_map, List.map_map] at h
  refine distinct_of_bare ?_
  rwa [List.map_map]

theorem find?_cons (e : Value × Value) (r : List (Value × Value)) (k : Value) :
    find? (e :: r) k = if same k e.1 then some e.2 else find? r k := by
  rw [find?, List.find?_cons]
  split <;> simp_all [find?]

theorem hasKey_cons (e : Value × Value) (r : List (Value × Value)) (k : Value) :
    hasKey (e :: r) k = (same k e.1 || hasKey r k) :=
  List.any_cons

theorem keys_put (entries : List (Value × Value)) (k v : Value) :
    (put entries k v).map (·.1) =
      if hasKey entries k then entries.map (·.1) else entries.map (·.1) ++ [k] := by
  induction entries with
  | nil => rfl
  | cons e r ih =>
    rw [put, hasKey_cons]
    cases here : same k e.1 with
    | true => simp
    | false =>
      rw [if_neg Bool.false_ne_true, List.map_cons, ih, Bool.false_or]
      split <;> rfl

/-- What a dictionary has under a key when a value has been put under another. -/
theorem find?_put {entries : List (Value × Value)} (scalars : ∀ e ∈ entries, e.1.IsScalar)
    {k l : Value} (hk : k.IsScalar) (hl : l.IsScalar) (v : Value) :
    find? (put entries k v) l = if same l k then some v else find? entries l := by
  induction entries with
  | nil => exact find?_cons (k, v) [] l
  | cons e r ih =>
    have he := scalars e List.mem_cons_self
    have rest := ih fun d hd => scalars d (List.mem_cons_of_mem e hd)
    rw [put]
    by_cases here : same k e.1 = true
    · have both : same l e.1 = same l k := by
        rw [Bool.eq_iff_iff]
        constructor
        · intro h
          exact same_of_same hl hk h here
        · intro h
          exact same_of_same hl he h ((same_comm he k).trans here)
      rw [if_pos here, find?_cons, find?_cons, both]
      split <;> rfl
    · rw [if_neg here, find?_cons, find?_cons, rest]
      by_cases first : same l e.1 = true
      · have other : ¬ same l k = true := by
          intro h
          refine here (same_of_same hk he ?_ ((same_comm he l).trans first))
          rw [same_comm hk, h]
        rw [if_pos first, if_pos first, if_neg other]
      · rw [if_neg first, if_neg first]

theorem Distinct.put {entries : List (Value × Value)} (h : Distinct (entries.map (·.1))) {k : Value}
    (hk : k.IsScalar) (v : Value) : Distinct ((Value.put entries k v).map (·.1)) := by
  rw [keys_put]
  split
  · exact h
  · next fresh =>
    refine ⟨?_, ?_⟩
    · intro l hl
      rcases List.mem_append.mp hl with old | new
      · exact h.scalar l old
      · rw [List.mem_singleton.mp new]
        exact hk
    · refine List.pairwise_append.mpr ⟨h.apart, List.pairwise_singleton .., ?_⟩
      intro l hl m hm
      rw [List.mem_singleton.mp hm]
      obtain ⟨e, he, rfl⟩ := List.mem_map.mp hl
      rw [hasKey, List.any_eq_true] at fresh
      rw [← Bool.not_eq_true, same_comm (h.scalar _ hl)]
      exact fun same => fresh ⟨e, he, same⟩

theorem distinct_foldl {entries : List (Value × Value)} (scalars : ∀ e ∈ entries, e.1.IsScalar)
    {dict : List (Value × Value)} (h : Distinct (dict.map (·.1))) :
    Distinct ((entries.foldl (fun dict e => put dict e.1 e.2) dict).map (·.1)) := by
  induction entries generalizing dict with
  | nil => exact h
  | cons e r ih =>
    exact ih (fun d hd => scalars d (List.mem_cons_of_mem e hd))
      (h.put (scalars e List.mem_cons_self) e.2)

/-- No key is gathered twice. -/
theorem distinct_gather {entries : List (Value × Value)} (scalars : ∀ e ∈ entries, e.1.IsScalar) :
    Distinct ((gather entries).map (·.1)) :=
  distinct_foldl scalars ⟨nofun, .nil⟩

/-- A value stays under its key if nothing is put there any more. -/
theorem find?_foldl {entries : List (Value × Value)} (scalars : ∀ e ∈ entries, e.1.IsScalar)
    {dict : List (Value × Value)} (h : Distinct (dict.map (·.1))) {k : Value} (hk : k.IsScalar)
    (untouched : ∀ e ∈ entries, same k e.1 = false) :
    find? (entries.foldl (fun dict e => put dict e.1 e.2) dict) k = find? dict k := by
  induction entries generalizing dict with
  | nil => rfl
  | cons e r ih =>
    have he := scalars e List.mem_cons_self
    have old : ∀ d ∈ dict, d.1.IsScalar := fun d hd => h.scalar _ (List.mem_map_of_mem hd)
    rw [List.foldl_cons, ih (fun d hd => scalars d (List.mem_cons_of_mem e hd)) (h.put he e.2)
      (fun d hd => untouched d (List.mem_cons_of_mem e hd)), find?_put old he hk,
      untouched e List.mem_cons_self, if_neg Bool.false_ne_true]

/-- The last value gathered under a key is the one that is there. -/
theorem find?_gather {before after : List (Value × Value)} {k v : Value}
    (scalars : ∀ e ∈ before ++ (k, v) :: after, e.1.IsScalar) (number : k.isNan = false)
    (last : ∀ e ∈ after, same k e.1 = false) :
    find? (gather (before ++ (k, v) :: after)) k = some v := by
  have hk : k.IsScalar := scalars (k, v) (List.mem_append_right _ List.mem_cons_self)
  have first : ∀ e ∈ before, e.1.IsScalar := fun e he => scalars e (List.mem_append_left _ he)
  have rest : ∀ e ∈ after, e.1.IsScalar :=
    fun e he => scalars e (List.mem_append_right _ (List.mem_cons_of_mem _ he))
  have start : Distinct ((before.foldl (fun dict e => put dict e.1 e.2) []).map (·.1)) :=
    distinct_gather first
  rw [gather, List.foldl_append, List.foldl_cons, find?_foldl rest (start.put hk v) hk last,
    find?_put (fun d hd => start.scalar _ (List.mem_map_of_mem hd)) hk hk, same_self hk number,
    if_pos rfl]

/-- In a dictionary whose keys are apart every key has its value. -/
theorem Distinct.find? {entries : List (Value × Value)} (h : Distinct (entries.map (·.1)))
    {e : Value × Value} (he : e ∈ entries) {k : Value} (hk : same k e.1 = true) :
    Value.find? entries k = some e.2 := by
  induction entries with
  | nil => cases he
  | cons d r ih =>
    rw [find?_cons]
    have apart := List.pairwise_cons.mp h.apart
    rcases List.mem_cons.mp he with rfl | later
    · rw [if_pos hk]
    · have other : ¬ same k d.1 = true := by
        intro same'
        have hd := h.scalar d.1 (List.mem_map_of_mem List.mem_cons_self)
        have he' := h.scalar e.1 (List.mem_map_of_mem he)
        have one := same_of_same hd he' ((same_comm hd k).trans same') ((same_comm he' k).trans hk)
        rw [apart.1 e.1 (List.mem_map_of_mem later)] at one
        cases one
      rw [if_neg other]
      exact ih ⟨fun l hl => h.scalar l (List.mem_cons_of_mem _ hl), apart.2⟩ later

/-! ## Dictionaries that are equal -/

theorem equalEntries_iff {xs ys : List (Value × Value)} :
    equalEntries xs ys = true ↔ ∀ p ∈ xs, ∃ w, find? ys p.1 = some w ∧ equal p.2 w = true := by
  induction xs with
  | nil => simp [equalEntries]
  | cons p r ih =>
    rw [equalEntries, Bool.and_eq_true, ih, List.forall_mem_cons]
    refine and_congr_left fun _ => ?_
    cases find? ys p.1 <;> simp

/-- The first entry under a key. -/
theorem mem_of_find? {ys : List (Value × Value)} {k v : Value} (h : find? ys k = some v) :
    ∃ e ∈ ys, same k e.1 = true ∧ e.2 = v := by
  obtain ⟨e, found, rfl⟩ := Option.map_eq_some_iff.mp h
  have key := List.find?_some found
  exact ⟨e, List.mem_of_find?_eq_some found, key, rfl⟩

/-- Where one dictionary has the keys of another, and as many, each of its entries is what it has
under one of them: different keys are found at different places, so no place is left out. -/
theorem exists_key {xs ys : List (Value × Value)} (distinct : Distinct (xs.map (·.1)))
    (keys : sameKeys xs ys = true) {e : Value × Value} (he : e ∈ ys) :
    ∃ p ∈ xs, same p.1 e.1 = true ∧ find? ys p.1 = some e.2 := by
  obtain ⟨size, known⟩ := Bool.and_eq_true_iff.mp keys
  have size : xs.length = ys.length := beq_iff_eq.mp size
  let place : Value × Value → Nat := fun p => ys.findIdx fun d => same p.1 d.1
  have inside : ∀ p ∈ xs, place p < ys.length := by
    intro p hp
    exact List.findIdx_lt_length.mpr (List.any_eq_true.mp (List.all_eq_true.mp known p hp))
  have hit : ∀ p (h : place p < ys.length), same p.1 (ys[place p]).1 = true := by
    intro p h
    exact List.findIdx_getElem (w := h)
  have nodup : (xs.map place).Nodup := by
    have apart := List.pairwise_map.mp distinct.apart
    refine List.pairwise_map.mpr (apart.imp_of_mem ?_)
    intro p q hp hq other equal
    have one := hit p (inside p hp)
    have two : same q.1 (ys.get ⟨place q, inside q hq⟩).1 = true := hit q (inside q hq)
    have places : ys.get ⟨place q, inside q hq⟩ = ys.get ⟨place p, inside p hp⟩ := by
      simp only [equal]
    rw [places] at two
    rw [same_of_same (distinct.scalar _ (List.mem_map_of_mem hp))
      (distinct.scalar _ (List.mem_map_of_mem hq)) one two] at other
    cases other
  have all : (xs.map place).Perm (List.range ys.length) := by
    refine (nodup.subperm ?_).perm_of_length_le (by simp [size])
    intro i hi
    obtain ⟨p, hp, rfl⟩ := List.mem_map.mp hi
    exact List.mem_range.mpr (inside p hp)
  obtain ⟨i, bound, rfl⟩ := List.getElem_of_mem he
  obtain ⟨p, hp, rfl⟩ := List.mem_map.mp (all.mem_iff.mpr (List.mem_range.mpr bound))
  have first : ys.find? (fun d => same p.1 d.1) = some ys[place p] := by
    refine List.find?_eq_some_iff_getElem.mpr ⟨hit p bound, place p, bound, rfl, ?_⟩
    intro j before
    simpa using List.not_of_lt_findIdx before
  exact ⟨p, hp, hit p bound, by rw [find?, first, Option.map_some]⟩

section

variable {xs ys : List (Value × Value)} {id id' : Option Nat}

/-- Equal dictionaries: what the second has under a key of the first equals the value there. -/
theorem equal_of_find? (distinct : Distinct (xs.map (·.1)))
    (h : equal (dict id xs) (dict id' ys) = true) {p : Value × Value} (hp : p ∈ xs) {k : Value}
    (hk : k.IsScalar) (same' : same k p.1 = true) {v : Value} (held : find? ys k = some v) :
    equal p.2 v = true := by
  rw [equal, Bool.and_eq_true] at h
  obtain ⟨e, he, key, rfl⟩ := mem_of_find? held
  obtain ⟨q, hq, known, found⟩ := exists_key distinct h.1 he
  have scalar := distinct.scalar _ (List.mem_map_of_mem hq)
  have other := distinct.find? hq (same_of_same hk scalar key known)
  rw [distinct.find? hp same', Option.some.injEq] at other
  obtain ⟨w, found', value⟩ := equalEntries_iff.mp h.2 q hq
  rw [found, Option.some.injEq] at found'
  rw [other, found']
  exact value

/-- Equal dictionaries: the second has every key of the first. -/
theorem hasKey_of_equal (h : equal (dict id xs) (dict id' ys) = true) {p : Value × Value}
    (hp : p ∈ xs) : hasKey ys p.1 = true := by
  rw [equal, sameKeys, Bool.and_eq_true, Bool.and_eq_true] at h
  exact List.all_eq_true.mp h.1.2 p hp

/-- Equal dictionaries: the first has every entry of the second. -/
theorem find?_of_equal (distinct : Distinct (xs.map (·.1)))
    (h : equal (dict id xs) (dict id' ys) = true) {e : Value × Value} (he : e ∈ ys) :
    ∃ w, find? xs e.1 = some w ∧ equal w e.2 = true := by
  rw [equal, Bool.and_eq_true] at h
  obtain ⟨p, hp, key, found⟩ := exists_key distinct h.1 he
  have scalar := distinct.scalar _ (List.mem_map_of_mem hp)
  obtain ⟨w, found', value⟩ := equalEntries_iff.mp h.2 p hp
  rw [found, Option.some.injEq] at found'
  refine ⟨p.2, distinct.find? hp ((same_comm scalar e.1).symm.trans key), ?_⟩
  rw [found']
  exact value

end

end Value

end YamlEdit
