import YamlEdit.Proofs.Value.Selfsame

/-!
# Equality of contents is an equivalence

Among scalars, lists and dictionaries the relation that decides whether an assignment changes
anything is reflexive, symmetric and transitive, whatever numbers, booleans and not-a-numbers are
mixed; and the order of keys plays no part, at whatever depth. Symmetry is not plain for
dictionaries, where the keys of one are looked up in the other: it takes that keys found are all of
the other's keys, since there are as many.
-/

namespace YamlEdit.Value

/-- Values built from scalars by lists and by dictionaries whose keys are scalars, numbers and
apart. -/
inductive Content : Value → Prop
  | scalar {v : Value} (scalar : v.IsScalar) : Content v
  | list {id : Option Nat} {items : List Value} (parts : ∀ v ∈ items, Content v) :
      Content (.list id items)
  | dict {id : Option Nat} {entries : List (Value × Value)} (keys : Distinct (entries.map (·.1)))
      (numbers : ∀ e ∈ entries, e.1.isNan = false) (values : ∀ e ∈ entries, Content e.2) :
      Content (.dict id entries)

/-- The same content with the entries of its dictionaries, at whatever depth, in another order. -/
inductive Reordered : Value → Value → Prop
  | refl (v : Value) : Reordered v v
  | entries {id id' : Option Nat} {xs ys : List (Value × Value)} (permuted : xs.Perm ys) :
      Reordered (.dict id xs) (.dict id' ys)
  | item {id id' : Option Nat} {before after : List Value} {v w : Value} (part : Reordered v w) :
      Reordered (.list id (before ++ v :: after)) (.list id' (before ++ w :: after))
  | value {id id' : Option Nat} {before after : List (Value × Value)} {k v w : Value}
      (part : Reordered v w) :
      Reordered (.dict id (before ++ (k, v) :: after)) (.dict id' (before ++ (k, w) :: after))
  | trans {u v w : Value} (first : Reordered u v) (second : Reordered v w) : Reordered u w

/-! ## Deciding what is content -/

instance : DecidablePred Binary64.Normalized
  | .finite _ m e =>
    inferInstanceAs (Decidable (m < 2 ^ 53 ∧ -1074 ≤ e ∧ (e = -1074 ∨ 2 ^ 52 ≤ m)))
  | .infinite _ | .nan => .isTrue trivial

instance : DecidablePred IsScalar
  | float x => inferInstanceAs (Decidable x.Normalized)
  | null | bool _ | int _ | nan | str _ | bytes _ | date .. | dateTime .. => .isTrue trivial
  | list .. | dict .. | tuple .. | set .. | back _ | foreign | unset => .isFalse id

instance (keys : List Value) : Decidable (Distinct keys) :=
  decidable_of_iff ((∀ k ∈ keys, k.IsScalar) ∧ keys.Pairwise fun k l => same k l = false)
    ⟨fun h => ⟨h.1, h.2⟩, fun h => ⟨h.scalar, h.apart⟩⟩

mutual

/-- Whether a value is content. -/
def isContent : Value → Bool
  | list _ items => areContent items
  | dict _ entries => decide (Distinct (entries.map (·.1))) && areContentEntries entries
  | v => decide v.IsScalar
termination_by structural v => v

/-- Item by item. -/
def areContent : List Value → Bool
  | [] => true
  | v :: r => isContent v && areContent r

/-- Entry by entry. -/
def areContentEntries : List (Value × Value) → Bool
  | [] => true
  | (k, v) :: r => !k.isNan && isContent v && areContentEntries r

end

mutual

theorem content_of_isContent {v : Value} (h : v.isContent = true) : v.Content := by
  cases v with
  | list id items => exact .list (forall_of_areContent h)
  | dict id entries =>
    obtain ⟨keys, parts⟩ := Bool.and_eq_true_iff.mp h
    have parts := forall_of_areContentEntries parts
    exact .dict (of_decide_eq_true keys) (fun e he => (parts e he).1) fun e he => (parts e he).2
  | _ => exact .scalar (of_decide_eq_true h)
termination_by structural v

theorem forall_of_areContent {items : List Value} (h : areContent items = true) :
    ∀ v ∈ items, v.Content := by
  cases items with
  | nil => nofun
  | cons v r =>
    obtain ⟨first, rest⟩ := Bool.and_eq_true_iff.mp h
    exact List.forall_mem_cons.mpr ⟨content_of_isContent first, forall_of_areContent rest⟩

theorem forall_of_areContentEntries {entries : List (Value × Value)}
    (h : areContentEntries entries = true) :
    ∀ e ∈ entries, e.1.isNan = false ∧ e.2.Content := by
  cases entries with
  | nil => nofun
  | cons e r =>
    obtain ⟨k, v⟩ := e
    simp only [areContentEntries, Bool.and_eq_true, Bool.not_eq_true'] at h
    obtain ⟨⟨key, first⟩, rest⟩ := h
    exact List.forall_mem_cons.mpr
      ⟨⟨key, content_of_isContent first⟩, forall_of_areContentEntries rest⟩

end

/-! ## Scalars -/

/-- Whether a value is a boolean. -/
def isBool : Value → Bool
  | bool _ => true
  | _ => false

/-- Scalars are equal if they are one key and no boolean is taken for a number, or if both are no
number. -/
theorem equal_scalars {v w : Value} (hv : v.IsScalar) (hw : w.IsScalar) : equal v w = true ↔
    v.isBool = w.isBool ∧ (v.isNan = true ∧ w.isNan = true ∨ same v w = true) := by
  cases v <;> first
    | (cases hv; done)
    | (cases w <;> first
        | (cases hw; done)
        | simp [equal, equalScalar, isBool, isNan, same, sameScalar, quantity?, Quantity.eq])
  next a b => cases a <;> cases b <;> decide

/-- What equals a scalar is one. -/
theorem isScalar_of_equal {v w : Value} (hv : v.IsScalar) (hw : w.Content)
    (h : equal v w = true) : w.IsScalar := by
  cases hw with
  | scalar scalar => exact scalar
  | list parts => cases v <;> first | (cases hv; done) | cases h
  | dict keys numbers values => cases v <;> first | (cases hv; done) | cases h

theorem isNan_of_same {v w : Value} (hv : v.IsScalar) (hw : w.IsScalar) (h : same v w = true) :
    v.isNan = w.isNan := by
  rw [same_scalar hv] at h
  cases v <;> first
    | (cases hv; done)
    | (cases w <;> first
        | (cases hw; done)
        | (cases h; done)
        | rfl
        | skip)
  · next n y => cases y <;> first | rfl | cases h
  · next n y => cases y <;> first | rfl | cases h
  · next x n => cases x <;> first | rfl | cases h
  · next x n => cases x <;> first | rfl | cases h
  · next x y => cases x <;> cases y <;> first | rfl | cases h

theorem equal_symm_scalars {v w : Value} (hv : v.IsScalar) (hw : w.IsScalar)
    (h : equal v w = true) : equal w v = true := by
  obtain ⟨bools, alike⟩ := (equal_scalars hv hw).mp h
  refine (equal_scalars hw hv).mpr ⟨bools.symm, ?_⟩
  rcases alike with ⟨first, second⟩ | one
  · exact .inl ⟨second, first⟩
  · exact .inr ((same_comm hw v).trans one)

theorem equal_trans_scalars {u v w : Value} (hu : u.IsScalar) (hv : v.IsScalar) (hw : w.IsScalar)
    (h : equal u v = true) (h' : equal v w = true) : equal u w = true := by
  obtain ⟨bools, alike⟩ := (equal_scalars hu hv).mp h
  obtain ⟨bools', alike'⟩ := (equal_scalars hv hw).mp h'
  refine (equal_scalars hu hw).mpr ⟨bools.trans bools', ?_⟩
  rcases alike with ⟨first, second⟩ | one
  · rcases alike' with ⟨-, third⟩ | other
    · exact .inl ⟨first, third⟩
    · exact .inl ⟨first, (isNan_of_same hv hw other).symm.trans second⟩
  · rcases alike' with ⟨second, third⟩ | other
    · exact .inl ⟨(isNan_of_same hu hv one).trans second, third⟩
    · exact .inr (same_of_same hu hw one ((same_comm hw v).trans other))

/-! ## Lists -/

/-- What equals a list is one. -/
theorem exists_list {id : Option Nat} {xs : List Value} {w : Value}
    (h : equal (list id xs) w = true) : ∃ id' ys, w = list id' ys := by
  cases w <;> first | exact ⟨_, _, rfl⟩ | cases h

theorem equalItems_symm {xs ys : List Value}
    (flip : ∀ v ∈ xs, ∀ w ∈ ys, equal v w = true → equal w v = true)
    (h : equalItems xs ys = true) : equalItems ys xs = true := by
  induction xs generalizing ys with
  | nil =>
    cases ys with
    | nil => rfl
    | cons w s => cases h
  | cons v r ih =>
    cases ys with
    | nil => cases h
    | cons w s =>
      obtain ⟨first, rest⟩ := Bool.and_eq_true_iff.mp h
      refine Bool.and_eq_true_iff.mpr ⟨flip v List.mem_cons_self w List.mem_cons_self first, ?_⟩
      exact ih (fun v hv w hw => flip v (.tail _ hv) w (.tail _ hw)) rest

theorem equalItems_trans {xs ys zs : List Value}
    (link : ∀ u ∈ xs, ∀ v ∈ ys, ∀ w ∈ zs, equal u v = true → equal v w = true → equal u w = true)
    (h : equalItems xs ys = true) (h' : equalItems ys zs = true) : equalItems xs zs = true := by
  induction xs generalizing ys zs with
  | nil =>
    cases ys with
    | nil => exact h'
    | cons v s => cases h
  | cons u r ih =>
    cases ys with
    | nil => cases h
    | cons v s =>
      cases zs with
      | nil => cases h'
      | cons w t =>
        obtain ⟨first, rest⟩ := Bool.and_eq_true_iff.mp h
        obtain ⟨first', rest'⟩ := Bool.and_eq_true_iff.mp h'
        refine Bool.and_eq_true_iff.mpr
          ⟨link u List.mem_cons_self v List.mem_cons_self w List.mem_cons_self first first', ?_⟩
        exact ih (fun u hu v hv w hw => link u (.tail _ hu) v (.tail _ hv) w (.tail _ hw)) rest rest'

/-- Lists that differ in one item are equal if the two items are. -/
theorem equalItems_replace {before after : List Value} {v w : Value}
    (self : ∀ u ∈ before ++ v :: after, equal u u = true) (part : equal v w = true) :
    equalItems (before ++ v :: after) (before ++ w :: after) = true := by
  induction before with
  | nil =>
    refine Bool.and_eq_true_iff.mpr ⟨part, equalItems_self fun u hu => self u (.tail _ hu)⟩
  | cons u r ih =>
    exact Bool.and_eq_true_iff.mpr ⟨self u List.mem_cons_self, ih fun u hu => self u (.tail _ hu)⟩

/-! ## Dictionaries -/

/-- What equals a dictionary is one. -/
theorem exists_dict {id : Option Nat} {xs : List (Value × Value)} {w : Value}
    (h : equal (dict id xs) w = true) : ∃ id' ys, w = dict id' ys := by
  cases w <;> first | exact ⟨_, _, rfl⟩ | cases h

/-- Equal dictionaries are as long as each other, and each entry of the first has a counterpart in
the second. -/
theorem equal_dict {xs ys : List (Value × Value)} (distinct : Distinct (ys.map (·.1)))
    {id id' : Option Nat} : equal (dict id xs) (dict id' ys) = true ↔ xs.length = ys.length ∧
      ∀ p ∈ xs, ∃ e ∈ ys, same p.1 e.1 = true ∧ equal p.2 e.2 = true := by
  rw [equal, sameKeys, Bool.and_eq_true, Bool.and_eq_true, beq_iff_eq, List.all_eq_true,
    equalEntries_iff]
  constructor
  · rintro ⟨⟨size, -⟩, values⟩
    refine ⟨size, fun p hp => ?_⟩
    obtain ⟨w, found, equal⟩ := values p hp
    obtain ⟨e, he, key, rfl⟩ := mem_of_find? found
    exact ⟨e, he, key, equal⟩
  · rintro ⟨size, entries⟩
    refine ⟨⟨size, fun p hp => ?_⟩, fun p hp => ?_⟩
    · obtain ⟨e, he, key, -⟩ := entries p hp
      exact List.any_eq_true.mpr ⟨e, he, key⟩
    · obtain ⟨e, he, key, equal⟩ := entries p hp
      exact ⟨e.2, distinct.find? he key, equal⟩

/-- Equal dictionaries: each entry of the second has a counterpart in the first. -/
theorem exists_counterpart {xs ys : List (Value × Value)} (distinct : Distinct (xs.map (·.1)))
    {id id' : Option Nat} (h : equal (dict id xs) (dict id' ys) = true) {e : Value × Value}
    (he : e ∈ ys) : ∃ p ∈ xs, same e.1 p.1 = true ∧ equal p.2 e.2 = true := by
  rw [equal, Bool.and_eq_true, equalEntries_iff] at h
  obtain ⟨p, hp, key, found⟩ := exists_key distinct h.1 he
  obtain ⟨w, found', value⟩ := h.2 p hp
  rw [found, Option.some.injEq] at found'
  subst found'
  have scalar := distinct.scalar p.1 (List.mem_map_of_mem hp)
  exact ⟨p, hp, (same_comm scalar e.1).symm.trans key, value⟩

theorem Distinct.perm {keys keys' : List Value} (h : Distinct keys) (permuted : keys.Perm keys') :
    Distinct keys' := by
  have scalar : ∀ k ∈ keys', k.IsScalar := fun k hk => h.scalar k (permuted.mem_iff.mpr hk)
  refine ⟨scalar, ?_⟩
  have both : keys.Pairwise fun k l => same k l = false ∧ same l k = false :=
    h.apart.imp_of_mem fun hk _ apart => ⟨apart, (same_comm (h.scalar _ hk) _).symm.trans apart⟩
  exact (permuted.pairwise both fun swap => swap.symm).imp And.left

/-! ## Contents -/

namespace Content

variable {u v w : Value}

theorem selfsame (h : v.Content) : Selfsame false v := by
  induction h with
  | scalar scalar => exact .scalar scalar nofun
  | list _ ih => exact .list ih
  | dict keys numbers _ ih => exact .dict keys numbers ih

theorem equal_self (h : v.Content) : equal v v = true :=
  h.selfsame.equal

theorem of_list {id : Option Nat} {items : List Value} (h : Content (.list id items)) :
    ∀ v ∈ items, Content v := by
  cases h with
  | scalar scalar => cases scalar
  | list parts => exact parts

theorem of_dict {id : Option Nat} {entries : List (Value × Value)}
    (h : Content (.dict id entries)) :
    Distinct (entries.map (·.1)) ∧ ∀ e ∈ entries, e.1.isNan = false ∧ Content e.2 := by
  cases h with
  | scalar scalar => cases scalar
  | dict keys numbers values => exact ⟨keys, fun e he => ⟨numbers e he, values e he⟩⟩

theorem equal_symm (hv : v.Content) (hw : w.Content) (h : equal v w = true) :
    equal w v = true := by
  induction hv generalizing w with
  | scalar scalar => exact equal_symm_scalars scalar (isScalar_of_equal scalar hw h) h
  | list _ ih =>
    obtain ⟨id', ys, rfl⟩ := exists_list h
    exact equalItems_symm (fun v hv w hw' => ih v hv (hw.of_list w hw')) h
  | dict keys _ _ ih =>
    obtain ⟨id', ys, rfl⟩ := exists_dict h
    obtain ⟨keys', values'⟩ := hw.of_dict
    refine (equal_dict keys).mpr ⟨((equal_dict keys').mp h).1.symm, fun e he => ?_⟩
    obtain ⟨p, hp, key, value⟩ := exists_counterpart keys h he
    exact ⟨p, hp, key, ih p hp (values' e he).2 value⟩

theorem equal_trans (hu : u.Content) (hv : v.Content) (hw : w.Content) (h : equal u v = true)
    (h' : equal v w = true) : equal u w = true := by
  induction hu generalizing v w with
  | scalar scalar =>
    have second := isScalar_of_equal scalar hv h
    exact equal_trans_scalars scalar second (isScalar_of_equal second hw h') h h'
  | list _ ih =>
    obtain ⟨id', ys, rfl⟩ := exists_list h
    obtain ⟨id'', zs, rfl⟩ := exists_list h'
    exact equalItems_trans (fun u hu v hv' w hw' => ih u hu (hv.of_list v hv') (hw.of_list w hw'))
      h h'
  | dict keys _ _ ih =>
    obtain ⟨id', ys, rfl⟩ := exists_dict h
    obtain ⟨id'', zs, rfl⟩ := exists_dict h'
    obtain ⟨keys', values'⟩ := hv.of_dict
    obtain ⟨keys'', values''⟩ := hw.of_dict
    obtain ⟨size, entries⟩ := (equal_dict keys').mp h
    obtain ⟨size', entries'⟩ := (equal_dict keys'').mp h'
    refine (equal_dict keys'').mpr ⟨size.trans size', fun p hp => ?_⟩
    obtain ⟨e, he, key, value⟩ := entries p hp
    obtain ⟨d, hd, key', value'⟩ := entries' e he
    have hp' := keys.scalar p.1 (List.mem_map_of_mem hp)
    have hd' := keys''.scalar d.1 (List.mem_map_of_mem hd)
    exact ⟨d, hd, same_of_same hp' hd' key ((same_comm hd' e.1).trans key'),
      ih p hp (values' e he).2 (values'' d hd).2 value value'⟩

/-- Equality of contents, with one of them replaced by an equal one. -/
theorem equal_congr {v' w' : Value} (hv : v.Content) (hv' : v'.Content) (hw : w.Content)
    (hw' : w'.Content) (first : equal v v' = true) (second : equal w w' = true) :
    equal v w = equal v' w' := by
  refine Bool.eq_iff_iff.mpr ⟨fun h => ?_, fun h => ?_⟩
  · exact hv'.equal_trans hw hw' (hv'.equal_trans hv hw (hv.equal_symm hv' first) h) second
  · exact hv.equal_trans hv' hw first (hv'.equal_trans hw' hw h (hw.equal_symm hw' second))

/-- A dictionary with another value under one key. -/
theorem dict_replace {id id' : Option Nat} {before after : List (Value × Value)} {k v w : Value}
    (h : Content (.dict id (before ++ (k, v) :: after))) (content : w.Content)
    (part : equal v w = true) : Content (.dict id' (before ++ (k, w) :: after)) ∧
      equal (.dict id (before ++ (k, v) :: after)) (.dict id' (before ++ (k, w) :: after)) = true := by
  obtain ⟨keys, values⟩ := h.of_dict
  have keys' : Distinct ((before ++ (k, w) :: after).map (·.1)) := by simpa using keys
  have entries : ∀ e ∈ before ++ (k, w) :: after, e = (k, w) ∨ e ∈ before ++ (k, v) :: after := by
    simp only [List.mem_append, List.mem_cons]
    tauto
  have number : k.isNan = false := (values (k, v) (by simp)).1
  refine ⟨.dict keys' (fun e he => ?_) fun e he => ?_, (equal_dict keys').mpr ⟨by simp, ?_⟩⟩
  · rcases entries e he with rfl | old
    · exact number
    · exact (values e old).1
  · rcases entries e he with rfl | old
    · exact content
    · exact (values e old).2
  · intro p hp
    have self := (keys.find?_self (fun e he => (values e he).1) hp).1
    have value := (values p hp).2.equal_self
    simp only [List.mem_append, List.mem_cons] at hp
    rcases hp with first | rfl | last
    · exact ⟨p, by simp [first], self, value⟩
    · exact ⟨(k, w), by simp, self, part⟩
    · exact ⟨p, by simp [last], self, value⟩

end Content

/-- Reordered contents are equal. -/
theorem Reordered.equal {v w : Value} (h : Reordered v w) (hv : v.Content) :
    w.Content ∧ Value.equal v w = true := by
  induction h with
  | refl v => exact ⟨hv, hv.equal_self⟩
  | trans _ _ ih ih' =>
    obtain ⟨second, first⟩ := ih hv
    obtain ⟨third, next⟩ := ih' second
    exact ⟨third, hv.equal_trans second third first next⟩
  | entries permuted =>
    obtain ⟨keys, values⟩ := hv.of_dict
    have keys' := keys.perm (permuted.map _)
    refine ⟨.dict keys' (fun e he => (values e (permuted.mem_iff.mpr he)).1)
      fun e he => (values e (permuted.mem_iff.mpr he)).2, ?_⟩
    refine (equal_dict keys').mpr ⟨permuted.length_eq, fun p hp => ?_⟩
    exact ⟨p, permuted.mem_iff.mp hp, (keys.find?_self (fun e he => (values e he).1) hp).1,
      (values p hp).2.equal_self⟩
  | item _ ih =>
    have parts := hv.of_list
    obtain ⟨changed, equal⟩ := ih (parts _ (by simp))
    refine ⟨.list fun u hu => ?_, equalItems_replace (fun u hu => (parts u hu).equal_self) equal⟩
    have known := parts u
    simp only [List.mem_append, List.mem_cons] at hu known
    rcases hu with first | rfl | last
    · exact known (.inl first)
    · exact changed
    · exact known (.inr (.inr last))
  | @value _ _ before after k v w _ ih =>
    obtain ⟨-, values⟩ := hv.of_dict
    obtain ⟨changed, equal⟩ := ih (values (k, v) (by simp)).2
    exact hv.dict_replace changed equal

end YamlEdit.Value
