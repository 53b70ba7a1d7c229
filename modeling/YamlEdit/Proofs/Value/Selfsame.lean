import YamlEdit.Proofs.Value.Same

/-!
# Values that equal themselves

What is no number is not the same as itself. Contents are compared so that this plays no part in
lists, nor among the values of dictionaries; but keys, tuples and sets are the same or they are not.
So a value that a text stands for equals itself if its keys, tuples and sets hold numbers only, and it
is the same as itself if all of it does.
-/

namespace YamlEdit.Value

mutual

/-- Whether a value is no number, or some part of it is none. -/
def hasNan : Value → Bool
  | list _ items => anyNan items
  | dict _ entries => anyNanEntry entries
  | tuple _ items => anyNan items
  | set _ members => anyNan members
  | v => v.isNan
termination_by structural v => v

/-- Item by item. -/
def anyNan : List Value → Bool
  | [] => false
  | v :: r => hasNan v || anyNan r

/-- Entry by entry. -/
def anyNanEntry : List (Value × Value) → Bool
  | [] => false
  | (k, v) :: r => hasNan k || hasNan v || anyNanEntry r

end

theorem anyNan_eq_false {items : List Value} :
    anyNan items = false ↔ ∀ v ∈ items, v.hasNan = false := by
  induction items with
  | nil => simp [anyNan]
  | cons v r ih => rw [anyNan, Bool.or_eq_false_iff, ih, List.forall_mem_cons]

theorem anyNanEntry_eq_false {entries : List (Value × Value)} :
    anyNanEntry entries = false ↔ ∀ e ∈ entries, e.1.hasNan = false ∧ e.2.hasNan = false := by
  induction entries with
  | nil => simp [anyNanEntry]
  | cons e r ih =>
    rw [anyNanEntry, Bool.or_eq_false_iff, Bool.or_eq_false_iff, ih, List.forall_mem_cons]

theorem IsScalar.hasNan {v : Value} (h : v.IsScalar) : v.hasNan = v.isNan := by
  cases v <;> first | rfl | cases h

mutual

theorem hasNan_bare (v : Value) : v.bare.hasNan = v.hasNan := by
  cases v with
  | list id items => rw [bare, hasNan, hasNan, anyNan_bareItems]
  | dict id entries => rw [bare, hasNan, hasNan, anyNanEntry_bareEntries]
  | tuple id items => rw [bare, hasNan, hasNan, anyNan_bareItems]
  | set id members => rw [bare, hasNan, hasNan, anyNan_bareItems]
  | _ => rfl
termination_by structural v

theorem anyNan_bareItems (items : List Value) : anyNan (bareItems items) = anyNan items := by
  cases items with
  | nil => rfl
  | cons v r => rw [bareItems, anyNan, anyNan, hasNan_bare, anyNan_bareItems]

theorem anyNanEntry_bareEntries (entries : List (Value × Value)) :
    anyNanEntry (bareEntries entries) = anyNanEntry entries := by
  cases entries with
  | nil => rfl
  | cons e r =>
    rw [bareEntries, anyNanEntry, anyNanEntry, hasNan_bare, hasNan_bare, anyNanEntry_bareEntries]

end

/-- Values whose keys and members are numbers and apart; where it is strict, and in tuples, all parts
are numbers. -/
inductive Selfsame : (strict : Bool) → Value → Prop
  | scalar {strict : Bool} {v : Value} (scalar : v.IsScalar)
    (number : strict = true → v.isNan = false) : Selfsame strict v
  | list {strict : Bool} {id : Option Nat} {items : List Value}
    (parts : ∀ v ∈ items, Selfsame strict v) : Selfsame strict (.list id items)
  | dict {strict : Bool} {id : Option Nat} {entries : List (Value × Value)}
    (keys : Distinct (entries.map (·.1))) (numbers : ∀ e ∈ entries, e.1.isNan = false)
    (values : ∀ e ∈ entries, Selfsame strict e.2) : Selfsame strict (.dict id entries)
  | tuple {strict : Bool} {id : Option Nat} {items : List Value}
    (parts : ∀ v ∈ items, Selfsame true v) : Selfsame strict (.tuple id items)
  | set {strict : Bool} {id : Option Nat} {members : List Value} (keys : Distinct members)
    (numbers : ∀ v ∈ members, v.isNan = false) : Selfsame strict (.set id members)

theorem sameItems_self {items : List Value} (h : ∀ v ∈ items, same v v = true) :
    sameItems items items = true := by
  induction items with
  | nil => rfl
  | cons v r ih =>
    obtain ⟨first, rest⟩ := List.forall_mem_cons.mp h
    rw [sameItems, first, ih rest]
    rfl

theorem sameEntries_iff {xs ys : List (Value × Value)} : sameEntries xs ys = true ↔
    ∀ p ∈ xs, ∃ w, find? ys p.1 = some w ∧ same p.2 w = true := by
  induction xs with
  | nil => simp [sameEntries]
  | cons p r ih =>
    rw [sameEntries, Bool.and_eq_true, ih, List.forall_mem_cons]
    refine and_congr_left fun _ => ?_
    rw [find?]
    cases ys.find? fun e => same p.1 e.1 <;> simp

theorem sameMembers_self {members xs : List Value} (h : ∀ v ∈ xs, v ∈ members ∧ same v v = true) :
    sameMembers xs members = true := by
  induction xs with
  | nil => rfl
  | cons v r ih =>
    obtain ⟨⟨listed, self⟩, rest⟩ := List.forall_mem_cons.mp h
    rw [sameMembers, ih rest, Bool.and_true]
    exact List.any_eq_true.mpr ⟨v, listed, self⟩

theorem equalItems_self {items : List Value} (h : ∀ v ∈ items, equal v v = true) :
    equalItems items items = true := by
  induction items with
  | nil => rfl
  | cons v r ih =>
    obtain ⟨first, rest⟩ := List.forall_mem_cons.mp h
    rw [equalItems, first, ih rest]
    rfl

/-- Every key of a dictionary has its own value there. -/
theorem Distinct.find?_self {entries : List (Value × Value)} (keys : Distinct (entries.map (·.1)))
    (numbers : ∀ e ∈ entries, e.1.isNan = false) {e : Value × Value} (he : e ∈ entries) :
    same e.1 e.1 = true ∧ Value.find? entries e.1 = some e.2 := by
  have self := same_self (keys.scalar _ (List.mem_map_of_mem he)) (numbers e he)
  exact ⟨self, keys.find? he self⟩

namespace Selfsame

variable {strict : Bool} {v w : Value}

/-- What holds numbers only is the same as itself. -/
theorem same (h : Selfsame strict v) (all : strict = true) : Value.same v v = true := by
  induction h with
  | scalar scalar number => exact same_self scalar (number all)
  | list parts ih =>
    rw [Value.same]
    exact sameItems_self fun v hv => ih v hv all
  | dict keys numbers values ih =>
    rw [Value.same, beq_self_eq_true, Bool.true_and, sameEntries_iff]
    intro e he
    exact ⟨e.2, (keys.find?_self numbers he).2, ih e he all⟩
  | tuple parts ih =>
    rw [Value.same]
    exact sameItems_self fun v hv => ih v hv rfl
  | set keys numbers =>
    rw [Value.same, beq_self_eq_true, Bool.true_and]
    exact sameMembers_self fun v hv => ⟨hv, same_self (keys.scalar v hv) (numbers v hv)⟩

theorem equal_of_same (self : Value.same v v = true) (single : v.isCollection = false) :
    Value.equal v v = true := by
  cases v with
  | bool b => exact beq_self_eq_true b
  | list | dict => cases single
  | _ => simp only [Value.equal, equalScalar, self, Bool.or_true]

theorem equal_scalar (scalar : v.IsScalar) : Value.equal v v = true := by
  cases number : v.isNan with
  | true =>
    cases v with
    | nan => rfl
    | float x => simp only [Value.equal, equalScalar, number, Bool.and_true, Bool.true_or]
    | _ => cases number
  | false =>
    refine equal_of_same (same_self scalar number) ?_
    cases v <;> first | rfl | cases scalar

/-- Not a number in a list, or as a value of a dictionary, equals itself. -/
theorem equal (h : Selfsame strict v) : Value.equal v v = true := by
  induction h with
  | scalar scalar _ => exact equal_scalar scalar
  | list parts ih =>
    rw [Value.equal]
    exact equalItems_self ih
  | dict keys numbers values ih =>
    rw [Value.equal, Bool.and_eq_true, sameKeys, beq_self_eq_true, Bool.true_and,
      List.all_eq_true, equalEntries_iff]
    refine ⟨fun e he => ?_, fun e he => ⟨e.2, (keys.find?_self numbers he).2, ih e he⟩⟩
    exact List.any_eq_true.mpr ⟨e, he, (keys.find?_self numbers he).1⟩
  | @tuple _ id _ parts _ =>
    have strictly : Selfsame true (.tuple id _) := .tuple parts
    exact equal_of_same (strictly.same rfl) rfl
  | @set _ id _ keys numbers =>
    have strictly : Selfsame true (.set id _) := .set keys numbers
    exact equal_of_same (strictly.same rfl) rfl

/-- A value that holds numbers only. -/
theorem of_hasNan (h : Selfsame strict v) (numbers : v.hasNan = false) : Selfsame true v := by
  induction h with
  | scalar scalar _ => exact .scalar scalar fun _ => scalar.hasNan ▸ numbers
  | list parts ih =>
    rw [hasNan, anyNan_eq_false] at numbers
    exact .list fun v hv => ih v hv (numbers v hv)
  | dict keys own values ih =>
    rw [hasNan, anyNanEntry_eq_false] at numbers
    exact .dict keys own fun e he => ih e he (numbers e he).2
  | tuple parts _ => exact .tuple parts
  | set keys own => exact .set keys own

/-- Identities play no part. -/
theorem of_bare (h : Selfsame strict w) (same : v.bare = w) : Selfsame strict v := by
  induction h generalizing v with
  | scalar scalar number =>
    subst same
    exact .scalar (isScalar_bare.mp scalar) fun strict => isNan_bare v ▸ number strict
  | list parts ih =>
    cases v with
    | list id items =>
      rw [bare_list] at same
      cases same
      exact .list fun v hv => ih v.bare (List.mem_map_of_mem hv) rfl
    | _ => cases same
  | dict keys numbers values ih =>
    cases v with
    | dict id entries =>
      rw [bare] at same
      cases same
      refine .dict (distinct_of_bareEntries keys) ?_ ?_
      · intro e he
        rw [bareEntries_eq_map] at numbers
        exact isNan_bare e.1 ▸ numbers _ (List.mem_map_of_mem he)
      · intro e he
        rw [bareEntries_eq_map] at ih
        exact ih _ (List.mem_map_of_mem he) rfl
    | _ => cases same
  | tuple parts ih =>
    cases v with
    | tuple id items =>
      rw [bare_tuple] at same
      cases same
      exact .tuple fun v hv => ih v.bare (List.mem_map_of_mem hv) rfl
    | _ => cases same
  | set keys numbers =>
    cases v with
    | set id members =>
      rw [bare_set] at same
      cases same
      refine .set (distinct_of_bare keys) ?_
      intro v hv
      exact isNan_bare v ▸ numbers _ (List.mem_map_of_mem hv)
    | _ => cases same

end Selfsame

/-- Values that differ in identities only are equal. -/
theorem equal_of_bare {v w : Value} (same : v.bare = w.bare) (h : Selfsame false w.bare) :
    equal v w = true :=
  (equal_congr same w).trans (h.of_bare rfl).equal

/-- What a dictionary has under a key, without identities. -/
theorem find?_bareEntries {k : Value} (hk : k.IsScalar) (entries : List (Value × Value)) :
    find? (bareEntries entries) k = (find? entries k).map bare := by
  induction entries with
  | nil => rfl
  | cons e r ih =>
    rw [bareEntries, find?_cons, find?_cons, ih, same_comm hk, same_bare, ← same_comm hk]
    split <;> rfl

end YamlEdit.Value
