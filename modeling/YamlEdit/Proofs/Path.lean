import YamlEdit.Path
import YamlEdit.Proofs.Number.Numeral
import YamlEdit.Proofs.Outcome
import YamlEdit.Proofs.Tree.Readable

/-!
# Where paths lead

A path is walked one segment at a time: from a mapping to the value of the first pair whose key spells
the segment, from a sequence to the item at the position that the segment names, and through aliases to
what they stand for. In the tree of a text every alias has a node and every child is there, so a walk
ends at a node or leads nowhere. What remains are segments that spell no number although they should: a
text of digits for a sequence, and a number of too many digits for a mapping. They are errors.
-/

namespace YamlEdit

namespace Path

/-- A text of digits that names no position: not all of them are decimal, or there are too many. -/
def NamesNothing (segment : Segment) : Prop :=
  ∃ s, segment = .str s ∧ s ≠ [] ∧ (∀ c ∈ s, Text.isDigitLike c = true) ∧
    ((∃ c ∈ s, Text.decimalValue? c = none) ∨ Numeral.maxDecimalDigits < s.length)

/-- A number of too many digits to be written as a key. -/
def SpellsNothing (segment : Segment) : Prop :=
  ∃ n, segment = .int n ∧ Numeral.maxDecimalDigits < (Text.ofNat n.natAbs).length

theorem keyText_eq_error {segment : Segment} {e : LoadError} :
    keyText segment = .error e ↔ SpellsNothing segment ∧ e = .literal .malformed := by
  cases segment with
  | int n =>
    rw [keyText]
    by_cases many : Numeral.maxDecimalDigits < (Text.ofNat n.natAbs).length
    · simp [SpellsNothing, many, eq_comm]
    · simp [SpellsNothing, many]
  | _ => simp [keyText, SpellsNothing]

theorem position?_eq_error {segment : Segment} {e : LoadError} :
    position? segment = .error e ↔ NamesNothing segment ∧ e = .literal .malformed := by
  cases segment with
  | str s =>
    rw [position?]
    by_cases digits : s ≠ [] ∧ ∀ c ∈ s, Text.isDigitLike c = true
    · obtain ⟨filled, digits⟩ := digits
      have names : NamesNothing (.str s) ↔ Numeral.int? 10 s = none := by
        rw [← Option.not_isSome_iff_eq_none, Numeral.int?_isSome_of_digits filled digits]
        simp only [NamesNothing, Value.str.injEq, exists_eq_left', not_and_or, not_forall,
          Nat.not_le, Bool.not_eq_true, Option.isSome_eq_false_iff, Option.isNone_iff_eq_none,
          exists_prop]
        exact ⟨fun h => h.2.2, fun h => ⟨filled, digits, h⟩⟩
      rw [names, if_pos (by simpa using ⟨filled, digits⟩)]
      cases Numeral.int? 10 s <;> simp [eq_comm]
    · have other : ¬ NamesNothing (.str s) := by
        rintro ⟨_, ⟨⟩, filled, all, -⟩
        exact digits ⟨filled, all⟩
      rw [if_neg (by simpa using digits)]
      simp [other]
  | _ => simp [position?, NamesNothing]

/-- One step of a walk, and what it was taken from: a pair of a mapping, with the pairs before and
behind it, or an item of a sequence. -/
inductive Step where
  | pair (mapping : Node) (before : List (Nat × Nat)) (pair : Nat × Nat) (after : List (Nat × Nat))
  | item (sequence : Node) (position : Nat)

end Path

namespace Tree

open YamlEdit.Path

/-- Whether the key of a pair is a scalar with a text, or an alias of one. -/
def spells (t : Tree) (key : Text) (p : Nat × Nat) : Bool :=
  match (t.node? p.1).bind t.target? with
  | some k =>
    match k.body with
    | .scalar _ text _ => text = key
    | _ => false
  | none => false

/-- The step that a segment asks for, and the node that it leads to. -/
inductive Takes (t : Tree) (n : Node) (segment : Segment) : Step → Node → Prop
  | pair {m x : Node} {key : Text} {before after : List (Nat × Nat)} {p : Nat × Nat}
      (target : t.target? n = some m) (mapping : m.kind = .mapping)
      (text : keyText segment = .ok key) (pairs : m.pairs = before ++ p :: after)
      (first : ∀ q ∈ before, t.spells key q = false) (spells : t.spells key p = true)
      (value : t.node? p.2 = some x) : Takes t n segment (.pair m before p after) x
  | item {m x : Node} {position c : Nat} (target : t.target? n = some m)
      (sequence : m.kind = .sequence) (names : position? segment = .ok (some (position : Int)))
      (listed : m.items[position]? = some c) (value : t.node? c = some x) :
      Takes t n segment (.item m position) x

/-- A segment that cannot be compared with the keys of a mapping, or be read as a position in a
sequence. -/
def Refuses (t : Tree) (n : Node) (segment : Segment) : Prop :=
  ∃ m, t.target? n = some m ∧
    (m.kind = .mapping ∧ SpellsNothing segment ∨ m.kind = .sequence ∧ NamesNothing segment)

/-- The steps of a path from one node to another. -/
inductive Walk (t : Tree) : Node → List Segment → List Step → Node → Prop
  | here (n : Node) : Walk t n [] [] n
  | next {n m x : Node} {segment : Segment} {path : List Segment} {step : Step} {steps : List Step}
      (takes : t.Takes n segment step m) (rest : Walk t m path steps x) :
      Walk t n (segment :: path) (step :: steps) x

/-- A path that comes to a segment which is refused. -/
inductive Stumbles (t : Tree) : Node → List Segment → Prop
  | here {n : Node} {segment : Segment} {path : List Segment} (refuses : t.Refuses n segment) :
      Stumbles t n (segment :: path)
  | next {n m : Node} {segment : Segment} {path : List Segment} {step : Step}
      (takes : t.Takes n segment step m) (rest : Stumbles t m path) :
      Stumbles t n (segment :: path)

variable {t : Tree} {n m x : Node} {segment : Segment} {path : List Segment} {e : LoadError}

/-! ## One step -/

theorem target_eq (target : t.target? n = some m) : t.target n = .ok m := by
  rw [Tree.target, target]

/-- A key is looked up among the pairs in the order of the text. -/
theorem lookupKey_eq {pairs : List (Nat × Nat)} (key : Text)
    (keys : ∀ p ∈ pairs, ∃ k, (t.node? p.1).bind t.target? = some k) :
    t.lookupKey key pairs = .ok ((pairs.find? (t.spells key)).bind fun p => t.node? p.2) := by
  induction pairs with
  | nil => rfl
  | cons p r ih =>
    obtain ⟨⟨m, target⟩, rest⟩ := List.forall_mem_cons.mp keys
    obtain ⟨k, here, target'⟩ := Option.bind_eq_some_iff.mp target
    have own : t.spells key p =
        match m.body with
        | .scalar _ text _ => decide (text = key)
        | _ => false := by
      rw [spells, target]
    rw [lookupKey, here, Option.getD_some, target_eq target', ih rest, List.find?_cons, own]
    show (match m.body with
      | .scalar _ text _ => if text = key then _ else _
      | _ => _) = _
    generalize m.body = body
    cases body with
    | scalar tag text quoting =>
      by_cases same : text = key
      · simp [same, pure, Except.pure]
      · simp [same]
    | _ => rfl

variable (sound : Sound t.nodes) {i : Nat} (here : t.node? i = some n)
include sound here

/-- A node of a tree stands for one that is no alias. -/
theorem exists_target : ∃ j m, t.target? n = some m ∧ t.node? j = some m ∧ m.isAlias = false := by
  obtain ⟨m, target, -, there, alone⟩ := exists_lead sound (Array.getElem?_eq_some_iff.mp here).1
  rw [here] at target
  exact ⟨t.lead i, m, target, there, alone⟩

theorem exists_child {c : Nat} (hc : c ∈ n.children) : ∃ m, t.node? c = some m :=
  ⟨_, Array.getElem?_eq_getElem (sound.child i n here c hc)⟩

theorem exists_childTarget {c : Nat} (hc : c ∈ n.children) :
    ∃ m, (t.node? c).bind t.target? = some m := by
  obtain ⟨m, target, -⟩ := exists_lead sound (sound.child i n here c hc)
  exact ⟨m, target⟩

omit sound here in
theorem step_eq_of_target (target : t.target? n = some m) :
    t.step n segment =
      match m.body with
      | .mapping _ _ pairs => do t.lookupKey (← keyText segment) pairs
      | .sequence _ _ items => do return t.lookupItem items (← position? segment)
      | _ => .ok none := by
  rw [step, target_eq target]
  rfl

/-- A segment is an error exactly where it is refused. -/
theorem step_eq_error : t.step n segment = .error e ↔
    t.Refuses n segment ∧ e = .literal .malformed := by
  obtain ⟨j, m, target, there, alone⟩ := exists_target sound here
  have refuses : t.Refuses n segment ↔
      (m.kind = .mapping ∧ SpellsNothing segment ∨ m.kind = .sequence ∧ NamesNothing segment) := by
    simp [Refuses, target]
  rw [refuses, step_eq_of_target target]
  cases body : m.body with
  | scalar tag text quoting => simp [Node.kind, body]
  | aliasOf name aim => simp [Node.kind, body]
  | mapping tag frame pairs =>
    have keys : ∀ p ∈ pairs, ∃ k, (t.node? p.1).bind t.target? = some k := by
      intro p hp
      have hp : p ∈ m.pairs := by simpa [Node.pairs, body] using hp
      exact exists_childTarget sound there (Node.mem_children_of_mem_pairs hp).1
    simp only [Node.kind, body, true_and, reduceCtorEq, false_and, or_false]
    rw [← keyText_eq_error]
    cases text : keyText segment with
    | error e' =>
      show Except.error e' = _ ↔ _
      simp
    | ok key =>
      show t.lookupKey key pairs = _ ↔ _
      simp [lookupKey_eq key keys]
  | sequence tag frame items =>
    simp only [Node.kind, body, true_and, reduceCtorEq, false_and, false_or]
    rw [← position?_eq_error]
    cases names : position? segment with
    | error e' =>
      show Except.error e' = _ ↔ _
      simp
    | ok position =>
      show Except.ok _ = _ ↔ _
      simp

/-- A segment leads to a node exactly by a step. -/
theorem step_eq_some : t.step n segment = .ok (some x) ↔ ∃ step, t.Takes n segment step x := by
  obtain ⟨j, m, target, there, alone⟩ := exists_target sound here
  rw [step_eq_of_target target]
  constructor
  · intro h
    cases body : m.body with
    | scalar tag text quoting => simp [body] at h
    | aliasOf name aim => simp [body] at h
    | mapping tag frame pairs =>
      have own : m.pairs = pairs := by simp [Node.pairs, body]
      have keys : ∀ p ∈ pairs, ∃ k, (t.node? p.1).bind t.target? = some k := fun p hp =>
        exists_childTarget sound there (Node.mem_children_of_mem_pairs (own ▸ hp)).1
      rw [body] at h
      obtain ⟨key, text, looked⟩ := bind_eq_ok.mp h
      rw [lookupKey_eq key keys, Except.ok.injEq, Option.bind_eq_some_iff] at looked
      obtain ⟨p, found, value⟩ := looked
      obtain ⟨spells, before, after, split, first⟩ := List.find?_eq_some_iff_append.mp found
      refine ⟨_, .pair target (by simp [Node.kind, body]) text (own.trans split) ?_ spells value⟩
      simpa using first
    | sequence tag frame items =>
      rw [body] at h
      obtain ⟨position, names, looked⟩ := bind_eq_ok.mp h
      have looked : t.lookupItem items position = some x := Except.ok.inj looked
      unfold lookupItem at looked
      split at looked
      · next number _ =>
        split at looked
        · next whole =>
          obtain ⟨c, listed, value⟩ := Option.bind_eq_some_iff.mp looked
          have names : position? segment = .ok (some (number.toNat : Int)) := by
            rw [names, Int.toNat_of_nonneg whole]
          refine ⟨_, .item target (by simp [Node.kind, body]) names ?_ value⟩
          simpa [Node.items, body] using listed
        · cases looked
      · cases looked
  · rintro ⟨step, takes⟩
    cases takes with
    | @pair m' _ key before after p target' mapping text pairs first spells value =>
      cases target.symm.trans target'
      cases body : m.body with
      | mapping tag frame all =>
        have own : m.pairs = all := by simp [Node.pairs, body]
        have keys : ∀ p ∈ all, ∃ k, (t.node? p.1).bind t.target? = some k := fun p hp =>
          exists_childTarget sound there (Node.mem_children_of_mem_pairs (own ▸ hp)).1
        have found : all.find? (t.spells key) = some p := List.find?_eq_some_iff_append.mpr
          ⟨spells, before, after, own.symm.trans pairs, fun q hq => by simp [first q hq]⟩
        refine bind_eq_ok.mpr ⟨key, text, ?_⟩
        rw [lookupKey_eq key keys, found, Option.bind_some, value]
      | _ => simp [Node.kind, body] at mapping
    | @item m' _ position c target' sequence names listed value =>
      cases target.symm.trans target'
      cases body : m.body with
      | sequence tag frame items =>
        have listed : items[position]? = some c := by simpa [Node.items, body] using listed
        refine bind_eq_ok.mpr ⟨some (position : Int), names, ?_⟩
        simp [lookupItem, listed, value, pure, Except.pure]
      | _ => simp [Node.kind, body] at sequence

omit sound here in
/-- A step leads to a node of the tree. -/
theorem Takes.node {step : Step} (takes : t.Takes n segment step x) : ∃ j, t.node? j = some x := by
  cases takes with
  | pair _ _ _ _ _ _ value => exact ⟨_, value⟩
  | item _ _ _ _ value => exact ⟨_, value⟩

omit sound here in
/-- A list is split in one way before the first of its items that a test accepts. -/
theorem split_unique {α : Type} {test : α → Bool} {before before' after after' : List α} {a a' : α}
    (same : before ++ a :: after = before' ++ a' :: after') (first : ∀ b ∈ before, test b = false)
    (first' : ∀ b ∈ before', test b = false) (hit : test a = true) (hit' : test a' = true) :
    before = before' ∧ a = a' ∧ after = after' := by
  induction before generalizing before' with
  | nil =>
    cases before' with
    | nil => exact ⟨rfl, List.cons.inj same⟩
    | cons b before' =>
      rw [(List.cons.inj same).1, first' b List.mem_cons_self] at hit
      cases hit
  | cons b before ih =>
    cases before' with
    | nil =>
      rw [← (List.cons.inj same).1, first b List.mem_cons_self] at hit'
      cases hit'
    | cons b' before' =>
      obtain ⟨rfl, rest⟩ := List.cons.inj same
      obtain ⟨rfl, more⟩ := ih rest (fun c hc => first c (.tail _ hc)) fun c hc => first' c (.tail _ hc)
      exact ⟨rfl, more⟩

omit sound here in
/-- A segment asks for one step. -/
theorem Takes.unique {step step' : Step} {x' : Node} (h : t.Takes n segment step x)
    (h' : t.Takes n segment step' x') : step = step' ∧ x = x' := by
  cases h with
  | pair target mapping text pairs first spells value =>
    cases h' with
    | pair target' _ text' pairs' first' spells' value' =>
      cases target.symm.trans target'
      cases text.symm.trans text'
      obtain ⟨rfl, rfl, rfl⟩ := split_unique (pairs.symm.trans pairs') first first' spells spells'
      exact ⟨rfl, Option.some.inj (value.symm.trans value')⟩
    | item target' sequence =>
      cases target.symm.trans target'
      cases mapping.symm.trans sequence
  | item target sequence names listed value =>
    cases h' with
    | pair target' mapping =>
      cases target.symm.trans target'
      cases mapping.symm.trans sequence
    | item target' _ names' listed' value' =>
      cases target.symm.trans target'
      cases names.symm.trans names'
      cases listed.symm.trans listed'
      exact ⟨rfl, Option.some.inj (value.symm.trans value')⟩

omit sound here in
/-- A path is walked in one way. -/
theorem Walk.unique {steps steps' : List Step} {x' : Node} (h : t.Walk n path steps x)
    (h' : t.Walk n path steps' x') : steps = steps' ∧ x = x' := by
  induction h generalizing steps' with
  | here =>
    cases h'
    exact ⟨rfl, rfl⟩
  | next takes _ ih =>
    cases h' with
    | next takes' rest' =>
      obtain ⟨rfl, rfl⟩ := takes.unique takes'
      obtain ⟨rfl, same⟩ := ih rest'
      exact ⟨rfl, same⟩

/-! ## A whole path -/

/-- A path leads to a node exactly by a walk. -/
theorem follow_eq_some : t.follow n path = .ok (some x) ↔ ∃ steps, t.Walk n path steps x := by
  induction path generalizing n i with
  | nil =>
    rw [follow, Except.ok.injEq, Option.some.injEq]
    constructor
    · rintro rfl
      exact ⟨[], .here n⟩
    · rintro ⟨_, ⟨⟩⟩
      rfl
  | cons segment path ih =>
    rw [follow, bind_eq_ok]
    constructor
    · rintro ⟨next, stepped, rest⟩
      cases next with
      | none => cases rest
      | some m =>
        obtain ⟨step, takes⟩ := (step_eq_some sound here).mp stepped
        obtain ⟨j, there⟩ := takes.node
        obtain ⟨steps, walk⟩ := (ih there).mp rest
        exact ⟨step :: steps, .next takes walk⟩
    · rintro ⟨_, walk⟩
      cases walk with
      | next takes rest =>
        obtain ⟨j, there⟩ := takes.node
        exact ⟨_, (step_eq_some sound here).mpr ⟨_, takes⟩, (ih there).mpr ⟨_, rest⟩⟩

/-- A path is an error exactly if it comes to a segment that is refused. -/
theorem follow_eq_error : t.follow n path = .error e ↔
    t.Stumbles n path ∧ e = .literal .malformed := by
  induction path generalizing n i with
  | nil =>
    rw [follow]
    constructor
    · intro h
      cases h
    · rintro ⟨stumbles, -⟩
      cases stumbles
  | cons segment path ih =>
    rw [follow]
    cases stepped : t.step n segment with
    | error e' =>
      obtain ⟨refuses, rfl⟩ := (step_eq_error sound here).mp stepped
      show Except.error _ = _ ↔ _
      rw [Except.error.injEq, and_iff_right (.here refuses), eq_comm]
    | ok next =>
      have accepted : ¬ t.Refuses n segment := by
        intro refuses
        have failed := (step_eq_error sound here).mpr ⟨refuses, rfl⟩
        rw [stepped] at failed
        cases failed
      cases next with
      | none =>
        refine ⟨fun h => ?_, ?_⟩
        · cases h
        · rintro ⟨stumbles, -⟩
          cases stumbles with
          | here refuses => exact absurd refuses accepted
          | next takes rest =>
            have led := (step_eq_some sound here).mpr ⟨_, takes⟩
            rw [stepped] at led
            cases led
      | some m =>
        obtain ⟨step, takes⟩ := (step_eq_some sound here).mp stepped
        obtain ⟨j, there⟩ := takes.node
        show t.follow m path = _ ↔ _
        rw [ih there]
        refine and_congr_left fun _ => ⟨.next takes, ?_⟩
        intro stumbles
        cases stumbles with
        | here refuses => exact absurd refuses accepted
        | next takes' rest =>
          have led := (step_eq_some sound here).mpr ⟨_, takes'⟩
          rw [stepped] at led
          cases led
          exact rest

omit sound here in
/-- What is found at a path is where a walk from the document's node ends. -/
theorem find_eq_some (sound : Sound t.nodes) : t.find path = .ok (some n) ↔
    ∃ root steps, t.root? = some root ∧ t.Walk root path steps n := by
  rw [find]
  cases rooted : t.root? with
  | none => simp
  | some root => simp [follow_eq_some sound rooted]

end Tree

end YamlEdit
