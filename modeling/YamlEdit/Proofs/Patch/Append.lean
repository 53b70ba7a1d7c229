import Mathlib.Data.List.Forall2
import YamlEdit.Patch.Diff
import YamlEdit.Proofs.Draft
import YamlEdit.Proofs.Gives

/-!
# Entries behind a mapping

What patching adds to a mapping: a line for every key that the text did not spell out, all of
them inserted at one append point, in the order of the new dictionary. They end up in that order
only if the append point is still in the text; behind lines that were erased it may stand for the
start of those lines, and then they end up in the reverse order.
-/

namespace YamlEdit.Patch

variable {ed : Editing} {s t : Session}

/-! ## What steps of a change say -/

theorem gives_note {n : Notice} {u : Unit} :
    Gives (note n) s u t ↔ { s with notices := n :: s.notices } = t :=
  gives_modify

theorem gives_splice {start stop : Int} {fragment : Text} {u : Unit} :
    Gives (splice start stop fragment) s u t ↔
      { s with draft := s.draft.splice start stop fragment } = t :=
  gives_modify

theorem gives_draft {d : Draft} : Gives draft s d t ↔ s.draft = d ∧ s = t := by
  constructor
  · intro h
    cases h
    exact ⟨rfl, rfl⟩
  · rintro ⟨rfl, rfl⟩
    rfl

theorem gives_ofLookup {α : Type} {x : Except LookupFault α} {a : α} :
    Gives (ofLookup x) s a t ↔ x = .ok a ∧ s = t := by
  refine gives_lift PatchError.lookup ?_ ?_
  · intro b hb
    rw [hb, ofLookup]
  · intro e he
    rw [he, ofLookup]

theorem gives_ofPosition {α : Type} {x : Except Text.Outside α} {a : α} :
    Gives (ofPosition x) s a t ↔ x = .ok a ∧ s = t := by
  refine gives_lift PatchError.outside ?_ ?_
  · intro b hb
    rw [hb, ofPosition]
  · intro e he
    rw [he, ofPosition]

theorem gives_ofLayout {α : Type} {x : Except LayoutFault α} {a : α} :
    Gives (ofLayout x) s a t ↔ x = .ok a ∧ s = t := by
  refine gives_lift PatchError.layout ?_ ?_
  · intro b hb
    rw [hb, ofLayout]
  · intro e he
    rw [he, ofLayout]

theorem gives_ofFragment {x : Except FragmentFault Text} {f : Text} :
    Gives (ofFragment x) s f t ↔ x = .ok f ∧ s = t := by
  refine gives_lift PatchError.ofFragment ?_ ?_
  · intro b hb
    rw [hb, ofFragment]
  · intro e he
    rw [he, ofFragment]

theorem gives_dump {v : Value} {flow : Bool} {f : Text} :
    Gives (dump ed v flow) s f t ↔ v.dump ed.layout flow = .ok f ∧ s = t :=
  gives_ofFragment

theorem gives_ofLoad {α : Type} {x : Except LoadError α} {a : α} :
    Gives (ofLoad x) s a t ↔ x = .ok a ∧ s = t := by
  refine gives_lift PatchError.load ?_ ?_
  · intro b hb
    rw [hb, ofLoad]
  · intro e he
    rw [he, ofLoad]

/-! ## One line behind a mapping -/

/-- What an insertion puts behind a node: the lines of a fragment at the column of the node, with a
line break behind or in front of them. -/
def IsChunk (ed : Editing) (n : Node) (fragment chunk : Text) : Prop :=
  ∃ lines lineBreak, ed.layout.indented fragment (.whole n.content.column) = .ok lines ∧
    ed.layout.breakText = .ok lineBreak ∧ (chunk = lines ++ lineBreak ∨ chunk = lineBreak ++ lines)

theorem insertAfter_splices {n : Node} {fragment : Text}
    (h : Gives (insertAfter ed n fragment) s ⟨⟩ t) :
    ∃ chunk, IsChunk ed n fragment chunk ∧
      t.draft = s.draft.splice (ed.tree.appendPoint n) (ed.tree.appendPoint n) chunk := by
  rw [insertAfter] at h
  obtain ⟨lines, _, got, h⟩ := gives_bind.mp h
  obtain ⟨indents, rfl⟩ := gives_ofLayout.mp got
  obtain ⟨_, _, got, h⟩ := gives_bind.mp h
  have noted := gives_note.mp got
  obtain ⟨lineBreak, _, got, h⟩ := gives_bind.mp h
  obtain ⟨breaks, rfl⟩ := gives_ofLayout.mp got
  obtain ⟨draft, _, got, h⟩ := gives_bind.mp h
  obtain ⟨-, rfl⟩ := gives_draft.mp got
  obtain ⟨starts, _, got, h⟩ := gives_bind.mp h
  obtain ⟨-, rfl⟩ := gives_ofPosition.mp got
  subst noted
  split at h
  · refine ⟨lines ++ lineBreak, ⟨lines, lineBreak, indents, breaks, .inl rfl⟩, ?_⟩
    rw [← gives_splice.mp h]
  · refine ⟨lineBreak ++ lines, ⟨lines, lineBreak, indents, breaks, .inr rfl⟩, ?_⟩
    rw [← gives_splice.mp h]

/-! ## All entries behind a mapping -/

/-- Whether an entry is added: the old value does not hold it already, through a merge. -/
def isAdded (old : Value) (e : Value × Value) : Bool :=
  match old.held? e.1 with
  | .ok held => !held.any fun w => Value.equal w e.2
  | .error _ => false

/-- The lines for an entry. -/
def IsEntry (ed : Editing) (n : Node) (e : Value × Value) (chunk : Text) : Prop :=
  ∃ fragment, (Value.dict none [e]).dump ed.layout = .ok fragment ∧ IsChunk ed n fragment chunk

/-- Every added entry is one insertion at the append point. -/
theorem addEntries_inserts {n : Node} {old : Value} {entries : List (Value × Value)}
    (h : Gives (addEntries ed n old entries) s ⟨⟩ t) :
    ∃ chunks, List.Forall₂ (IsEntry ed n) (entries.filter (isAdded old)) chunks ∧
      t.draft = s.draft.insertAll (ed.tree.appendPoint n) chunks := by
  induction entries generalizing s with
  | nil =>
    obtain ⟨-, rfl⟩ := gives_pure.mp h
    exact ⟨[], .nil, rfl⟩
  | cons e r ih =>
    obtain ⟨key, value⟩ := e
    rw [addEntries] at h
    obtain ⟨held, _, got, h⟩ := gives_bind.mp h
    obtain ⟨holds, rfl⟩ := gives_ofLookup.mp got
    have decides : isAdded old (key, value) = !held.any fun w => Value.equal w value := by
      rw [isAdded, holds]
    rw [List.filter_cons, decides]
    dsimp only at h
    split at h
    · next adds =>
      rw [if_pos adds]
      obtain ⟨mid, noted, h⟩ : ∃ mid : Session, mid.draft = s.draft ∧
          Gives (do
            insertAfter ed n (← dump ed (.dict none [(key, value)]))
            addEntries ed n old r) mid ⟨⟩ t := by
        split at h
        · obtain ⟨_, mid, got, h⟩ := gives_bind.mp h
          have noted := gives_note.mp got
          exact ⟨mid, by rw [← noted], h⟩
        · exact ⟨s, rfl, h⟩
      obtain ⟨fragment, _, got, h⟩ := gives_bind.mp h
      obtain ⟨dumped, rfl⟩ := gives_dump.mp got
      obtain ⟨_, next, got, h⟩ := gives_bind.mp h
      obtain ⟨chunk, isChunk, spliced⟩ := insertAfter_splices got
      obtain ⟨chunks, entries, inserted⟩ := ih h
      refine ⟨chunk :: chunks, .cons ⟨fragment, dumped, isChunk⟩ entries, ?_⟩
      rw [inserted, spliced, noted]
      rfl
    · next keeps =>
      rw [if_neg keeps]
      exact ih h

/-! ## What is left for the end -/

/-- The key that a pair of a mapping spells out; none for merges, aliases and collections. -/
def spelledKey? (ed : Editing) (p : Nat × Nat) : Option Value :=
  match (ed.node p.1).body with
  | .scalar tag _ _ => if tag == .merge then none else (ed.tree.construct (ed.node p.1)).toOption
  | _ => none

theorem gives_scalarKey {p : Nat × Nat} {key : Option Value} (h : Gives (scalarKey ed p.1) s key t) :
    key = spelledKey? ed p ∧ s = t := by
  unfold scalarKey at h
  rw [spelledKey?]
  dsimp only at h
  cases body : (ed.node p.1).body with
  | scalar tag text quoting =>
    rw [body] at h
    dsimp only at h ⊢
    split at h
    · next merges =>
      obtain ⟨rfl, rfl⟩ := gives_pure.mp h
      rw [if_pos merges]
      exact ⟨rfl, rfl⟩
    · next other =>
      obtain ⟨v, _, got, h⟩ := gives_bind.mp h
      obtain ⟨built, rfl⟩ := gives_ofLoad.mp got
      obtain ⟨rfl, rfl⟩ := gives_pure.mp h
      rw [if_neg other, built]
      exact ⟨rfl, rfl⟩
  | sequence tag frame items | mapping tag frame pairs | aliasOf name target =>
    rw [body] at h
    obtain ⟨rfl, rfl⟩ := gives_pure.mp h
    exact ⟨rfl, rfl⟩

/-- The entries whose keys no pair spells out. -/
def newEntries (ed : Editing) (pairs : List (Nat × Nat)) (entries : List (Value × Value)) :
    List (Value × Value) :=
  entries.filter fun e => !(pairs.filterMap (spelledKey? ed)).any fun key => Value.same key e.1

theorem newEntries_nil (entries : List (Value × Value)) : newEntries ed [] entries = entries := by
  show entries.filter (fun _ => true) = entries
  rw [List.filter_true]

theorem newEntries_cons (p : Nat × Nat) (r : List (Nat × Nat)) (entries : List (Value × Value)) :
    newEntries ed (p :: r) entries =
      match spelledKey? ed p with
      | none => newEntries ed r entries
      | some key => newEntries ed r (Value.dropKey entries key) := by
  unfold newEntries
  cases hp : spelledKey? ed p with
  | none => rw [List.filterMap_cons_none hp]
  | some key =>
    rw [List.filterMap_cons_some hp]
    dsimp only
    rw [Value.dropKey, List.filter_filter]
    refine List.filter_congr ?_
    intro e _
    rw [List.any_cons, Bool.not_or, Bool.and_comm]

theorem dropKey_of_not_hasKey {entries pending : List (Value × Value)} {key : Value}
    (inside : ∀ e ∈ pending, e ∈ entries) (missing : Value.hasKey entries key = false) :
    Value.dropKey pending key = pending := by
  refine List.filter_eq_self.mpr ?_
  intro e he
  have other := List.any_eq_false.mp missing e (inside e he)
  simpa using other

/-- The pass over the pairs of a mapping leaves the entries of the new dictionary that none of them
spells out, in their order. -/
theorem patchPairs_leaves {patch : Node → Value → Value → Patch Unit} {old : Value}
    {id : Option Nat} {entries pending rest : List (Value × Value)} {pairs : List (Nat × Nat)}
    (inside : ∀ e ∈ pending, e ∈ entries)
    (h : Gives (patchPairs ed patch old (.dict id entries) pending pairs) s rest t) :
    rest = newEntries ed pairs pending := by
  induction pairs generalizing pending s with
  | nil =>
    obtain ⟨rfl, -⟩ := gives_pure.mp h
    exact (newEntries_nil _).symm
  | cons p r ih =>
    obtain ⟨k, v⟩ := p
    rw [patchPairs] at h
    obtain ⟨key?, _, got, h⟩ := gives_bind.mp h
    obtain ⟨spelled, rfl⟩ := gives_scalarKey (p := (k, v)) got
    rw [newEntries_cons, ← spelled]
    cases key? with
    | none => exact ih inside h
    | some key =>
      dsimp only at h ⊢
      obtain ⟨found, _, got, h⟩ := gives_bind.mp h
      obtain ⟨holds, rfl⟩ := gives_ofLookup.mp got
      have holds : Value.hasKey entries key = found := Except.ok.inj holds
      have fewer : ∀ e ∈ Value.dropKey pending key, e ∈ entries :=
        fun e he => inside e (List.mem_of_mem_filter he)
      split at h
      · next missing =>
        obtain ⟨_, _, -, h⟩ := gives_bind.mp h
        obtain ⟨_, _, -, h⟩ := gives_bind.mp h
        rw [dropKey_of_not_hasKey inside (by rw [holds]; simpa using missing)]
        exact ih inside h
      · split at h
        · obtain ⟨held?, _, -, h⟩ := gives_bind.mp h
          have goesOn : ∀ {x : Patch Value} {u : Session}, Gives (do
                let held ← x
                let value ← ofLookup ((Value.dict id entries).item key)
                if !Value.equal held value then
                  patchPair ed patch (ed.node k) (ed.node v) held value
                patchPairs ed patch old (.dict id entries) (Value.dropKey pending key) r) u rest t →
              rest = newEntries ed r (Value.dropKey pending key) := by
            intro x u h
            obtain ⟨held, _, -, h⟩ := gives_bind.mp h
            obtain ⟨value, _, -, h⟩ := gives_bind.mp h
            dsimp only at h
            split at h
            · obtain ⟨_, _, -, h⟩ := gives_bind.mp h
              exact ih fewer h
            · exact ih fewer h
          cases held? with
          | some w => exact goesOn h
          | none => exact goesOn h
        · exact ih fewer h

/-! ## The whole mapping -/

/-- Patching a mapping inserts the entries that it did not spell out into what the pass over its
pairs left, one after another at the append point. -/
theorem patchEntries_appends {patch : Node → Value → Value → Patch Unit} {n : Node} {tag : Tag}
    {frame : Frame} {pairs : List (Nat × Nat)} {old : Value} {id : Option Nat}
    {entries : List (Value × Value)}
    (body : n.body = .mapping tag frame pairs)
    (h : Gives (patchEntries ed patch n old (.dict id entries)) s ⟨⟩ t) :
    ∃ mid chunks,
      Gives (patchPairs ed patch old (.dict id entries) entries pairs) s
        (newEntries ed pairs entries) mid ∧
      List.Forall₂ (IsEntry ed n) ((newEntries ed pairs entries).filter (isAdded old)) chunks ∧
      t.draft = mid.draft.insertAll (ed.tree.appendPoint n) chunks := by
  rw [patchEntries] at h
  obtain ⟨all, _, got, h⟩ := gives_bind.mp h
  obtain ⟨same, rfl⟩ := gives_ofLookup.mp got
  cases same
  obtain ⟨spelled, _, got, h⟩ := gives_bind.mp h
  rw [pairsOf] at got
  rw [body] at got
  obtain ⟨rfl, rfl⟩ := gives_pure.mp got
  obtain ⟨rest, mid, first, h⟩ := gives_bind.mp h
  have leaves := patchPairs_leaves (fun e he => he) first
  subst leaves
  obtain ⟨chunks, isEntries, inserted⟩ := addEntries_inserts h
  exact ⟨mid, chunks, first, isEntries, inserted⟩

end YamlEdit.Patch
