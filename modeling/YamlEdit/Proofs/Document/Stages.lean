import YamlEdit.Document
import YamlEdit.Proofs.Gives

/-!
# Stages of an assignment

An assignment has three ways to its text: the text stays as it is, a text without a value gets one
below its comments, or the parts that differ are patched and the patched text is checked. Each stage
answers only if the ones before it did.
-/

namespace YamlEdit

namespace Document

open Noted

variable {d : Document} {v : Value} {s t : List Notice}

theorem gives_ofLoad {α : Type} {x : Except LoadError α} {a : α} :
    Gives (ofLoad x) s a t ↔ x = .ok a ∧ s = t := by
  refine gives_lift PatchError.load ?_ ?_
  · intro b hb
    rw [hb, ofLoad]
  · intro e he
    rw [he, ofLoad]

theorem gives_dump {layout : Layout} {f : Text} :
    Gives (dump v layout) s f t ↔ v.dump layout = .ok f ∧ s = t := by
  refine gives_lift PatchError.ofFragment ?_ ?_
  · intro b hb
    rw [dump, hb]
  · intro e he
    rw [dump, he]

theorem gives_tagOf {tag : Tag} : Gives (tagOf v) s tag t ↔ v.tag? = some tag ∧ s = t := by
  rw [tagOf]
  cases v.tag? with
  | none => simpa using not_gives_throw
  | some tag => simpa using gives_pure

/-- The text with the changes that a new value asks for, before it is checked. -/
def uncheckedText (d : Document) (tree : Tree) (root : Node) (old new : Value) :
    Noted PatchError Text := do
  let tag ← tagOf new
  let ed : Editing := ⟨tree, d.layout⟩
  let draft ← Noted.patch ed (rootChanges ed root tag old new)
  Noted.note (.patched draft.delta)
  if tree.hasAlias then settleAliases draft.text new d.layout else pure draft.text

theorem patchedText_eq (d : Document) (tree : Tree) (root : Node) (old new : Value) :
    d.patchedText tree root old new =
      (do let text ← d.uncheckedText tree root old new; d.checked text new) := by
  unfold patchedText uncheckedText
  simp only [bind_assoc]
  congr
  funext tag
  congr
  funext draft
  congr
  funext _
  split
  · rfl
  · rw [pure_bind]

/-- A text that loads as a value, up to equality of values. -/
def Loads (s : Text) (v : Value) : Prop :=
  ∃ w, loadValue s = .ok w ∧ Value.equal w v = true

/-- A value whose own text, in the layout of a document, loads as the value. -/
def ReadsBack (d : Document) (v : Value) : Prop :=
  ∃ f, v.dump d.layout = .ok f ∧ Loads (f ++ d.lineBreak.text) v

/-- Whether a text loads as a value. -/
def check (s : Text) (v : Value) : Bool :=
  (loadValue s).toOption.any (Value.equal · v)

theorem loads_iff_check {text : Text} : Loads text v ↔ check text v = true := by
  unfold Loads check
  cases loadValue text with
  | error e => simp [Except.toOption]
  | ok w => simp [Except.toOption]

theorem readsBack_of_check
    (h : (v.dump d.layout).toOption.any (fun f => check (f ++ d.lineBreak.text) v) = true) :
    d.ReadsBack v := by
  rw [ReadsBack]
  cases hf : v.dump d.layout with
  | error e => simp [hf, Except.toOption] at h
  | ok f =>
    rw [hf] at h
    exact ⟨f, rfl, loads_iff_check.mpr h⟩

/-- The text that an assignment ends with, if it answers. -/
def assigned? (d : Document) (v : Value) (notes : List Notice) : Option Text :=
  ((d.assign v).run.run notes).1.toOption.map (·.text)

theorem gives_of_assigned? {text : Text} (h : d.assigned? v s = some text) :
    ∃ d' t, Gives (d.assign v) s d' t ∧ d'.text = text ∧ t = ((d.assign v).run.run s).2 := by
  rw [assigned?] at h
  rcases hr : (d.assign v).run.run s with ⟨e | d', t⟩
  · rw [hr] at h
    cases h
  · rw [hr] at h
    cases h
    exact ⟨d', t, hr, rfl, rfl⟩

theorem not_gives_of_assigned? (h : d.assigned? v s = none) :
    ¬ ∃ d' t, Gives (d.assign v) s d' t := by
  rintro ⟨d', t, gives⟩
  rw [Gives] at gives
  rw [assigned?, gives] at h
  cases h

/-- A checked text loads as the value, or it is the value written out, with a warning. -/
theorem checked_cases {text out : Text} (h : Gives (d.checked text v) s out t) :
    (out = text ∧ t = s ∧ Loads text v) ∨
      (¬ Loads text v ∧ (∃ n : Notice, n.level = .warning ∧ t = n :: s) ∧
        ∃ f, v.dump d.layout = .ok f ∧ out = f ++ d.lineBreak.text) := by
  have anew : ∀ {n : Notice}, n.level = .warning →
      Gives (do Noted.note n; return (← dump v d.layout) ++ d.lineBreak.text) s out t →
      (∃ n : Notice, n.level = .warning ∧ t = n :: s) ∧
        ∃ f, v.dump d.layout = .ok f ∧ out = f ++ d.lineBreak.text := by
    intro n warns h
    obtain ⟨_, u, got, h⟩ := gives_bind.mp h
    have noted := gives_note.mp got
    obtain ⟨f, u, got, h⟩ := gives_bind.mp h
    obtain ⟨dumped, rfl⟩ := gives_dump.mp got
    obtain ⟨rfl, rfl⟩ := gives_pure.mp h
    exact ⟨⟨n, warns, noted.symm⟩, f, dumped, rfl⟩
  rw [checked] at h
  split at h
  · next w hw =>
    by_cases same : Value.equal w v
    · rw [if_pos same] at h
      obtain ⟨rfl, rfl⟩ := gives_pure.mp h
      exact .inl ⟨rfl, rfl, w, hw, same⟩
    · rw [if_neg same] at h
      refine .inr ⟨?_, anew rfl h⟩
      rintro ⟨w', hw', same'⟩
      rw [hw] at hw'
      cases hw'
      exact same same'
  · next e he =>
    have fails : ¬ Loads text v := by
      rintro ⟨w, hw, -⟩
      rw [he] at hw
      cases hw
    split at h
    · exact .inr ⟨fails, anew rfl h⟩
    · exact absurd h not_gives_throw

/-- The way that an assignment took. -/
inductive Course (d : Document) (v : Value) (s : List Notice) (d' : Document) (t : List Notice) :
    Prop where
  | keeps {current : Value} : d.value = .ok current → Value.equal current v = true → d' = d →
      t = s → Course d v s d' t
  | fills {current : Value} {tree : Tree} {text : Text} : d.value = .ok current →
      Value.equal current v = false → Tree.compose d.text = .ok tree → tree.root? = none →
      Gives (d.freshText v) s text t → d' = { d with text := withoutTrailingBlanks text } →
      Course d v s d' t
  | patches {current : Value} {tree : Tree} {root : Node} {text out : Text} {u : List Notice} :
      d.value = .ok current → Value.equal current v = false → Tree.compose d.text = .ok tree →
      tree.root? = some root → Gives (d.uncheckedText tree root current v) s text u →
      Gives (d.checked text v) u out t → d' = { d with text := withoutTrailingBlanks out } →
      Course d v s d' t

/-- The unset mark alone has a way of its own: it makes the text empty. -/
theorem course_of_set {d' : Document} (set : v ≠ .unset)
    (h : Gives (d.assign v) s d' t) : Course d v s d' t := by
  rw [assign] at h
  obtain ⟨current, u, got, h⟩ := gives_bind.mp h
  obtain ⟨loaded, rfl⟩ := gives_ofLoad.mp got
  split at h
  · exact absurd rfl set
  · by_cases same : Value.equal current v
    · rw [if_pos same] at h
      obtain ⟨rfl, rfl⟩ := gives_pure.mp h
      exact .keeps loaded same rfl rfl
    · rw [if_neg same] at h
      have other : Value.equal current v = false := by simpa using same
      obtain ⟨tree, u, got, h⟩ := gives_bind.mp h
      obtain ⟨composed, rfl⟩ := gives_ofLoad.mp got
      dsimp only at h
      split at h
      · next none =>
        obtain ⟨text, u, written, h⟩ := gives_bind.mp h
        obtain ⟨rfl, rfl⟩ := gives_pure.mp h
        exact .fills loaded other composed none written rfl
      · next root some =>
        obtain ⟨out, u, written, h⟩ := gives_bind.mp h
        obtain ⟨rfl, rfl⟩ := gives_pure.mp h
        rw [patchedText_eq] at written
        obtain ⟨text, u, drafted, checked⟩ := gives_bind.mp written
        exact .patches loaded other composed some drafted checked rfl

theorem course {d' : Document} (accepted : v.tag?.isSome = true)
    (h : Gives (d.assign v) s d' t) : Course d v s d' t := by
  refine course_of_set ?_ h
  rintro rfl
  cases accepted

theorem text_of_unset {d' : Document} (h : Gives (d.assign .unset) s d' t) : d'.text = [] := by
  rw [assign] at h
  obtain ⟨current, u, -, h⟩ := gives_bind.mp h
  obtain ⟨_, _, -, h⟩ := gives_bind.mp h
  rw [← (gives_pure.mp h).1]

end Document

end YamlEdit
