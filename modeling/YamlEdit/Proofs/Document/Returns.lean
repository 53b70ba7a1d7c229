import YamlEdit.Proofs.Document.Stages
import YamlEdit.Proofs.Tree.Graph

/-!
# When an assignment returns

A patched text that is no document, or another value's, is thrown away with a warning. Two faults
pass by that check: one that stops the patching itself, and one that loading the patched text meets
in a single scalar, such as one that is no number though its tag says so. Nothing else can fail once
the text loads and the value reads back.
-/

namespace YamlEdit.Document

open Noted

variable {d : Document} {v : Value} {s t : List Notice}

/-- The fault that an assignment meets in patching, or in loading what was patched. -/
def escape? (d : Document) (v : Value) (notes : List Notice) : Option PatchError :=
  match d.value, Tree.compose d.text with
  | .ok current, .ok tree =>
    match tree.root? with
    | none => none
    | some root =>
      if Value.equal current v then none
      else
        match ((d.uncheckedText tree root current v).run.run notes).1 with
        | .error e => some e
        | .ok text =>
          match loadValue text with
          | .ok _ => none
          | .error e => if e.isAboutDocument then none else some (.load e)
  | _, _ => none

theorem loads_of_isOk (h : d.value.toOption.isSome = true) : ∃ current, d.value = .ok current := by
  cases hv : d.value with
  | error e => rw [hv] at h; cases h
  | ok current => exact ⟨current, rfl⟩

/-- A text that loads has a tree. -/
theorem compose_of_value {current : Value} (loaded : d.value = .ok current) :
    ∃ tree, Tree.compose d.text = .ok tree := by
  obtain ⟨store, loaded, -⟩ := bind_eq_ok.mp loaded
  obtain ⟨graph, composed, -⟩ := bind_eq_ok.mp loaded
  obtain ⟨tree, composed, -⟩ := (Tree.agree_compose d.text).ok composed
  exact ⟨tree, composed⟩

/-- A value that reads back fills every text without a value. -/
theorem gives_freshText (accepted : v.tag?.isSome = true) (reads : d.ReadsBack v) :
    ∃ text t, Gives (d.freshText v) s text t := by
  obtain ⟨f, dumped, -⟩ := reads
  obtain ⟨tag, ht⟩ := Option.isSome_iff_exists.mp accepted
  rw [freshText]
  refine Gives.returns ((gives_note (u := ⟨⟩)).mpr rfl) ?_
  refine Gives.returns (gives_tagOf.mpr ⟨ht, rfl⟩) ?_
  refine Gives.returns (gives_dump.mpr ⟨dumped, rfl⟩) ?_
  dsimp only
  split
  · exact ⟨_, _, gives_pure.mpr ⟨rfl, rfl⟩⟩
  · exact ⟨_, _, gives_pure.mpr ⟨rfl, rfl⟩⟩

/-- The check answers unless loading meets a fault in a single scalar. -/
theorem gives_checked (reads : d.ReadsBack v) {text : Text}
    (judged : ∀ e, loadValue text = .error e → e.isAboutDocument = true) :
    ∃ out t, Gives (d.checked text v) s out t := by
  obtain ⟨f, dumped, -⟩ := reads
  have anew : ∀ u : List Notice, ∃ out t, Gives
      (do return (← dump v d.layout) ++ d.lineBreak.text : Noted PatchError Text) u out t := by
    intro u
    refine Gives.returns (gives_dump.mpr ⟨dumped, rfl⟩) ?_
    exact ⟨_, _, gives_pure.mpr ⟨rfl, rfl⟩⟩
  rw [checked]
  cases loaded : loadValue text with
  | ok w =>
    dsimp only
    by_cases same : Value.equal w v
    · rw [if_pos same]
      exact ⟨_, _, gives_pure.mpr ⟨rfl, rfl⟩⟩
    · rw [if_neg same]
      exact Gives.returns ((gives_note (u := ⟨⟩)).mpr rfl) (anew _)
  | error e =>
    dsimp only
    rw [if_pos (judged e loaded)]
    exact Gives.returns ((gives_note (u := ⟨⟩)).mpr rfl) (anew _)

/-- A fault in a single scalar passes by the check. -/
theorem fails_checked {text : Text} {e : LoadError} (failed : loadValue text = .error e)
    (other : ¬ e.isAboutDocument = true) : Fails (d.checked text v) s (.load e) s := by
  rw [Fails, checked, failed]
  dsimp only
  rw [if_neg other]
  rfl

/-- Patching answers, with its check, if nothing escapes. -/
theorem gives_patchedText {tree : Tree} {root : Node} {current : Value}
    (loaded : d.value = .ok current) (other : ¬ Value.equal current v = true)
    (composed : Tree.compose d.text = .ok tree) (rooted : tree.root? = some root)
    (reads : d.ReadsBack v) (kept : d.escape? v s = none) :
    ∃ out t, Gives (d.patchedText tree root current v) s out t := by
  simp only [escape?, loaded, composed, rooted, if_neg other] at kept
  rw [patchedText_eq]
  rcases drafted : (d.uncheckedText tree root current v).run.run s with ⟨e | text, u⟩
  · rw [drafted] at kept
    cases kept
  · rw [drafted] at kept
    have judged : ∀ e, loadValue text = .error e → e.isAboutDocument = true := by
      intro e failed
      dsimp only at kept
      rw [failed] at kept
      dsimp only at kept
      split at kept
      · next about => exact about
      · cases kept
    have answers : Gives (d.uncheckedText tree root current v) s text u := drafted
    exact answers.returns (gives_checked reads judged)

/-- A fault in patching, or in loading what was patched, is the fault of both together. -/
theorem fails_patchedText {tree : Tree} {root : Node} {current : Value} {e : PatchError}
    (loaded : d.value = .ok current) (other : ¬ Value.equal current v = true)
    (composed : Tree.compose d.text = .ok tree) (rooted : tree.root? = some root)
    (escapes : d.escape? v s = some e) :
    ∃ t, Fails (d.patchedText tree root current v) s e t := by
  simp only [escape?, loaded, composed, rooted, if_neg other] at escapes
  rw [patchedText_eq]
  rcases drafted : (d.uncheckedText tree root current v).run.run s with ⟨e' | text, u⟩
  · rw [drafted] at escapes
    cases escapes
    exact ⟨u, fails_bind drafted⟩
  · rw [drafted] at escapes
    dsimp only at escapes
    have answers : Gives (d.uncheckedText tree root current v) s text u := drafted
    split at escapes
    · cases escapes
    · next e' failed =>
      split at escapes
      · cases escapes
      · next other =>
        cases escapes
        exact ⟨u, answers.fails (fails_checked failed other)⟩

theorem assign_eq (accepted : v.tag?.isSome = true) :
    d.assign v = (do
      let current ← ofLoad d.value
      if Value.equal current v then return d
      let tree ← ofLoad (Tree.compose d.text)
      let text ←
        match tree.root? with
        | none => d.freshText v
        | some root => d.patchedText tree root current v
      return { d with text := withoutTrailingBlanks text }) := by
  cases v with
  | unset => cases accepted
  | _ => rfl

/-- An assignment returns if nothing escapes. -/
theorem gives_assign {current : Value} (loaded : d.value = .ok current)
    (accepted : v.tag?.isSome = true) (reads : d.ReadsBack v) (kept : d.escape? v s = none) :
    ∃ d' t, Gives (d.assign v) s d' t := by
  obtain ⟨tree, composed⟩ := compose_of_value loaded
  rw [assign_eq accepted]
  refine Gives.returns (gives_ofLoad.mpr ⟨loaded, rfl⟩) ?_
  by_cases same : Value.equal current v
  · rw [if_pos same]
    exact ⟨_, _, gives_pure.mpr ⟨rfl, rfl⟩⟩
  · rw [if_neg same]
    refine Gives.returns (gives_ofLoad.mpr ⟨composed, rfl⟩) ?_
    dsimp only
    cases rooted : tree.root? with
    | none =>
      obtain ⟨text, u, written⟩ := gives_freshText accepted reads
      exact written.returns ⟨_, _, gives_pure.mpr ⟨rfl, rfl⟩⟩
    | some root =>
      obtain ⟨text, u, written⟩ := gives_patchedText loaded same composed rooted reads kept
      exact written.returns ⟨_, _, gives_pure.mpr ⟨rfl, rfl⟩⟩

/-- What escapes is the fault of the assignment. -/
theorem fails_assign {current : Value} {e : PatchError} (loaded : d.value = .ok current)
    (accepted : v.tag?.isSome = true) (escapes : d.escape? v s = some e) :
    ∃ t, Fails (d.assign v) s e t := by
  obtain ⟨tree, composed⟩ := compose_of_value loaded
  have start : Gives (ofLoad d.value) s current s := gives_ofLoad.mpr ⟨loaded, rfl⟩
  have second : Gives (ofLoad (Tree.compose d.text)) s tree s := gives_ofLoad.mpr ⟨composed, rfl⟩
  have way : ∃ root, tree.root? = some root ∧ ¬ Value.equal current v = true := by
    simp only [escape?, loaded, composed] at escapes
    split at escapes
    · cases escapes
    · next root rooted =>
      split at escapes
      · cases escapes
      · next other => exact ⟨root, rooted, other⟩
  obtain ⟨root, rooted, other⟩ := way
  obtain ⟨t, fails⟩ := fails_patchedText loaded other composed rooted escapes
  refine ⟨t, ?_⟩
  rw [assign_eq accepted]
  refine start.fails ?_
  rw [if_neg other]
  refine second.fails ?_
  dsimp only
  rw [rooted]
  exact fails_bind fails

/-- A mapping with a key of the value tag, which loads only as part of a mapping. -/
def valueKey : Document :=
  { text := "=: 1\nb: 1\n".toList }

/-- The value of `valueKey` with another number. -/
def valueKeyNext : Value :=
  .dict none [(.str "=".toList, .int 1), (.str "b".toList, .int 2)]

end YamlEdit.Document
