import YamlEdit.Proofs.Document.Stages
import YamlEdit.Proofs.Value.Equivalence

/-!
# Assigning what was read

An assignment first compares the value with the one that the text loads. That comparison is an
equivalence of contents which ignores the order of keys; so assigning the value just read, or the
same content with its keys in another order, keeps the text as it is and reports nothing.
-/

namespace YamlEdit.Document

variable {d : Document} {v w : Value}

/-- An assignment of an equal value keeps the document. -/
theorem gives_assign_equal (set : w ≠ .unset) (loaded : d.value = .ok v)
    (same : Value.equal v w = true) (s : List Notice) : Gives (d.assign w) s d s := by
  rw [assign]
  refine gives_bind.mpr ⟨v, s, gives_ofLoad.mpr ⟨loaded, rfl⟩, ?_⟩
  split
  · exact absurd rfl set
  · rw [if_pos same]
    exact gives_pure.mpr ⟨rfl, rfl⟩

/-- An assignment of the content that was read, its keys in whatever order, keeps the document. -/
theorem gives_assign_reordered (content : v.Content) (loaded : d.value = .ok v)
    (reordered : v.Reordered w) (s : List Notice) : Gives (d.assign w) s d s := by
  obtain ⟨content', same⟩ := reordered.equal content
  refine gives_assign_equal ?_ loaded same s
  rintro rfl
  cases content' with
  | scalar scalar => cases scalar

/-- Equality of contents is an equivalence that ignores the order of keys at whatever depth, and an
assignment of the content just read leaves the text as it is. -/
theorem equal_equivalence_keeps :
    Equivalence (fun v w : {v : Value // v.Content} => Value.equal v.1 w.1 = true) ∧
      (∀ v v' w w' : Value, v.Content → w.Content → v.Reordered v' → w.Reordered w' →
        Value.equal v w = Value.equal v' w') ∧
      ∀ (d : Document) (v : Value) (s : List Notice), d.value = .ok v → v.Content →
        Gives (d.assign v) s d s := by
  refine ⟨⟨fun v => v.2.equal_self, fun {v w} h => v.2.equal_symm w.2 h,
    fun {u v w} h h' => u.2.equal_trans v.2 w.2 h h'⟩, ?_, ?_⟩
  · intro v v' w w' hv hw first second
    obtain ⟨hv', left⟩ := first.equal hv
    obtain ⟨hw', right⟩ := second.equal hw
    exact hv.equal_congr hv' hw hw' left right
  · intro d v s loaded content
    exact gives_assign_reordered content loaded (.refl v) s

/-! ## A list of what is no number -/

/-- A document with a list of what is no number. -/
def numberless : Document :=
  { text := "b: [.nan]\na: true\n".toList }

/-- The value of `numberless`. -/
def numberlessValue : Value :=
  .dict none [(.str "b".toList, .list none [.nan]), (.str "a".toList, .bool true)]

/-- The value of `numberless` with its keys in another order. -/
def numberlessTurned : Value :=
  .dict none [(.str "a".toList, .bool true), (.str "b".toList, .list none [.nan])]

theorem equal_equivalence_keeps_numberless :
    ∃ v, numberless.value = .ok v ∧ v.Content ∧ Gives (numberless.assign v) [] numberless [] ∧
      numberlessValue.Content ∧ numberlessTurned.Content ∧
      numberlessValue.Reordered numberlessTurned ∧
      Value.equal numberlessTurned numberlessValue = true := by
  obtain ⟨equivalence, reorders, keeps⟩ := equal_equivalence_keeps
  have content : numberlessValue.Content := Value.content_of_isContent (by decide +kernel)
  have content' : numberlessTurned.Content := Value.content_of_isContent (by decide +kernel)
  have turned : numberlessValue.Reordered numberlessTurned := .entries (.swap ..)
  have loads : numberless.value.toOption.any Value.isContent = true := by decide +kernel
  cases loaded : numberless.value with
  | error e =>
    rw [loaded] at loads
    cases loads
  | ok v =>
    rw [loaded] at loads
    have own : v.Content := Value.content_of_isContent loads
    refine ⟨v, rfl, own, keeps numberless v [] loaded own, content, content', turned, ?_⟩
    rw [← reorders numberlessValue _ numberlessValue _ content content turned (.refl _)]
    exact equivalence.refl ⟨numberlessValue, content⟩

end YamlEdit.Document
