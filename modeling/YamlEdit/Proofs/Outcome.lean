import YamlEdit.Text.Basic

/-!
# Chains that may fail

What a successful chain of fallible steps says about its parts.
-/

namespace YamlEdit

theorem bind_eq_ok {ε α β : Type} {x : Except ε α} {f : α → Except ε β} {b : β} :
    (x >>= f) = .ok b ↔ ∃ a, x = .ok a ∧ f a = .ok b := by
  cases x with
  | error e => simp [bind, Except.bind]
  | ok a => simp [bind, Except.bind]

/-- A step that is refused under a condition. -/
theorem guard_eq_ok {ε β : Type} {c : Prop} [Decidable c] {e : ε} {next : PUnit → Except ε β}
    {b : β} :
    (if c then throw e >>= next else next ⟨⟩) = Except.ok b ↔ ¬ c ∧ next ⟨⟩ = .ok b := by
  by_cases hc : c
  · simp [hc, throw, throwThe, MonadExceptOf.throw, bind, Except.bind]
  · simp [hc]

/-- An outcome of which something can be checked. -/
theorem exists_of_any {ε α : Type} {x : Except ε α} {p : α → Bool}
    (h : x.toOption.any p = true) : ∃ a, x = .ok a ∧ p a = true := by
  cases x with
  | error e => cases h
  | ok a => exact ⟨a, rfl, h⟩

/-- What holds of the outcomes of both branches holds of the outcome of the choice. -/
theorem of_ite_eq {α : Type} {c P : Prop} [Decidable c] {x y a : α} (left : c → x = a → P)
    (right : ¬ c → y = a → P) : (if c then x else y) = a → P := by
  split
  · next hc => exact left hc
  · next hc => exact right hc

end YamlEdit
