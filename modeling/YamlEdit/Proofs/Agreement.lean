import Mathlib.Data.List.Forall2
import YamlEdit.Proofs.Outcome

/-!
# Computations that agree

What every answer of a computation is like, and what the answers of two have in common. Two fallible
computations agree if both fail or both answer, with related answers. With states, they agree from
related states on and end in related ones. Each way of putting computations together has one rule, so
a relation between two runs of one program is followed along the program's text.
-/

namespace YamlEdit

variable {ε ε' α β γ δ σ τ : Type}

/-- Both fail with related faults, or both answer with related answers. -/
def AgreeBy (E : ε → ε' → Prop) (R : α → β → Prop) : Except ε α → Except ε' β → Prop
  | .ok a, .ok b => R a b
  | .error e, .error e' => E e e'
  | _, _ => False

/-- Both fail, or both answer with related answers. -/
abbrev Agree (R : α → β → Prop) : Except ε α → Except ε' β → Prop :=
  AgreeBy (fun _ _ => True) R

namespace AgreeBy

variable {E : ε → ε' → Prop} {R : α → β → Prop} {Q : γ → δ → Prop}

theorem bind {x : Except ε α} {y : Except ε' β} {f : α → Except ε γ} {g : β → Except ε' δ}
    (h : AgreeBy E R x y) (next : ∀ a b, R a b → AgreeBy E Q (f a) (g b)) :
    AgreeBy E Q (x >>= f) (y >>= g) := by
  cases x with
  | error e =>
    cases y with
    | error e' => exact h
    | ok b => cases h
  | ok a =>
    cases y with
    | error e' => cases h
    | ok b => exact next a b h

theorem map {x : Except ε α} {y : Except ε' β} {f : α → γ} {g : β → δ} (h : AgreeBy E R x y)
    (next : ∀ a b, R a b → Q (f a) (g b)) : AgreeBy E Q (x.map f) (y.map g) := by
  cases x <;> cases y
  · exact h
  · cases h
  · cases h
  · exact next _ _ h

/-- What is known of the answers of the second besides. -/
theorem and_right {x : Except ε α} {y : Except ε' β} {P : β → Prop} (h : AgreeBy E R x y)
    (known : ∀ b, y = .ok b → P b) : AgreeBy E (fun a b => R a b ∧ P b) x y := by
  cases x with
  | error e =>
    cases y with
    | error e' => exact h
    | ok b => cases h
  | ok a =>
    cases y with
    | error e' => cases h
    | ok b => exact ⟨h, known b rfl⟩

/-- Agreement whatever the faults are. -/
theorem agree {x : Except ε α} {y : Except ε' β} (h : AgreeBy E R x y) : Agree R x y := by
  cases x <;> cases y
  · trivial
  · cases h
  · cases h
  · exact h

/-- A fault under a condition. -/
theorem guard {c : Prop} [Decidable c] {e : ε} {e' : ε'} {f : PUnit → Except ε γ}
    {g : PUnit → Except ε' δ} (next : AgreeBy E Q (f ⟨⟩) (g ⟨⟩)) (fault : E e e') :
    AgreeBy E Q (if c then throw e >>= f else f ⟨⟩) (if c then throw e' >>= g else g ⟨⟩) := by
  split
  · exact fault
  · exact next

/-- An answer of the first is related to one of the second. -/
theorem ok {x : Except ε α} {y : Except ε' β} (h : AgreeBy E R x y) {a : α} (hx : x = .ok a) :
    ∃ b, y = .ok b ∧ R a b := by
  subst hx
  cases y with
  | error e => cases h
  | ok b => exact ⟨b, rfl, h⟩

/-- What two agreeing computations come to. -/
theorem cases {x : Except ε α} {y : Except ε' β} (h : AgreeBy E R x y) :
    (∃ e e', x = .error e ∧ y = .error e' ∧ E e e') ∨
      ∃ a b, x = .ok a ∧ y = .ok b ∧ R a b := by
  cases x with
  | error e =>
    cases y with
    | error e' => exact .inl ⟨e, e', rfl, rfl, h⟩
    | ok b => cases h
  | ok a =>
    cases y with
    | error e' => cases h
    | ok b => exact .inr ⟨a, b, rfl, rfl, h⟩

theorem ite {c : Prop} [Decidable c] {x u : Except ε α} {y v : Except ε' β}
    (left : c → AgreeBy E R x y) (right : ¬ c → AgreeBy E R u v) :
    AgreeBy E R (if c then x else u) (if c then y else v) := by
  split
  · next hc => exact left hc
  · next hc => exact right hc

theorem foldlM {f : α → γ → Except ε α} {g : β → δ → Except ε' β} {T : γ → δ → Prop}
    (h : ∀ a b c d, R a b → T c d → AgreeBy E R (f a c) (g b d)) {l : List γ} {m : List δ}
    (same : List.Forall₂ T l m) {a : α} {b : β} (start : R a b) :
    AgreeBy E R (l.foldlM f a) (m.foldlM g b) := by
  induction same generalizing a b with
  | nil => exact start
  | cons head tail ih =>
    rw [List.foldlM_cons, List.foldlM_cons]
    exact (h _ _ _ _ start head).bind fun _ _ next => ih next

end AgreeBy

/-- From related states on both fail with related faults, or both answer and end in related
states. -/
structure AgreesBy (E : ε → ε' → Prop) (S : σ → τ → Prop) (R : α → β → Prop)
    (x : StateT σ (Except ε) α) (y : StateT τ (Except ε') β) : Prop where
  run : ∀ s t, S s t → AgreeBy E (fun p q => R p.1 q.1 ∧ S p.2 q.2) (x.run s) (y.run t)

/-- From related states on both fail, or both answer and end in related states. -/
abbrev Agrees (S : σ → τ → Prop) (R : α → β → Prop) (x : StateT σ (Except ε) α)
    (y : StateT τ (Except ε') β) : Prop :=
  AgreesBy (fun _ _ => True) S R x y

namespace AgreesBy

variable {E : ε → ε' → Prop} {S : σ → τ → Prop} {R : α → β → Prop} {Q : γ → δ → Prop}

theorem of_pure {a : α} {b : β} (h : R a b) :
    AgreesBy E S R (pure a : StateT σ (Except ε) α) (pure b : StateT τ (Except ε') β) :=
  ⟨fun _ _ hs => ⟨h, hs⟩⟩

theorem bind {x : StateT σ (Except ε) α} {y : StateT τ (Except ε') β}
    {f : α → StateT σ (Except ε) γ} {g : β → StateT τ (Except ε') δ}
    (h : AgreesBy E S R x y) (next : ∀ a b, R a b → AgreesBy E S Q (f a) (g b)) :
    AgreesBy E S Q (x >>= f) (y >>= g) :=
  ⟨fun s t hs => (h.run s t hs).bind fun p q hpq => (next p.1 q.1 hpq.1).run p.2 q.2 hpq.2⟩

theorem of_get : AgreesBy E S S (MonadState.get : StateT σ (Except ε) σ)
    (MonadState.get : StateT τ (Except ε') τ) :=
  ⟨fun _ _ hs => ⟨hs, hs⟩⟩

theorem of_modify {f : σ → σ} {g : τ → τ} (h : ∀ s t, S s t → S (f s) (g t)) :
    AgreesBy E S (fun _ _ => True) (modify f : StateT σ (Except ε) PUnit)
      (modify g : StateT τ (Except ε') PUnit) :=
  ⟨fun s t hs => ⟨trivial, h s t hs⟩⟩

theorem of_throw {e : ε} {e' : ε'} (fault : E e e') :
    AgreesBy E S R (throw e : StateT σ (Except ε) α) (throw e' : StateT τ (Except ε') β) :=
  ⟨fun _ _ _ => fault⟩

theorem ite {c c' : Prop} [Decidable c] [Decidable c'] {x u : StateT σ (Except ε) α}
    {y v : StateT τ (Except ε') β} (same : c ↔ c') (left : c → AgreesBy E S R x y)
    (right : ¬ c → AgreesBy E S R u v) : AgreesBy E S R (if c then x else u) (if c' then y else v) := by
  by_cases hc : c
  · rw [if_pos hc, if_pos (same.mp hc)]
    exact left hc
  · rw [if_neg hc, if_neg fun hc' => hc (same.mpr hc')]
    exact right hc

/-- A step that comes first under a condition. -/
theorem guard {c c' : Prop} [Decidable c] [Decidable c'] {x : StateT σ (Except ε) PUnit}
    {y : StateT τ (Except ε') PUnit} {f : PUnit → StateT σ (Except ε) γ}
    {g : PUnit → StateT τ (Except ε') δ} (same : c ↔ c')
    (first : AgreesBy E S (fun _ _ => True) x y) (next : AgreesBy E S Q (f ⟨⟩) (g ⟨⟩)) :
    AgreesBy E S Q (if c then x >>= f else f ⟨⟩) (if c' then y >>= g else g ⟨⟩) :=
  .ite same (fun _ => first.bind fun _ _ _ => next) fun _ => next

theorem foldlM {f : α → γ → StateT σ (Except ε) α} {g : β → γ → StateT τ (Except ε') β}
    (h : ∀ a b c, R a b → AgreesBy E S R (f a c) (g b c)) (l : List γ) {a : α} {b : β} (start : R a b) :
    AgreesBy E S R (l.foldlM f a) (l.foldlM g b) := by
  induction l generalizing a b with
  | nil => exact .of_pure start
  | cons c l ih =>
    rw [List.foldlM_cons, List.foldlM_cons]
    exact (h a b c start).bind fun _ _ next => ih next

theorem mapM {f : γ → StateT σ (Except ε) α} {g : γ → StateT τ (Except ε') α}
    (h : ∀ c, AgreesBy E S (· = ·) (f c) (g c)) (l : List γ) :
    AgreesBy E S (· = ·) (l.mapM f) (l.mapM g) := by
  induction l with
  | nil =>
    rw [List.mapM_nil, List.mapM_nil]
    exact .of_pure rfl
  | cons c l ih =>
    rw [List.mapM_cons, List.mapM_cons]
    refine (h c).bind fun a b same => ih.bind ?_
    intro r t rest
    subst same rest
    exact .of_pure rfl

end AgreesBy

/-- Every answer, with the state behind it, has a property. -/
structure Yields (P : α → σ → Prop) (x : StateT σ (Except ε) α) : Prop where
  run : ∀ s a t, x.run s = .ok (a, t) → P a t

namespace Yields

theorem of_pure {P : α → σ → Prop} {a : α} (h : ∀ t, P a t) :
    Yields P (pure a : StateT σ (Except ε) α) := by
  refine ⟨?_⟩
  intro s b t ht
  cases ht
  exact h s

theorem bind {P : γ → σ → Prop} {x : StateT σ (Except ε) α} {f : α → StateT σ (Except ε) γ}
    (next : ∀ a, Yields P (f a)) : Yields P (x >>= f) := by
  refine ⟨?_⟩
  intro s c t ht
  rw [StateT.run_bind] at ht
  obtain ⟨⟨a, u⟩, -, hf⟩ := bind_eq_ok.mp ht
  exact (next a).run u c t hf

theorem ite {P : α → σ → Prop} {c : Prop} [Decidable c] {x y : StateT σ (Except ε) α}
    (left : Yields P x) (right : Yields P y) : Yields P (if c then x else y) := by
  split
  · exact left
  · exact right

end Yields

/-- Every answer from a state, with the state behind it, has a property. -/
structure Meets (Q : α → σ → Prop) (x : StateT σ (Except ε) α) (s : σ) : Prop where
  run : ∀ a t, x.run s = .ok (a, t) → Q a t

namespace Meets

variable {Q : α → σ → Prop} {s : σ}

theorem of_pure {a : α} (h : Q a s) : Meets Q (pure a : StateT σ (Except ε) α) s := by
  refine ⟨?_⟩
  intro b t ht
  cases ht
  exact h

theorem of_get {Q : σ → σ → Prop} (h : Q s s) :
    Meets Q (MonadState.get : StateT σ (Except ε) σ) s := by
  refine ⟨?_⟩
  intro b t ht
  cases ht
  exact h

theorem of_modify {Q : PUnit → σ → Prop} {f : σ → σ} (h : Q ⟨⟩ (f s)) :
    Meets Q (modify f : StateT σ (Except ε) PUnit) s := by
  refine ⟨?_⟩
  intro b t ht
  cases ht
  exact h

theorem of_throw {e : ε} : Meets Q (throw e : StateT σ (Except ε) α) s := by
  refine ⟨?_⟩
  intro b t ht
  cases ht

theorem bind {x : StateT σ (Except ε) γ} {f : γ → StateT σ (Except ε) α}
    (h : Meets (fun c t => Meets Q (f c) t) x s) : Meets Q (x >>= f) s := by
  refine ⟨?_⟩
  intro a u hu
  rw [StateT.run_bind] at hu
  obtain ⟨⟨c, t⟩, hx, hf⟩ := bind_eq_ok.mp hu
  exact (h.run c t hx).run a u hf

theorem mono {x : StateT σ (Except ε) α} {P : α → σ → Prop} (h : Meets P x s)
    (weaker : ∀ a t, P a t → Q a t) : Meets Q x s :=
  ⟨fun a t ht => weaker a t (h.run a t ht)⟩

theorem ite {c : Prop} [Decidable c] {x y : StateT σ (Except ε) α} (left : c → Meets Q x s)
    (right : ¬ c → Meets Q y s) : Meets Q (if c then x else y) s := by
  split
  · next hc => exact left hc
  · next hc => exact right hc

end Meets

/-- A chain from a first step with a known answer. -/
theorem run_bind_of_ok {x : StateT σ (Except ε) α} {f : α → StateT σ (Except ε) γ} {s t : σ} {a : α}
    (h : x.run s = .ok (a, t)) : (x >>= f).run s = (f a).run t := by
  rw [StateT.run_bind, h]
  rfl

end YamlEdit
