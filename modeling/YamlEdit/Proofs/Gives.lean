import YamlEdit.Notice
import YamlEdit.Settle

/-!
# Runs that answer

What a run of a change, or of other work that may fail and keeps a state, says about its parts. A
chain answers exactly if its steps do, one after another.
-/

namespace YamlEdit

variable {ε σ α β : Type}

/-- A run that answers, and the state behind it. -/
def Gives (x : ExceptT ε (StateM σ) α) (s : σ) (a : α) (t : σ) : Prop :=
  x.run.run s = (.ok a, t)

/-- A run that fails, and the state behind it. -/
def Fails (x : ExceptT ε (StateM σ) α) (s : σ) (e : ε) (t : σ) : Prop :=
  x.run.run s = (.error e, t)

theorem gives_pure {a b : α} {s t : σ} :
    Gives (pure a : ExceptT ε (StateM σ) α) s b t ↔ a = b ∧ s = t := by
  constructor
  · intro h
    cases h
    exact ⟨rfl, rfl⟩
  · rintro ⟨rfl, rfl⟩
    rfl

/-- A chain stops where its first step fails. -/
theorem run_chain (x : ExceptT ε (StateM σ) α) (f : α → ExceptT ε (StateM σ) β) (s : σ) :
    (x >>= f).run.run s =
      match x.run.run s with
      | (.ok a, t) => (f a).run.run t
      | (.error e, t) => (.error e, t) := by
  simp only [ExceptT.run_bind, StateT.run_bind]
  rcases x.run.run s with ⟨_ | _, t⟩ <;> rfl

theorem gives_bind {x : ExceptT ε (StateM σ) α} {f : α → ExceptT ε (StateM σ) β} {s u : σ} {b : β} :
    Gives (x >>= f) s b u ↔ ∃ a t, Gives x s a t ∧ Gives (f a) t b u := by
  constructor
  · intro h
    rw [Gives, run_chain] at h
    rcases hx : x.run.run s with ⟨e | a, t⟩
    · rw [hx] at h
      cases h
    · rw [hx] at h
      exact ⟨a, t, hx, h⟩
  · rintro ⟨a, t, hx, hf⟩
    rw [Gives, run_chain, hx]
    exact hf

theorem fails_bind {x : ExceptT ε (StateM σ) α} {f : α → ExceptT ε (StateM σ) β} {s t : σ} {e : ε}
    (h : Fails x s e t) : Fails (x >>= f) s e t := by
  rw [Fails] at h ⊢
  rw [run_chain, h]

theorem Gives.fails {x : ExceptT ε (StateM σ) α} {f : α → ExceptT ε (StateM σ) β} {s t u : σ}
    {a : α} {e : ε} (first : Gives x s a t) (h : Fails (f a) t e u) : Fails (x >>= f) s e u := by
  rw [Gives] at first
  rw [Fails, run_chain, first]
  exact h

theorem Gives.returns {x : ExceptT ε (StateM σ) α} {f : α → ExceptT ε (StateM σ) β} {s t : σ} {a : α}
    (first : Gives x s a t) (h : ∃ b u, Gives (f a) t b u) : ∃ b u, Gives (x >>= f) s b u := by
  obtain ⟨b, u, h⟩ := h
  exact ⟨b, u, gives_bind.mpr ⟨a, t, first, h⟩⟩

/-- A run that answers does not fail. -/
theorem Gives.not_fails {x : ExceptT ε (StateM σ) α} {s t u : σ} {a : α} {e : ε}
    (answers : Gives x s a t) : ¬ Fails x s e u := by
  intro fails
  rw [Gives, fails] at answers
  cases answers

theorem not_gives_throw {e : ε} {s t : σ} {a : α} :
    ¬ Gives (throw e : ExceptT ε (StateM σ) α) s a t := by
  intro h
  cases h

theorem gives_modify {f : σ → σ} {s t : σ} {u : PUnit} :
    Gives (modify f : ExceptT ε (StateM σ) PUnit) s u t ↔ f s = t := by
  constructor
  · intro h
    cases h
    rfl
  · rintro rfl
    rfl

/-- Work that is an outcome of another kind, with its fault as one of this kind. -/
theorem gives_lift {ε' : Type} {x : Except ε' α} {y : ExceptT ε (StateM σ) α} {s t : σ} {a : α}
    (f : ε' → ε) (ok : ∀ b, x = .ok b → y = pure b) (error : ∀ e, x = .error e → y = throw (f e)) :
    Gives y s a t ↔ x = .ok a ∧ s = t := by
  cases x with
  | error e =>
    rw [error e rfl]
    refine ⟨fun h => absurd h not_gives_throw, ?_⟩
    rintro ⟨⟨⟩, -⟩
  | ok b =>
    rw [ok b rfl, Except.ok.injEq]
    exact gives_pure

theorem Noted.gives_note {n : Notice} {s t : List Notice} {u : Unit} :
    Gives (Noted.note n : Noted ε Unit) s u t ↔ n :: s = t :=
  gives_modify

/-- The changes of a patch are a run of their own, which starts with the notices so far. -/
theorem Noted.gives_patch {ed : Editing} {changes : Patch Unit} {s t : List Notice} {draft : Draft} :
    Gives (Noted.patch ed changes) s draft t ↔
      ∃ session : Session, Gives changes { draft := .ofText ed.tree.text, notices := s } ⟨⟩ session ∧
        session.draft = draft ∧ session.notices = t := by
  rw [Noted.patch]
  rw [gives_bind]
  constructor
  · rintro ⟨notices, before, read, rest⟩
    cases read
    rcases ran : changes.run.run { draft := .ofText ed.tree.text, notices := s } with ⟨e | u, session⟩
    · rw [ran] at rest
      cases rest
    · rw [ran] at rest
      cases rest
      exact ⟨session, ran, rfl, rfl⟩
  · rintro ⟨session, ran, rfl, rfl⟩
    refine ⟨s, s, rfl, ?_⟩
    rw [Gives] at ran
    rw [ran]
    rfl

end YamlEdit
