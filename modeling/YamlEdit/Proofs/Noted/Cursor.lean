import YamlEdit.Proofs.Inset.Cursor
import YamlEdit.Proofs.Noted.Block
import YamlEdit.Proofs.Token.Whole

/-!
# Places around another comment

Up to the place where the texts part all marks are the same. Behind the line of the place the texts
are the same again, in the same lines and columns, and only the characters before were others in
number.
-/

namespace YamlEdit

open Scan

variable {u v post w w' : Text} {c e : Cursor}

/-- Cursors with the same text left, in the same line and column. -/
structure Cursor.Level (c e : Cursor) : Prop where
  rest : e.rest = c.rest
  line : e.mark.line = c.mark.line
  column : e.mark.column = c.mark.column

namespace Cursor

theorem Level.advance (h : Level c e) (n : Nat) :
    Level (Cursor.advance n c) (Cursor.advance n e) := by
  induction n generalizing c e with
  | zero => exact h
  | succ n ih =>
    obtain ⟨rest, m⟩ := c
    obtain ⟨rest', n'⟩ := e
    obtain ⟨same, line, column⟩ := h
    dsimp only at same line column
    subst same
    cases rest' with
    | nil => exact ⟨rfl, line, column⟩
    | cons ch r =>
      refine ih ⟨rfl, ?_, ?_⟩
      · dsimp only
        rw [Mark.past, Mark.past]
        split
        · exact congrArg (· + 1) line
        · split <;> exact line
      · dsimp only
        rw [Mark.past, Mark.past]
        split
        · rfl
        · split
          · exact column
          · exact congrArg (· + 1) column

theorem Level.reach (h : Level c e) (rest : Text) : Level (c.reach rest) (e.reach rest) := by
  rw [Cursor.reach, Cursor.reach, h.rest]
  exact h.advance _

theorem line_le_reach (c : Cursor) (rest : Text) : c.mark.line ≤ (c.reach rest).mark.line :=
  Scanner.line_le_advance _ c

/-- Going on in a line. -/
theorem reach_unbroken {x rest : Text} (inside : ∀ c ∈ x, isBreak c = false) (m : Mark) :
    (reach ⟨x ++ rest, m⟩ rest).mark.line = m.line := by
  induction x generalizing m with
  | nil => rw [List.nil_append, reach_self ⟨rest, m⟩]
  | cons ch x ih =>
    obtain ⟨here, further⟩ := List.forall_mem_cons.mp inside
    rw [List.cons_append, reach_cons ch m (List.suffix_append x rest), ih further,
      Mark.past_inside m here]

/-- Going to the next line. -/
theorem reach_nextLine {s next : Text} (m : Mark) (line : afterBreak? s = some next) :
    (reach ⟨s, m⟩ next).rest = next ∧ (reach ⟨s, m⟩ next).mark.line = m.line + 1 ∧
      (reach ⟨s, m⟩ next).mark.column = 0 := by
  refine ⟨rest_reach_of_suffix (Margin.suffix_afterBreak? line), ?_,
    column_reach (c := ⟨s, m⟩) (List.suffix_refl s) line⟩
  obtain ⟨ch, r, rfl, stops⟩ := Margin.isBreak_of_afterBreak? line
  rw [afterBreak?_break stops, Option.some_inj] at line
  cases pair : isReturnOfPair ch r with
  | false =>
    have here : r = next := by rwa [pair] at line
    rw [← here, TokenFeed.reach_tail, Mark.past_break m stops pair]
  | true =>
    obtain ⟨rfl, feed⟩ : ch = '\r' ∧ r.head? = some '\n' := by
      rwa [isReturnOfPair, Bool.and_eq_true, beq_iff_eq, beq_iff_eq] at pair
    obtain ⟨t, rfl⟩ := List.head?_eq_some_iff.mp feed
    have here : t = next := by rwa [pair] at line
    rw [← here, reach_cons _ m (List.suffix_cons _ _), TokenFeed.reach_tail,
      Mark.past_break _ rfl rfl, Mark.past_pair m pair]

end Cursor

namespace Scan.Fork

variable (h : Fork u post w w')
include h

theorem past_eq {ch : Char} {s : Text} (suffix : ch :: s <:+ u) (m : Mark) :
    m.past ch (s ++ w') = m.past ch (s ++ w) := by
  have pair := h.pair_eq suffix
  simp only [isReturnOfPair] at pair
  cases ret : ch == '\r' with
  | false => simp only [Mark.past, ret, Bool.false_and]
  | true =>
    rw [ret, Bool.true_and, Bool.true_and] at pair
    simp only [Mark.past, ret, Bool.true_and, bne, pair]

/-- Up to the place the marks are the same. -/
theorem mark_reach {z : Text} (inside : v <:+ u) (suffix : z <:+ v) (m : Mark) :
    Cursor.reach ⟨v ++ w', m⟩ (z ++ w') =
      ⟨z ++ w', (Cursor.reach ⟨v ++ w, m⟩ (z ++ w)).mark⟩ := by
  obtain ⟨p, rfl⟩ := suffix
  induction p generalizing m with
  | nil => rw [List.nil_append, Cursor.reach_self ⟨z ++ w', m⟩, Cursor.reach_self ⟨z ++ w, m⟩]
  | cons ch p ih =>
    have rest (t : Text) : z ++ t <:+ p ++ z ++ t := by
      rw [List.append_assoc]
      exact List.suffix_append p (z ++ t)
    have past := h.past_eq (s := p ++ z) inside m
    rw [List.cons_append, List.cons_append, List.cons_append, Cursor.reach_cons ch m (rest w'),
      Cursor.reach_cons ch m (rest w), past]
    exact ih _ ((List.suffix_cons ch _).trans inside)

/-- What follows the line of the place ends both texts. -/
theorem suffix_post : post <:+ w ∧ post <:+ w' := by
  cases h.noted with
  | @replaced x y old new =>
    exact ⟨List.suffix_append ('#' :: x) post, List.suffix_append ('#' :: y) post⟩
  | @added y new => exact ⟨List.suffix_refl post, List.suffix_append (' ' :: '#' :: y) post⟩

/-- At the end of the line of the place both are in the same line. -/
theorem line_reach (inside : v <:+ u) (m : Mark) :
    (Cursor.reach ⟨v ++ w', m⟩ post).mark.line = (Cursor.reach ⟨v ++ w, m⟩ post).mark.line := by
  obtain ⟨old, new⟩ := h.suffix_post
  have stop : Cursor.reach ⟨v ++ w', m⟩ w' = ⟨w', (Cursor.reach ⟨v ++ w, m⟩ w).mark⟩ :=
    h.mark_reach inside (List.nil_suffix (l := v)) m
  have start : Cursor.reach ⟨v ++ w, m⟩ w = ⟨w, (Cursor.reach ⟨v ++ w, m⟩ w).mark⟩ := by
    have rest := Cursor.rest_reach_of_suffix (c := ⟨v ++ w, m⟩) (List.suffix_append v w)
    generalize Cursor.reach ⟨v ++ w, m⟩ w = c at rest
    obtain ⟨rest', n⟩ := c
    exact congrArg (Cursor.mk · n) rest
  rw [← Cursor.reach_reach (c := ⟨v ++ w', m⟩) (List.suffix_append v w') new,
    ← Cursor.reach_reach (c := ⟨v ++ w, m⟩) (List.suffix_append v w) old, stop, start]
  generalize (Cursor.reach ⟨v ++ w, m⟩ w).mark = n
  have comment {y : Text} (all : ∀ c ∈ y, isBreak c = false) : ∀ c ∈ '#' :: y, isBreak c = false :=
    List.forall_mem_cons.mpr ⟨rfl, all⟩
  cases h.noted with
  | @replaced x y unbroken unbroken' =>
    exact (Cursor.reach_unbroken (comment unbroken') n).trans
      (Cursor.reach_unbroken (comment unbroken) n).symm
  | @added y unbroken =>
    have spaced : ∀ c ∈ ' ' :: '#' :: y, isBreak c = false :=
      List.forall_mem_cons.mpr ⟨rfl, comment unbroken⟩
    exact (Cursor.reach_unbroken spaced n).trans
      (Cursor.reach_unbroken (x := []) (by simp) n).symm

/-- In the line behind that of the place both are level again. -/
theorem level_nextLine (inside : v <:+ u) (m : Mark) {next : Text} (line : afterBreak? post = some next) :
    Cursor.Level (Cursor.reach ⟨v ++ w, m⟩ next) (Cursor.reach ⟨v ++ w', m⟩ next) ∧
      m.line < (Cursor.reach ⟨v ++ w, m⟩ next).mark.line := by
  obtain ⟨old, new⟩ := h.suffix_post
  have same := h.line_reach inside m
  have further := Cursor.line_le_reach ⟨v ++ w, m⟩ post
  have behind {t : Text} (suffix : post <:+ t) : Cursor.reach ⟨t, m⟩ next =
      Cursor.reach ⟨post, (Cursor.reach ⟨t, m⟩ post).mark⟩ next := by
    have rest := Cursor.rest_reach_of_suffix (c := ⟨t, m⟩) suffix
    rw [← Cursor.reach_reach (c := ⟨t, m⟩) suffix (Margin.suffix_afterBreak? line)]
    generalize Cursor.reach ⟨t, m⟩ post = c at rest
    obtain ⟨rest', n⟩ := c
    exact congrArg (fun r => Cursor.reach ⟨r, n⟩ next) rest
  rw [behind (old.trans (List.suffix_append v w)), behind (new.trans (List.suffix_append v w'))]
  obtain ⟨rest, line₁, column₁⟩ :=
    Cursor.reach_nextLine (Cursor.reach ⟨v ++ w, m⟩ post).mark line
  obtain ⟨rest', line₂, column₂⟩ :=
    Cursor.reach_nextLine (Cursor.reach ⟨v ++ w', m⟩ post).mark line
  refine ⟨⟨rest'.trans rest.symm, ?_, column₂.trans column₁.symm⟩, ?_⟩
  · rw [line₁, line₂, same]
  · rw [line₁]
    exact Nat.lt_succ_of_le further

end Scan.Fork

end YamlEdit
