import YamlEdit.Proofs.Inset.Block
import YamlEdit.Proofs.Token.Start

/-!
# Places in a moved text

A place inside of a line corresponds to one of the moved text in the same line that is further to
the right, where what is left is moved. In front of a line that has text the moved text has another
such place, before the spaces. Going from places that correspond to the same rest leads to places
that correspond, and distances within a line stay the same.
-/

namespace YamlEdit

open Scan

/-- Places in a text and in the moved text, behind the spaces in front of the line. At the end of a
line columns count for nothing. -/
structure Beside (d : Nat) (c e : Cursor) : Prop where
  rest : e.rest = inset d c.rest
  line : e.mark.line = c.mark.line
  column : atLineEnd c.rest = false → e.mark.column = c.mark.column + d

/-- The start of a line in a text and in the moved text, there before the spaces. -/
structure Fresh (d : Nat) (c e : Cursor) : Prop where
  rest : e.rest = insetLine d c.rest
  line : e.mark.line = c.mark.line
  column : c.mark.column = 0
  column' : e.mark.column = 0

/-- Two cursors go on, in step as long as they stay in their line. -/
structure InStep (c e c' e' : Cursor) : Prop where
  line : c.mark.line ≤ c'.mark.line
  index : c'.mark.line = c.mark.line →
    e'.mark.index + c.mark.index = c'.mark.index + e.mark.index

namespace InStep

variable {c e c' e' c'' e'' : Cursor}

theorem refl (c e : Cursor) : InStep c e c e :=
  ⟨Nat.le_refl _, fun _ => Nat.add_comm ..⟩

theorem trans (first : InStep c e c' e') (second : InStep c' e' c'' e'') : InStep c e c'' e'' := by
  have := first.line
  have := second.line
  refine ⟨by omega, ?_⟩
  intro same
  have := first.index (by omega)
  have := second.index (by omega)
  omega

end InStep

namespace Mark

theorem past_pair (m : Mark) {c : Char} {r : Text} (pair : isReturnOfPair c r = true) :
    m.past c r = ⟨m.index + 1, m.line, m.column + 1⟩ := by
  rw [isReturnOfPair, Bool.and_eq_true, beq_iff_eq, beq_iff_eq] at pair
  obtain ⟨rfl, feed⟩ := pair
  simp [past, endsLine, feed]

theorem past_break (m : Mark) {c : Char} {r : Text} (stops : Scan.isBreak c = true)
    (alone : isReturnOfPair c r = false) : m.past c r = ⟨m.index + 1, m.line + 1, 0⟩ := by
  have ends : (endsLine c || (c == '\r' && r.head? != some '\n')) = true := by
    rw [isReturnOfPair] at alone
    simp only [Scan.isBreak, Bool.or_eq_true, beq_iff_eq] at stops
    rcases stops with (((rfl | rfl) | rfl) | rfl) | rfl
    · have other : (r.head? == some '\n') = false := by simpa using alone
      simp [endsLine, bne, other]
    all_goals rfl
  rw [past, if_pos ends]

theorem past_inside (m : Mark) {c : Char} (inside : Scan.isBreak c = false) (r : Text) :
    m.past c r = ⟨m.index + 1, m.line, if c = '\uFEFF' then m.column else m.column + 1⟩ := by
  have goes : (endsLine c || (c == '\r' && r.head? != some '\n')) = false := by
    simp only [Scan.isBreak, Bool.or_eq_false_iff] at inside
    simp [endsLine, inside]
  rw [past, goes]
  simp only [Bool.false_eq_true, if_false, beq_iff_eq]
  split <;> rfl

end Mark

namespace Cursor

variable {c : Cursor}

theorem reach_self (c : Cursor) : c.reach c.rest = c := by
  rw [reach, Nat.sub_self]
  rfl

theorem reach_cons (ch : Char) {r rest : Text} (m : Mark) (suffix : rest <:+ r) :
    reach ⟨ch :: r, m⟩ rest = reach ⟨r, m.past ch r⟩ rest := by
  rw [← TokenFeed.reach_tail]
  exact (reach_reach (List.suffix_cons ch r) suffix).symm

/-- Going on by lengths alone. -/
theorem reach_reach_of_le {s r : Text} (first : s.length ≤ c.rest.length)
    (second : r.length ≤ s.length) : (c.reach s).reach r = c.reach r := by
  have there : (c.reach s).rest.length = s.length := by
    rw [rest_reach, List.length_drop]
    omega
  rw [reach, there, reach, ← advance_add, reach]
  congr 1
  omega

theorem reach_spaces (n : Nat) (s : Text) (m : Mark) :
    reach ⟨List.replicate n ' ' ++ s, m⟩ s = ⟨s, m.index + n, m.line, m.column + n⟩ := by
  induction n generalizing m with
  | zero => exact reach_self ⟨s, m⟩
  | succ n ih =>
    rw [List.replicate_succ, List.cons_append, reach_cons ' ' m (List.suffix_append _ s), ih,
      Mark.past_inside m rfl]
    simp only [if_neg (by decide : ¬ ' ' = '\uFEFF'), Nat.add_right_comm _ 1 n, Nat.add_assoc]

end Cursor

variable {d : Nat} {c e : Cursor}

/-- Behind the spaces in front of a line. -/
theorem Fresh.settle (h : Fresh d c e) : Beside d c (e.reach (inset d c.rest)) := by
  obtain ⟨rest, line, column, column'⟩ := h
  obtain ⟨behind, m⟩ := e
  dsimp only at rest line column'
  subst rest
  cases ends : atLineEnd c.rest with
  | true =>
    rw [insetLine_of_end ends]
    refine ⟨?_, ?_, ?_⟩
    · rw [Cursor.reach_self ⟨inset d c.rest, m⟩]
    · rw [Cursor.reach_self ⟨inset d c.rest, m⟩]
      exact line
    · rw [ends]
      intro visible
      cases visible
  | false =>
    rw [insetLine_of_visible ends, Cursor.reach_spaces]
    refine ⟨rfl, line, fun _ => ?_⟩
    dsimp only
    omega

/-- One character further, in the moved text behind the spaces of the next line. -/
theorem Beside.next {ch : Char} {r : Text} {m : Mark} (h : Beside d ⟨ch :: r, m⟩ e) :
    ∃ e', Beside d ⟨r, m.past ch r⟩ e' ∧ InStep ⟨ch :: r, m⟩ e ⟨r, m.past ch r⟩ e' ∧
      ∀ rest, rest <:+ r → e.reach (inset d rest) = e'.reach (inset d rest) := by
  obtain ⟨rest, line, column⟩ := h
  obtain ⟨behind, n⟩ := e
  dsimp only at rest line column
  subst rest
  cases stops : isBreak ch with
  | false =>
    have column := column stops
    rw [inset_inside stops]
    refine ⟨⟨inset d r, n.past ch (inset d r)⟩, ⟨rfl, ?_, fun _ => ?_⟩, ⟨?_, fun _ => ?_⟩, ?_⟩
    · rw [Mark.past_inside _ stops, Mark.past_inside _ stops]
      exact line
    · rw [Mark.past_inside _ stops, Mark.past_inside _ stops, column]
      dsimp only
      split <;> omega
    · rw [Mark.past_inside _ stops]
    · rw [Mark.past_inside _ stops, Mark.past_inside _ stops]
      dsimp only
      omega
    · exact fun rest suffix => Cursor.reach_cons ch n (inset_suffix suffix)
  | true =>
    rw [inset_break stops]
    cases pair : isReturnOfPair ch r with
    | true =>
      have pair' : isReturnOfPair ch (inset d r) = true := by rwa [isReturnOfPair_inset]
      have ends := atLineEnd_of_pair pair
      rw [insetLine_of_end ends]
      refine ⟨⟨inset d r, n.past ch (inset d r)⟩, ⟨rfl, ?_, ?_⟩, ⟨?_, fun _ => ?_⟩, ?_⟩
      · rw [Mark.past_pair _ pair, Mark.past_pair _ pair']
        exact line
      · dsimp only
        rw [ends]
        intro visible
        cases visible
      · rw [Mark.past_pair _ pair]
      · rw [Mark.past_pair _ pair, Mark.past_pair _ pair']
        dsimp only
        omega
      · exact fun rest suffix => Cursor.reach_cons ch n (inset_suffix suffix)
    | false =>
      have alone : isReturnOfPair ch (insetLine d r) = false := by rwa [isReturnOfPair_insetLine]
      have fresh : Fresh d ⟨r, m.past ch r⟩ ⟨insetLine d r, n.past ch (insetLine d r)⟩ := by
        rw [Mark.past_break _ stops pair, Mark.past_break _ stops alone]
        exact ⟨rfl, congrArg (· + 1) line, rfl, rfl⟩
      refine ⟨_, fresh.settle, ⟨?_, ?_⟩, ?_⟩
      · rw [Mark.past_break _ stops pair]
        exact Nat.le_succ _
      · rw [Mark.past_break _ stops pair]
        intro same
        exact absurd same (Nat.succ_ne_self _)
      · intro rest suffix
        have inner := inset_suffix (d := d) suffix
        have line := inset_suffix_insetLine d r
        rw [Cursor.reach_cons ch n (inner.trans line)]
        exact (Cursor.reach_reach line inner).symm

/-- Going to a rest of a text leads to the corresponding place of the moved text. -/
theorem Beside.reach (h : Beside d c e) {rest : Text} (suffix : rest <:+ c.rest) :
    Beside d (c.reach rest) (e.reach (inset d rest)) ∧
      InStep c e (c.reach rest) (e.reach (inset d rest)) := by
  obtain ⟨u, whole⟩ := suffix
  obtain ⟨behind, m⟩ := c
  dsimp only at whole
  subst whole
  induction u generalizing m e with
  | nil =>
    have here : e.reach (inset d rest) = e := by
      have same : inset d rest = e.rest := h.rest.symm
      rw [same, Cursor.reach_self]
    rw [here, List.nil_append, Cursor.reach_self ⟨rest, m⟩]
    exact ⟨h, InStep.refl _ _⟩
  | cons ch u ih =>
    obtain ⟨e', beside, step, same⟩ := Beside.next h
    have suffix := List.suffix_append u rest
    obtain ⟨there, more⟩ := ih _ beside
    rw [List.cons_append, Cursor.reach_cons ch m suffix, same rest suffix]
    exact ⟨there, step.trans more⟩

/-- Going from the start of a line. -/
theorem Fresh.reach (h : Fresh d c e) {rest : Text} (suffix : rest <:+ c.rest) :
    Beside d (c.reach rest) (e.reach (inset d rest)) ∧
      c.mark.line ≤ (c.reach rest).mark.line := by
  obtain ⟨there, step⟩ := h.settle.reach suffix
  have same : (e.reach (inset d c.rest)).reach (inset d rest) = e.reach (inset d rest) := by
    refine Cursor.reach_reach ?_ (inset_suffix suffix)
    rw [h.rest]
    exact inset_suffix_insetLine d c.rest
  rw [same] at there
  exact ⟨there, step.line⟩

/-- Behind a line break that is one character a new line starts. -/
theorem Fresh.of_past {ch : Char} {r r' : Text} {m n : Mark} (stops : isBreak ch = true)
    (alone : isReturnOfPair ch r = false) (alone' : isReturnOfPair ch r' = false)
    (moved : r' = insetLine d r) (line : n.line = m.line) :
    Fresh d ⟨r, m.past ch r⟩ ⟨r', n.past ch r'⟩ := by
  rw [Mark.past_break _ stops alone, Mark.past_break _ stops alone']
  exact ⟨moved, congrArg (· + 1) line, rfl, rfl⟩

/-- Going behind a line break leads to the start of a line, before the spaces of the moved one. -/
theorem Beside.reach_line (h : Beside d c e) {ch : Char} {r : Text} (here : c.rest = ch :: r)
    (stops : isBreak ch = true) {line : Text}
    (cut : (ch :: r).drop (if isReturnOfPair ch r then 2 else 1) = line) :
    Fresh d (c.reach line) (e.reach (insetLine d line)) ∧
      c.mark.line < (c.reach line).mark.line := by
  obtain ⟨behind, m⟩ := c
  obtain ⟨behind', n⟩ := e
  obtain ⟨rest, same, -⟩ := h
  dsimp only at rest same here
  subst here rest
  cases pair : isReturnOfPair ch r with
  | false =>
    have cut : r = line := by rwa [pair] at cut
    subst cut
    have alone : isReturnOfPair ch (insetLine d r) = false := by rwa [isReturnOfPair_insetLine]
    have ahead : Cursor.reach ⟨ch :: r, m⟩ r = ⟨r, m.past ch r⟩ := TokenFeed.reach_tail ch r m
    rw [inset_break stops, ahead, TokenFeed.reach_tail ch (insetLine d r) n]
    refine ⟨.of_past stops pair alone rfl same, ?_⟩
    rw [Mark.past_break _ stops pair]
    exact Nat.lt_succ_self _
  | true =>
    obtain ⟨rfl, feed⟩ : ch = '\r' ∧ r.head? = some '\n' := by
      rwa [isReturnOfPair, Bool.and_eq_true, beq_iff_eq, beq_iff_eq] at pair
    obtain ⟨t, rfl⟩ := List.head?_eq_some_iff.mp feed
    have cut : t = line := by rwa [pair] at cut
    subst cut
    rw [inset_break rfl, insetLine_break rfl, Cursor.reach_cons _ m (List.suffix_cons _ _),
      Cursor.reach_cons _ n (List.suffix_cons _ _), TokenFeed.reach_tail, TokenFeed.reach_tail]
    have pair' : isReturnOfPair '\r' ('\n' :: insetLine d t) = true := rfl
    refine ⟨.of_past rfl rfl rfl rfl ?_, ?_⟩
    · rw [Mark.past_pair _ pair, Mark.past_pair _ pair']
      exact same
    · rw [Mark.past_break _ rfl rfl, Mark.past_pair _ pair]
      exact Nat.lt_succ_self _

/-! ## Places in plain lines -/

/-- A place of a text whose lines do not start like directives or like marks between documents. -/
structure Placed (c : Cursor) : Prop where
  markless : Markless c.rest
  bare : '\uFEFF' ∉ c.rest
  margin : c.mark.column = 0 → startsMark c.rest = false

theorem Placed.next {ch : Char} {r : Text} {m : Mark} (h : Placed ⟨ch :: r, m⟩) :
    Placed ⟨r, m.past ch r⟩ := by
  obtain ⟨markless, bare, -⟩ := h
  obtain ⟨other, bare⟩ := not_or.mp (mt List.mem_cons.mpr bare)
  refine ⟨markless.tail, bare, ?_⟩
  cases stops : isBreak ch with
  | false =>
    rw [Mark.past_inside _ stops, if_neg (Ne.symm other)]
    intro zero
    exact absurd zero (Nat.succ_ne_zero _)
  | true =>
    intro _
    exact markless ch r (List.suffix_refl _) stops

theorem Placed.reach (h : Placed c) {rest : Text} (suffix : rest <:+ c.rest) :
    Placed (c.reach rest) := by
  obtain ⟨u, whole⟩ := suffix
  obtain ⟨behind, m⟩ := c
  dsimp only at whole
  subst whole
  induction u generalizing m with
  | nil =>
    rw [List.nil_append, Cursor.reach_self ⟨rest, m⟩]
    exact h
  | cons ch u ih =>
    rw [List.cons_append, Cursor.reach_cons ch m (List.suffix_append u rest)]
    exact ih _ h.next

end YamlEdit
