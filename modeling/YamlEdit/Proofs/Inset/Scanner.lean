import YamlEdit.Proofs.Inset.Cursor

/-!
# Tokens of a moved text

Cutting a moved text into tokens goes step by step with cutting the text itself. The states differ
in the columns of the blocks, which are moved, and in marks; what is waiting is of the same kinds,
and a token that may start a key is on the same line at the same distance. So both runs fail at the
same step or go on, and the tokens are the same but for their marks.

A block scalar outside of all blocks is the exception: there is no column that moves, so its own
lines have to show how far it is indented.
-/

namespace YamlEdit

open Scan

variable {α β : Type} {R : α → β → Prop} {p : α → Bool} {q : β → Bool} {l : List α} {m : List β}

theorem rel_find?_of_forall₂ (related : List.Forall₂ R l m) (same : ∀ a b, R a b → p a = q b) :
    Option.Rel R (l.find? p) (m.find? q) := by
  induction related with
  | nil => exact .none
  | cons head tail ih =>
    rw [List.find?_cons, List.find?_cons, ← same _ _ head]
    split
    · exact .some head
    · exact ih

theorem any_eq_of_forall₂ (related : List.Forall₂ R l m) (same : ∀ a b, R a b → p a = q b) :
    m.any q = l.any p := by
  induction related with
  | nil => rfl
  | cons head tail ih => rw [List.any_cons, List.any_cons, ih, same _ _ head]

namespace Scan

/-- The column of a block in the moved text. Outside of all blocks there is none that moves. -/
def lift (d : Nat) (column : Int) : Int :=
  if column < 0 then column else column + d

variable {d : Nat}

theorem lift_lt_lift {i j : Int} : lift d i < lift d j ↔ i < j := by
  unfold lift
  split <;> split <;> omega

@[simp] theorem lift_natCast (n : Nat) : lift d n = (n + d : Nat) := by
  unfold lift
  split <;> omega

theorem lift_inj {i j : Int} : lift d i = lift d j ↔ i = j := by
  unfold lift
  split <;> split <;> omega

/-- The least column below a block and below the moved one. -/
theorem least_lift (i : Int) :
    1 ≤ (i + 1).toNat ∧ (lift d i + 1).toNat = (i + 1).toNat + d ∨
      i < 0 ∧ (i + 1).toNat = 0 ∧ (lift d i + 1).toNat = 0 := by
  unfold lift
  split <;> omega

/-- The candidates at a token of a text and of the moved text, from where the cursors are. -/
structure SameCandidate (d : Nat) (c e : Cursor) (k k' : Candidate) : Prop where
  level : k'.level = k.level
  number : k'.number = k.number
  required : k'.required = k.required
  line : k'.mark.line = k.mark.line
  column : k'.mark.column = k.mark.column + d
  seen : k.mark.line ≤ c.mark.line
  apart : k.mark.line = c.mark.line →
    e.mark.index + k.mark.index = c.mark.index + k'.mark.index

theorem SameCandidate.step {c e c' e' : Cursor} {k k' : Candidate} (h : SameCandidate d c e k k')
    (step : InStep c e c' e') : SameCandidate d c' e' k k' := by
  have seen := h.seen
  have line := step.line
  refine { h with seen := Nat.le_trans seen line, apart := ?_ }
  intro here
  have := h.apart (by omega)
  have := step.index (by omega)
  omega

/-- Candidates on earlier lines, wherever the cursors go on to. -/
theorem SameCandidate.leave {c e c' e' : Cursor} {k k' : Candidate} (h : SameCandidate d c e k k')
    (earlier : k.mark.line < c'.mark.line) : SameCandidate d c' e' k k' := by
  refine { h with seen := Nat.le_of_lt earlier, apart := ?_ }
  intro here
  omega

namespace Scanner

/-- States of cutting a text and the moved text, up to where the cursors are. -/
structure Alike (d : Nat) (s t : Scanner) : Prop where
  level : t.level = s.level
  indent : t.indent = lift d s.indent
  outer : t.outer = s.outer.map (lift d)
  keyAllowed : t.keyAllowed = s.keyAllowed
  candidates : List.Forall₂ (SameCandidate d s.cursor t.cursor) s.candidates t.candidates
  kinds : t.queue.map (·.kind) = s.queue.map (·.kind)
  taken : t.taken = s.taken
  ended : t.ended = s.ended

/-- States of cutting a text and the moved text, at places that correspond. -/
structure Abreast (d : Nat) (s t : Scanner) : Prop extends Alike d s t where
  beside : Beside d s.cursor t.cursor
  placed : Placed s.cursor

/-- States that correspond, the first of which has changed in its candidates only. -/
structure Kept (d : Nat) (s u v : Scanner) : Prop extends Abreast d u v where
  kept : u = { s with candidates := u.candidates }

variable {s t u v : Scanner}

theorem Kept.cursor (h : Kept d s u v) : u.cursor = s.cursor := by
  rw [h.kept]

theorem Kept.indent_eq (h : Kept d s u v) : u.indent = s.indent := by
  rw [h.kept]

theorem Kept.visible (h : Kept d s u v) (visible : atLineEnd s.cursor.rest = false) :
    atLineEnd u.cursor.rest = false := by
  rwa [h.cursor]

/-! ## Candidates -/

theorem isStale_eq (line : t.cursor.mark.line = s.cursor.mark.line) {k k' : Candidate}
    (same : SameCandidate d s.cursor t.cursor k k') : s.isStale k = t.isStale k' := by
  rw [isStale, isStale, same.line, line]
  by_cases here : k.mark.line = s.cursor.mark.line
  · have apart := same.apart here
    congr 1
    rw [decide_eq_decide]
    omega
  · have other : (k.mark.line != s.cursor.mark.line) = true := bne_iff_ne.mpr here
    rw [other, Bool.true_or, Bool.true_or]

namespace Alike

theorem rel_candidate? (h : Alike d s t) :
    Option.Rel (SameCandidate d s.cursor t.cursor) s.candidate? t.candidate? := by
  refine rel_find?_of_forall₂ h.candidates ?_
  intro k k' same
  rw [same.level, h.level]

theorem forget (h : Alike d s t) : Alike d s.forget t.forget := by
  refine { h with candidates := List.rel_filter ?_ h.candidates }
  intro k k' same
  dsimp only
  rw [same.level, h.level]

end Alike

theorem Abreast.agree_dropCandidate (h : Abreast d s t) :
    Agree (Kept d s) s.dropCandidate t.dropCandidate := by
  have same := h.rel_candidate?
  unfold dropCandidate
  generalize s.candidate? = k, t.candidate? = k' at same
  cases same with
  | none => exact ⟨h, rfl⟩
  | some same =>
    dsimp only
    rw [same.required]
    split
    · trivial
    · exact ⟨{ h with toAlike := h.toAlike.forget }, rfl⟩

/-- Both forget the same candidates, or both miss a colon. -/
theorem Abreast.agree_dropStale (h : Abreast d s t) :
    Agree (Kept d s) s.dropStale t.dropStale := by
  have line := h.beside.line
  have missing : Option.Rel (SameCandidate d s.cursor t.cursor)
      (s.candidates.find? fun k => s.isStale k && k.required)
      (t.candidates.find? fun k => t.isStale k && k.required) := by
    refine rel_find?_of_forall₂ h.candidates ?_
    intro k k' same
    rw [isStale_eq line same, same.required]
  unfold dropStale
  generalize s.candidates.find? _ = k, t.candidates.find? _ = k' at missing
  cases missing with
  | some => trivial
  | none =>
    refine ⟨{ h with candidates := List.rel_filter ?_ h.candidates }, rfl⟩
    intro k k' same
    dsimp only
    rw [isStale_eq line same]

theorem Abreast.agree_addCandidate (h : Abreast d s t) (visible : atLineEnd s.cursor.rest = false) :
    Agree (Kept d s) s.addCandidate t.addCandidate := by
  have column := h.beside.column visible
  have required : (t.level == 0 && t.indent == t.cursor.mark.column) =
      (s.level == 0 && s.indent == s.cursor.mark.column) := by
    rw [h.level, h.indent, column, ← lift_natCast]
    congr 1
    rw [Bool.eq_iff_iff, beq_iff_eq, beq_iff_eq]
    exact lift_inj
  unfold addCandidate
  rw [h.keyAllowed]
  split
  · refine h.agree_dropCandidate.bind ?_
    intro u v kept
    refine ⟨{ kept.toAbreast with candidates := ?_ }, ?_⟩
    · refine List.rel_append kept.candidates (.cons ⟨kept.level, ?_, required, kept.beside.line,
        kept.beside.column (kept.visible visible), Nat.le_refl _, fun _ => Nat.add_comm _ _⟩ .nil)
      have waiting := congrArg List.length kept.kinds
      rw [List.length_map, List.length_map] at waiting
      dsimp only
      rw [kept.taken, waiting]
    · rw [kept.kept]
  · exact ⟨h, rfl⟩

/-! ## The queue -/

namespace Abreast

theorem push (h : Abreast d s t) (kind : Token.Kind) (m₁ m₂ n₁ n₂ : Mark) :
    Abreast d (s.push kind m₁ m₂) (t.push kind n₁ n₂) := by
  refine { h with kinds := ?_ }
  simp [Scanner.push, h.kinds]

/-- A token, and the way to the rest behind it. -/
theorem go (h : Abreast d s t) {rest : Text} (suffix : rest <:+ s.cursor.rest) (kind : Token.Kind)
    (m₁ m₂ n₁ n₂ : Mark) :
    Abreast d { s.push kind m₁ m₂ with cursor := s.cursor.reach rest }
      { t.push kind n₁ n₂ with cursor := t.cursor.reach (inset d rest) } := by
  obtain ⟨beside, step⟩ := h.beside.reach suffix
  have pushed := h.push kind m₁ m₂ n₁ n₂
  refine { pushed with candidates := ?_, beside := beside, placed := h.placed.reach suffix }
  exact h.candidates.imp fun k k' same => same.step step

theorem takeTo (h : Abreast d s t) {rest : Text} (suffix : rest <:+ s.cursor.rest)
    (kind : Token.Kind) : Abreast d (s.takeTo kind rest) (t.takeTo kind (inset d rest)) :=
  h.go suffix kind _ _ _ _

/-- What follows a character that is no line break. -/
theorem drop_one (h : Abreast d s t) (visible : atLineEnd s.cursor.rest = false) :
    t.cursor.rest.drop 1 = inset d (s.cursor.rest.drop 1) := by
  rw [h.beside.rest]
  cases here : s.cursor.rest with
  | nil => rfl
  | cons c r =>
    rw [here] at visible
    rw [inset_inside visible]
    rfl

/-- A token of one character that is no line break. -/
theorem takeChar (h : Abreast d s t) (visible : atLineEnd s.cursor.rest = false)
    (kind : Token.Kind) : Abreast d (s.takeChars kind 1) (t.takeChars kind 1) := by
  unfold takeChars
  rw [h.drop_one visible]
  exact h.takeTo (List.drop_suffix _ _) kind

theorem insertBefore (h : Abreast d s t) {c e : Cursor} {k k' : Candidate}
    (same : SameCandidate d c e k k') (kind : Token.Kind) :
    Abreast d (s.insertBefore k kind) (t.insertBefore k' kind) := by
  refine { h with kinds := ?_ }
  simp [Scanner.insertBefore, List.map_insertIdx, h.kinds, same.number, h.taken]

theorem endBlocks (h : Abreast d s t) (column : Int) (outer : List Int) :
    Abreast d (s.endBlocks column outer) (t.endBlocks (lift d column) (outer.map (lift d))) := by
  induction outer generalizing s t with
  | nil => exact h
  | cons around outer ih =>
    rw [List.map_cons, Scanner.endBlocks, Scanner.endBlocks, h.indent]
    simp only [lift_lt_lift]
    split
    · refine ih { h.push .blockEnd _ _ _ _ with indent := ?_, outer := ?_ } <;> rfl
    · exact h

theorem unwind (h : Abreast d s t) (column : Int) :
    Abreast d (s.unwind column) (t.unwind (lift d column)) := by
  unfold Scanner.unwind
  rw [h.level, h.outer]
  split
  · exact h.endBlocks column s.outer
  · exact h

theorem opensBlock_eq (h : Abreast d s t) (column : Nat) :
    t.opensBlock (column + d) = s.opensBlock column := by
  rw [opensBlock, opensBlock, h.level, h.indent]
  congr 1
  rw [decide_eq_decide, ← lift_natCast]
  exact lift_lt_lift

theorem enter (h : Abreast d s t) (column : Nat) :
    Abreast d (s.enter column) (t.enter (column + d)) := by
  refine { h with indent := (lift_natCast column).symm, outer := ?_ }
  simp [Scanner.enter, h.indent, h.outer]

theorem startBlock (h : Abreast d s t) (visible : atLineEnd s.cursor.rest = false)
    (kind : Token.Kind) : Abreast d (s.startBlock kind) (t.startBlock kind) := by
  unfold Scanner.startBlock
  rw [h.beside.column visible, h.opensBlock_eq]
  split
  · exact (h.enter _).push kind _ _ _ _
  · exact h

end Abreast

/-! ## To the next token -/

theorem skipComment_insetLine (d : Nat) (s : Text) :
    skipComment (insetLine d s) = inset d (skipComment s) := by
  cases ends : atLineEnd s with
  | true => rw [insetLine_of_end ends, skipComment_inset]
  | false =>
    have spaces (r : Text) : skipSpaces (List.replicate d ' ' ++ r) = skipSpaces r := by
      refine List.dropWhile_append_of_pos ?_
      intro c hc
      rw [List.eq_of_mem_replicate hc]
      rfl
    rw [insetLine_of_visible ends, ← skipComment_inset]
    unfold skipComment
    rw [spaces]

/-- States on the way to the next token. In the moved text the spaces of the line may be still to
come, and then no candidate is on this line. -/
structure Nearing (d : Nat) (s t : Scanner) : Prop extends Alike d s t where
  placed : Placed s.cursor
  place : Beside d s.cursor t.cursor ∨
    Fresh d s.cursor t.cursor ∧ ∀ k ∈ s.candidates, k.mark.line < s.cursor.mark.line

theorem Abreast.nearing (h : Abreast d s t) : Nearing d s t :=
  { h with place := .inl h.beside }

namespace Nearing

theorem skipComment_eq (h : Nearing d s t) :
    skipComment t.cursor.rest = inset d (skipComment s.cursor.rest) := by
  rcases h.place with beside | ⟨fresh, -⟩
  · rw [beside.rest, skipComment_inset]
  · rw [fresh.rest, skipComment_insetLine]

/-- On in the line. -/
theorem go (h : Nearing d s t) {rest : Text} (suffix : rest <:+ s.cursor.rest) :
    Abreast d { s with cursor := s.cursor.reach rest }
      { t with cursor := t.cursor.reach (inset d rest) } := by
  rcases h.place with beside | ⟨fresh, earlier⟩
  · obtain ⟨there, step⟩ := beside.reach suffix
    refine { h with candidates := ?_, beside := there, placed := h.placed.reach suffix }
    exact h.candidates.imp fun k k' same => same.step step
  · obtain ⟨there, line⟩ := fresh.reach suffix
    refine { h with candidates := ?_, beside := there, placed := h.placed.reach suffix }
    refine ((List.forall₂_and_left _ _).mpr ⟨earlier, h.candidates⟩).imp ?_
    rintro k k' ⟨before, same⟩
    exact same.leave (Nat.lt_of_lt_of_le before line)

/-- On over a line break. -/
theorem goLine (h : Nearing d s t) {rest next : Text} (suffix : rest <:+ s.cursor.rest)
    (line : afterBreak? rest = some next) (allowed : Bool) :
    Nearing d { s with cursor := s.cursor.reach next, keyAllowed := allowed }
      { t with cursor := t.cursor.reach (insetLine d next), keyAllowed := allowed } := by
  have there := h.go suffix
  have behind := Margin.suffix_afterBreak? line
  have suffix' : inset d rest <:+ t.cursor.rest := by
    rcases h.place with beside | ⟨fresh, -⟩
    · rw [beside.rest]
      exact inset_suffix suffix
    · rw [fresh.rest]
      exact (inset_suffix suffix).trans (inset_suffix_insetLine d _)
  have behind' : insetLine d next <:+ inset d rest := by
    refine Margin.suffix_afterBreak? ?_
    rw [afterBreak?_inset, line]
    rfl
  rw [← Cursor.reach_reach suffix behind, ← Cursor.reach_reach suffix' behind']
  cases rest with
  | nil => cases line
  | cons c r =>
    have stops : isBreak c = true := by
      rw [← Bool.not_eq_false]
      intro inside
      rw [afterBreak?_inside inside] at line
      cases line
    rw [afterBreak?_break stops, Option.some_inj] at line
    have here : (s.cursor.reach (c :: r)).rest = c :: r := Cursor.rest_reach_of_suffix suffix
    obtain ⟨fresh, later⟩ := there.beside.reach_line here stops line
    have leaves : List.Forall₂ (fun k k' => k.mark.line < _ ∧ SameCandidate d _ _ k k')
        s.candidates t.candidates :=
      there.candidates.imp fun k k' same => ⟨Nat.lt_of_le_of_lt same.seen later, same⟩
    refine { there with
      keyAllowed := rfl
      candidates := leaves.imp fun k k' same => same.2.leave same.1
      placed := there.placed.reach (by rw [here]; exact behind)
      place := .inr ⟨fresh, ((List.forall₂_and_left _ _).mp leaves).1⟩ }

end Nearing

theorem abreast_toNextToken {m n : Nat} (h : Nearing d s t) (hm : s.cursor.rest.length < m)
    (hn : t.cursor.rest.length < n) :
    Abreast d (toNextToken m s) (toNextToken n t) ∧
      (atLineEnd (toNextToken m s).cursor.rest = true → (toNextToken m s).cursor.rest = []) := by
  induction m generalizing n s t with
  | zero => omega
  | succ m ih =>
    cases n with
    | zero => omega
    | succ n =>
      have suffix := Margin.suffix_skipComment s.cursor.rest
      have comment := h.skipComment_eq
      simp only [toNextToken, comment, afterBreak?_inset]
      cases line : afterBreak? (skipComment s.cursor.rest) with
      | none =>
        refine ⟨h.go suffix, ?_⟩
        dsimp only
        rw [Cursor.rest_reach_of_suffix suffix]
        intro ends
        cases here : skipComment s.cursor.rest with
        | nil => rfl
        | cons c r =>
          rw [here] at ends line
          rw [afterBreak?_break ends] at line
          cases line
      | some next =>
        have shorter := length_afterBreak?_lt line
        have shorter' : (insetLine d next).length < (inset d (skipComment s.cursor.rest)).length :=
          length_afterBreak?_lt (by rw [afterBreak?_inset, line]; rfl)
        have comment_le := length_skipComment_le s.cursor.rest
        have comment_le' := length_skipComment_le t.cursor.rest
        rw [comment] at comment_le'
        have allowed : (t.keyAllowed || t.level == 0) = (s.keyAllowed || s.level == 0) := by
          rw [h.keyAllowed, h.level]
        dsimp only [Option.map_some]
        rw [allowed]
        refine ih (h.goLine suffix line _) ?_ ?_
        · dsimp only
          rw [Cursor.rest_reach, List.length_drop]
          omega
        · dsimp only
          rw [Cursor.rest_reach, List.length_drop]
          omega

end Scanner

end Scan

end YamlEdit
