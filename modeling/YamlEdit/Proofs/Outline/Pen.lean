import YamlEdit.Outline.Render
import YamlEdit.Proofs.TrailingBlanks

/-!
# What a pen keeps

A pen leaves no blank at the end of a line. Between two writes it may have blanks behind it, for
indentation that waits for its text; whatever ends a line comes behind something else.
-/

namespace YamlEdit.Outline

/-- No character that ends a line, and no byte order mark. -/
def Inline (s : Text) : Prop :=
  ∀ c ∈ s, Text.isBreak c = false ∧ c ≠ '\uFEFF'

/-- An inline text without blanks. -/
def Word (s : Text) : Prop :=
  ∀ c ∈ s, Text.isBreak c = false ∧ c ≠ '\uFEFF' ∧ Text.isSpaceOrTab c = false

/-- Whether a character may stand inside of a line. -/
def isInline (c : Char) : Bool :=
  !Text.isBreak c && c != '\uFEFF'

theorem Inline.of_all {s : Text} (h : s.all isInline = true) : Inline s := by
  intro c hc
  have inside := List.all_eq_true.mp h c hc
  simpa [isInline] using inside

theorem Word.of_all {s : Text}
    (h : s.all (fun c => isInline c && !Text.isSpaceOrTab c) = true) : Word s := by
  intro c hc
  have inside := List.all_eq_true.mp h c hc
  simpa [isInline, and_assoc] using inside

theorem Inline.append {s t : Text} (hs : Inline s) (ht : Inline t) : Inline (s ++ t) :=
  fun c hc => (List.mem_append.mp hc).elim (hs c) (ht c)

theorem Word.inline {s : Text} (h : Word s) : Inline s :=
  fun c hc => ⟨(h c hc).1, (h c hc).2.1⟩

theorem Word.append {s t : Text} (hs : Word s) (ht : Word t) : Word (s ++ t) :=
  fun c hc => (List.mem_append.mp hc).elim (hs c) (ht c)

theorem word_ofNat (n : Nat) : Word (Text.ofNat n) := by
  intro c hc
  have digit := Nat.isDigit_of_mem_toDigits (by decide) (by decide) hc
  simp only [Text.isBreak, Text.isSpaceOrTab, Bool.or_eq_false_iff, beq_eq_false_iff_ne]
  refine ⟨⟨?_, ?_⟩, ?_, ?_, ?_⟩
  all_goals
    rintro rfl
    exact absurd digit (by decide)

theorem inline_spaces (n : Nat) : Inline (List.replicate n ' ') := by
  intro c hc
  rw [List.eq_of_mem_replicate hc]
  decide

/-- No blank ends a line so far, and the first line is not empty. -/
structure Pen.Neat (p : Pen) : Prop where
  lines : hasPair Text.isBreak Text.isSpaceOrTab p.written = false
  /-- Lines end with line feeds and the breaks beyond ASCII alone. -/
  allowed : ∀ c ∈ p.written, c ≠ '\uFEFF' ∧ c ≠ '\r'
  first : ∀ c ∈ p.written.getLast?, Text.isBreak c = false
  /-- A pen that wrote nothing needs no new line to start at column zero. -/
  fresh : p.written = [] → p.inIndent = true ∧ p.column = 0 ∧ p.atGap = true

/-- A neat pen with no blank right behind it. -/
structure Pen.Sharp (p : Pen) : Prop extends Pen.Neat p where
  last : ∀ c ∈ p.written.head?, Text.isSpaceOrTab c = false

/-- A sharp pen that wrote something. -/
structure Pen.Done (p : Pen) : Prop extends Pen.Sharp p where
  some : p.written ≠ []

namespace Pen

theorem sharp_start : Sharp {} :=
  ⟨⟨rfl, by simp, by simp, fun _ => ⟨rfl, rfl, rfl⟩⟩, by simp⟩

variable {p : Pen}

/-! ## Texts on one line -/

theorem Neat.put (h : p.Neat) {s : Text} (inline : Inline s) (some : s ≠ []) : (p.put s).Neat := by
  refine ⟨?_, ?_, ?_, ?_⟩
  · have apart : ∀ c ∈ s.reverse, Text.isBreak c = false :=
      fun c hc => (inline c (List.mem_reverse.mp hc)).1
    rw [Pen.put, hasPair_append apart]
    exact h.lines
  · intro c hc
    rcases List.mem_append.mp hc with hc | hc
    · obtain ⟨inside, unmarked⟩ := inline c (List.mem_reverse.mp hc)
      refine ⟨unmarked, ?_⟩
      rintro rfl
      cases inside
    · exact h.allowed c hc
  · intro c hc
    cases hw : p.written with
    | nil =>
      simp only [Pen.put, hw, List.append_nil, List.getLast?_reverse] at hc
      exact (inline c (List.mem_of_mem_head? hc)).1
    | cons d r =>
      simp only [Pen.put, List.getLast?_append, hw, List.getLast?_cons, Option.some_or] at hc
      exact h.first c (by rw [hw, List.getLast?_cons]; exact hc)
  · intro none
    simp [Pen.put, some] at none

theorem done_put (h : p.Neat) {s : Text} {c : Char} (inline : Inline (s ++ [c]))
    (sharp : Text.isSpaceOrTab c = false) : (p.put (s ++ [c])).Done := by
  refine ⟨⟨h.put inline (by simp), ?_⟩, by simp [Pen.put]⟩
  intro d hd
  simp only [Pen.put, List.reverse_append, List.reverse_cons, List.reverse_nil, List.nil_append,
    List.cons_append, List.head?_cons, Option.mem_def, Option.some.injEq] at hd
  rwa [← hd]

/-- A word behind blanks ends them. -/
theorem done_put_word (h : p.Neat) {s : Text} (word : Word s) (some : s ≠ []) :
    (p.put s).Done := by
  have cut := List.dropLast_concat_getLast some
  have last := word _ (List.getLast_mem some)
  rw [← cut]
  exact done_put h (by rw [cut]; exact word.inline) last.2.2

/-- The flags of a pen say nothing about what it wrote. -/
theorem Done.of_written {q : Pen} (h : p.Done) (same : q.written = p.written) : q.Done := by
  refine ⟨⟨⟨?_, ?_, ?_, fun none => absurd (same ▸ none) h.some⟩, ?_⟩, ?_⟩
  · rw [same]; exact h.lines
  · rw [same]; exact h.allowed
  · rw [same]; exact h.first
  · rw [same]; exact h.last
  · rw [same]; exact h.some

theorem Neat.of_written {q : Pen} (h : p.Neat) (same : q.written = p.written)
    (some : q.written ≠ []) : q.Neat := by
  refine ⟨?_, ?_, ?_, fun none => absurd none some⟩
  · rw [same]; exact h.lines
  · rw [same]; exact h.allowed
  · rw [same]; exact h.first

theorem written_indicator (p : Pen) (s : Text) (needsGap isGap inIndent : Bool) :
    (p.indicator s needsGap isGap inIndent).written =
      (p.put (if p.atGap || !needsGap then s else ' ' :: s)).written :=
  rfl

/-- An indicator ends the blanks before it. -/
theorem done_indicator (h : p.Neat) {s : Text} (needsGap isGap inIndent : Bool) (word : Word s)
    (some : s ≠ []) : (p.indicator s needsGap isGap inIndent).Done := by
  have cut := List.dropLast_concat_getLast some
  have last := word _ (List.getLast_mem some)
  have put : (p.put (if p.atGap || !needsGap then s else ' ' :: s)).Done := by
    split
    · exact done_put_word h word some
    · have space : Inline [' '] := inline_spaces 1
      rw [← cut, ← List.cons_append]
      refine done_put h ?_ last.2.2
      rw [List.cons_append, cut]
      exact space.append word.inline
  exact put.of_written (written_indicator ..)

/-! ## New lines -/

theorem sharp_newLine (h : p.Sharp) {c : Char} (ends : isLineEnd c = true) (some : p.written ≠ []) :
    (p.newLine c).Done := by
  have plain : Text.isSpaceOrTab c = false ∧ c ≠ '\uFEFF' ∧ c ≠ '\r' := by
    simp only [isLineEnd, Bool.or_eq_true, beq_iff_eq] at ends
    rcases ends with ((rfl | rfl) | rfl) | rfl <;> decide
  refine ⟨⟨⟨?_, ?_, ?_, ?_⟩, ?_⟩, ?_⟩
  · cases hw : p.written with
    | nil => exact absurd hw some
    | cons d r =>
      have lines := h.lines
      have last := h.last d (by simp [hw])
      simp only [hw] at lines
      simp [Pen.newLine, hw, hasPair, lines, last]
  · intro d hd
    rcases List.mem_cons.mp hd with rfl | hd
    · exact plain.2
    · exact h.allowed d hd
  · intro d hd
    cases hw : p.written with
    | nil => exact absurd hw some
    | cons e r =>
      simp only [Pen.newLine, hw, List.getLast?_cons_cons] at hd
      exact h.first d (by rw [hw]; exact hd)
  · simp [Pen.newLine]
  · intro d hd
    simp only [Pen.newLine, List.head?_cons, Option.mem_def, Option.some.injEq] at hd
    rw [← hd]
    exact plain.1
  · simp [Pen.newLine]

/-- Before it goes to a column a pen may end its line. -/
theorem sharp_indentTo_line (h : p.Sharp) (column : Nat) :
    Sharp (if !p.inIndent || column < p.column || (p.column == column && !p.atGap) then p.newLine
      else p) := by
  split
  · next ends =>
    have some : p.written ≠ [] := by
      intro none
      obtain ⟨indent, zero, gap⟩ := h.fresh none
      simp [indent, zero, gap] at ends
    exact (sharp_newLine h rfl some).toSharp
  · exact h

theorem neat_indentTo (h : p.Sharp) (column : Nat) : (p.indentTo column).Neat := by
  have line := sharp_indentTo_line h column
  rw [indentTo]
  generalize (if !p.inIndent || column < p.column || (p.column == column && !p.atGap) then p.newLine
    else p) = q at line
  dsimp only
  split
  · next less =>
    have inside := line.put (s := List.replicate (column - q.column) ' ') (inline_spaces _) (by
      simp only [ne_eq, List.replicate_eq_nil_iff]
      omega)
    exact inside.of_written rfl (by
      simp only [Pen.put, ne_eq, List.append_eq_nil_iff, List.reverse_eq_nil_iff,
        List.replicate_eq_nil_iff]
      omega)
  · exact line.toNeat

theorem sharp_indentTo_zero (h : p.Sharp) : (p.indentTo 0).Sharp := by
  have line := sharp_indentTo_line h 0
  rw [indentTo]
  dsimp only
  rw [if_neg (Nat.not_lt_zero _)]
  exact line

theorem written_indentTo (column : Nat) (some : p.written ≠ []) :
    (p.indentTo column).written ≠ [] := by
  rw [indentTo]
  dsimp only
  split
  all_goals
    split <;> simp [Pen.put, Pen.newLine, some]

end Pen

end YamlEdit.Outline
