import YamlEdit.Proofs.Outline.Pen

/-!
# Scalars leave no blanks at the ends of lines

A form that could leave a blank before a line end is not allowed for the text: what `allowed` looks
at is just what the pen needs.
-/

namespace YamlEdit.Outline

/-! ## Characters that need no escape -/

theorem not_mark_of_shown {c : Char} (shown : needsEscape c = false) : c ≠ '\uFEFF' := by
  rintro rfl
  exact absurd shown (by decide)

theorem inline_of_shown {c : Char} (shown : needsEscape c = false) (inside : isLineEnd c = false) :
    Inline [c] := by
  intro d hd
  rw [List.mem_singleton.mp hd]
  refine ⟨?_, not_mark_of_shown shown⟩
  simp only [Text.isBreak, Bool.or_eq_false_iff, beq_eq_false_iff_ne]
  constructor
  · rintro rfl
    exact absurd inside (by decide)
  · rintro rfl
    exact absurd shown (by decide)

theorem isSpaceOrTab_of_shown {c : Char} (shown : needsEscape c = false) (other : c ≠ ' ') :
    Text.isSpaceOrTab c = false := by
  simp only [Text.isSpaceOrTab, Bool.or_eq_false_iff, beq_eq_false_iff_ne]
  refine ⟨other, ?_⟩
  rintro rfl
  exact absurd shown (by decide)

/-- A text without escapes in which no space stands right before a line end. -/
structure Even (s : Text) : Prop where
  shown : ∀ c ∈ s, needsEscape c = false
  lines : hasPair (· == ' ') isLineEnd s = false

theorem Even.tail {c : Char} {s : Text} (h : Even (c :: s)) : Even s := by
  refine ⟨fun d hd => h.shown d (List.mem_cons_of_mem c hd), ?_⟩
  have lines := h.lines
  cases s with
  | nil => rfl
  | cons d t =>
    simp only [hasPair, Bool.or_eq_false_iff] at lines
    exact lines.2

/-- What follows a space in an even text is on its line. -/
theorem Even.next {c : Char} {s : Text} (h : Even (c :: s)) (space : c = ' ') :
    ∀ d ∈ s.head?, isLineEnd d = false := by
  have lines := h.lines
  intro d hd
  cases s with
  | nil => cases hd
  | cons e t =>
    cases hd
    simp only [hasPair, space, beq_self_eq_true, Bool.true_and, Bool.or_eq_false_iff] at lines
    exact lines.1

theorem even_of_not_special {s : Text}
    (h : (s.any needsEscape || hasPair (· == ' ') isLineEnd s) = false) : Even s := by
  obtain ⟨escapes, lines⟩ := Bool.or_eq_false_iff.mp h
  refine ⟨fun c hc => ?_, lines⟩
  have := List.any_eq_false.mp escapes c hc
  simpa using this

theorem even_of_singleQuoted {s : Text} (h : (allowed s).singleQuoted = true) : Even s := by
  simp only [allowed, Bool.and_eq_true, Bool.not_eq_true'] at h
  exact even_of_not_special h.1

theorem even_of_literal {s : Text} (h : (allowed s).literal = true) :
    Even s ∧ s ≠ [] ∧ ∀ c ∈ s.getLast?, c ≠ ' ' := by
  simp only [allowed, Bool.and_eq_true, Bool.not_eq_true'] at h
  obtain ⟨⟨nonempty, special⟩, last⟩ := h
  refine ⟨even_of_not_special special, by simpa using nonempty, ?_⟩
  intro c hc same
  have hc : s.getLast? = some c := hc
  simp [hc, same] at last

/-- A plain scalar stays on its line, and its last character is no blank. -/
theorem inline_of_plain {s : Text} (h : (allowed s).flowPlain = true ∨ (allowed s).blockPlain = true) :
    Inline s ∧ ∀ c ∈ s.getLast?, Text.isSpaceOrTab c = false := by
  have plain : (s.head?.any (· == ' ') || s.getLast?.any (· == ' ')) = false ∧
      s.any isLineEnd = false ∧
      (s.any needsEscape || hasPair (· == ' ') isLineEnd s) = false := by
    rcases h with h | h
    · simp only [allowed, Bool.and_eq_true, Bool.not_eq_true'] at h
      exact ⟨h.1.2.1.1, h.1.2.1.2, h.1.2.2⟩
    · simp only [allowed, Bool.and_eq_true, Bool.not_eq_true'] at h
      exact ⟨h.1.1.1, h.1.1.2, h.1.2⟩
  obtain ⟨ends, line, special⟩ := plain
  have even := even_of_not_special special
  have inside : ∀ c ∈ s, isLineEnd c = false := by
    intro c hc
    simpa using List.any_eq_false.mp line c hc
  constructor
  · intro c hc
    exact inline_of_shown (even.shown c hc) (inside c hc) c List.mem_cons_self
  · intro c hc
    have hc : s.getLast? = some c := hc
    refine isSpaceOrTab_of_shown (even.shown c (List.mem_of_getLast? hc)) ?_
    rintro rfl
    simp [hc] at ends

/-! ## Escapes -/

theorem inline_hex (width n : Nat) : Inline ((Text.hex width n).map Char.toUpper) := by
  have digits : ∀ i : Fin 16, [(Nat.digitChar i).toUpper].all isInline = true := by decide
  have digit : ∀ i : Fin 16, Inline [(Nat.digitChar i).toUpper] := fun i => .of_all (digits i)
  induction width generalizing n with
  | zero => intro c hc; cases hc
  | succ width ih =>
    rw [Text.hex, List.map_append]
    exact (ih (n / 16)).append (digit ⟨n % 16, Nat.mod_lt _ (by decide)⟩)

theorem inline_escapeLetter {c letter : Char} (h : escapeLetter? c = some letter) :
    Inline ['\\', letter] := by
  rw [escapeLetter?] at h
  obtain ⟨before, after, cut, -⟩ := List.lookup_eq_some_iff.mp h
  have all : (before ++ (c, letter) :: after).all (fun e => ['\\', e.2].all isInline) = true := by
    rw [← cut]
    decide
  rw [List.all_append, List.all_cons, Bool.and_eq_true, Bool.and_eq_true] at all
  exact .of_all all.2.1

theorem inline_escaped (c : Char) : Inline (escaped c) := by
  have code : ∀ {d : Char} (width : Nat), Inline ['\\', d] →
      Inline ('\\' :: d :: (Text.hex width c.toNat).map Char.toUpper) :=
    fun width first => first.append (inline_hex width _)
  rw [escaped]
  split
  · next shown =>
    intro d hd
    rw [List.mem_singleton.mp hd]
    simp only [Text.isBreak, Bool.or_eq_false_iff, beq_eq_false_iff_ne]
    refine ⟨⟨?_, ?_⟩, ?_⟩
    all_goals
      rintro rfl
      exact absurd shown (by decide)
  · split
    · next letter found => exact inline_escapeLetter found
    · dsimp only
      split
      · exact code 2 (.of_all rfl)
      · split
        · exact code 4 (.of_all rfl)
        · exact code 8 (.of_all rfl)

namespace Pen

variable {p : Pen}

/-! ## The four forms -/

theorem done_plain (h : p.Neat) (isRoot : Bool) {s : Text} (inline : Inline s)
    (last : ∀ c ∈ s.getLast?, Text.isSpaceOrTab c = false) (some : s ≠ []) :
    (p.plain isRoot s).Done := by
  have cut := List.dropLast_concat_getLast some
  have sharp := last _ (List.getLast?_eq_some_getLast some)
  have written : (p.plain isRoot s).written = (p.put (if p.atGap then s else ' ' :: s)).written := by
    rw [plain]
    simp only [List.isEmpty_iff, some, if_false]
    split <;> simp [Pen.put]
  refine Done.of_written (p := p.put (if p.atGap then s else ' ' :: s)) ?_ written
  split
  · rw [← cut]
    exact done_put h (by rwa [cut]) sharp
  · rw [← cut, ← List.cons_append]
    refine done_put h ?_ sharp
    rw [List.cons_append, cut]
    exact (inline_spaces 1).append inline

theorem done_newLines (h : p.Done) {breaks : Text} (ends : ∀ c ∈ breaks, isLineEnd c = true) :
    (breaks.foldl (fun p c => p.newLine c) p).Done := by
  induction breaks generalizing p with
  | nil => exact h
  | cons c r ih =>
    exact ih (sharp_newLine h.toSharp (ends c List.mem_cons_self) h.some)
      fun d hd => ends d (List.mem_cons_of_mem c hd)

theorem neat_foldedBreaks (h : p.Done) (column : Nat) {breaks : Text}
    (ends : ∀ c ∈ breaks, isLineEnd c = true) : (p.foldedBreaks column breaks).Neat := by
  unfold foldedBreaks
  dsimp only
  split
  · exact neat_indentTo (done_newLines (sharp_newLine h.toSharp rfl h.some) ends).toSharp column
  · exact neat_indentTo (done_newLines h ends).toSharp column

/-- Line breaks that wait are written before anything else is. -/
theorem neat_waiting (h : p.Neat) (column : Nat) {breaks : Text}
    (ends : ∀ c ∈ breaks, isLineEnd c = true) (either : p.Done ∨ breaks = []) :
    (if breaks.isEmpty then p else p.foldedBreaks column breaks.reverse).Neat := by
  split
  · exact h
  · next nonempty =>
    have done : p.Done := either.resolve_right fun none => nonempty (by simp [none])
    exact neat_foldedBreaks done column fun c hc => ends c (List.mem_reverse.mp hc)

/-- The inside of a single-quoted scalar. Blanks are behind the pen only within a line, where no
line breaks wait. -/
theorem neat_singleQuotedFrom (column : Nat) {s : Text} (even : Even s) (breaks : Text)
    (ends : ∀ c ∈ breaks, isLineEnd c = true) (h : p.Neat)
    (blank : p.Done ∨ breaks = [] ∧ ∀ c ∈ s.head?, isLineEnd c = false) :
    (p.singleQuotedFrom column breaks s).Neat := by
  induction s generalizing p breaks with
  | nil => exact neat_waiting h column ends (blank.imp_right And.left)
  | cons c r ih =>
    rw [singleQuotedFrom]
    split
    · next line =>
      have done : p.Done := by
        refine blank.resolve_right ?_
        rintro ⟨_, inside⟩
        rw [inside c rfl] at line
        cases line
      refine ih even.tail (c :: breaks) ?_ h (.inl done)
      intro d hd
      rcases List.mem_cons.mp hd with rfl | rest
      · exact line
      · exact ends d rest
    · next inside =>
      have inside : isLineEnd c = false := by simpa using inside
      have neat := neat_waiting h column ends (blank.imp_right And.left)
      dsimp only
      generalize (if breaks.isEmpty then p else p.foldedBreaks column breaks.reverse) = q at neat ⊢
      have shown := even.shown c List.mem_cons_self
      have inline := inline_of_shown shown inside
      have wrote : (q.put (if c == '\'' then ['\'', '\''] else [c])).Neat ∧
          (c ≠ ' ' → (q.put (if c == '\'' then ['\'', '\''] else [c])).Done) := by
        split
        · have done := done_put_word neat (s := ['\'', '\'']) (.of_all rfl) (by simp)
          exact ⟨done.toNeat, fun _ => done⟩
        · exact ⟨neat.put inline (by simp), fun other =>
            done_put (s := []) neat inline (isSpaceOrTab_of_shown shown other)⟩
      refine ih even.tail [] (by simp) wrote.1 ?_
      by_cases space : c = ' '
      · exact .inr ⟨rfl, even.next space⟩
      · exact .inl (wrote.2 space)

theorem done_singleQuoted (h : p.Neat) (column : Nat) {s : Text} (even : Even s) :
    (p.singleQuoted column s).Done := by
  have quote : Word ['\''] := .of_all rfl
  have opened := done_indicator h true false false quote (by simp)
  exact done_indicator (neat_singleQuotedFrom column even [] (by simp) opened.toNeat (.inl opened))
    false false false quote (by simp)

theorem done_doubleQuoted (h : p.Neat) (s : Text) : (p.doubleQuoted s).Done := by
  have quote : Word ['"'] := .of_all rfl
  have opened := done_indicator h true false false quote (by simp)
  have inside : Inline (s.flatMap escaped) := by
    intro c hc
    obtain ⟨d, -, hd⟩ := List.mem_flatMap.mp hc
    exact inline_escaped d c hd
  refine done_indicator ?_ false false false quote (by simp)
  cases hs : s.flatMap escaped with
  | nil => exact opened.toNeat
  | cons c r =>
    rw [hs] at inside
    exact opened.toNeat.put inside (by simp)

/-- The lines of a literal scalar. Blanks are behind the pen only within a line. -/
theorem done_literalFrom (column : Nat) (atStart : Bool) {s : Text} (even : Even s) (h : p.Neat)
    (some : p.written ≠ []) (last : ∀ c ∈ s.getLast?, c ≠ ' ')
    (blank : p.Done ∨ atStart = false ∧ s ≠ [] ∧ ∀ c ∈ s.head?, isLineEnd c = false) :
    (p.literalFrom column atStart s).Done := by
  induction s generalizing p atStart with
  | nil =>
    have done : p.Done := by
      refine blank.resolve_right ?_
      rintro ⟨_, nonempty, _⟩
      exact nonempty rfl
    rw [literalFrom]
    split
    · exact done
    · exact sharp_newLine done.toSharp rfl done.some
  | cons c r ih =>
    have rest : ∀ d ∈ r.getLast?, d ≠ ' ' := by
      intro d hd
      have hd : r.getLast? = Option.some d := hd
      exact last d (by simp [List.getLast?_cons, hd])
    rw [literalFrom]
    split
    · next line =>
      have done : p.Done := by
        refine blank.resolve_right ?_
        rintro ⟨_, _, inside⟩
        rw [inside c rfl] at line
        cases line
      have next := sharp_newLine done.toSharp line done.some
      exact ih true even.tail next.toNeat next.some rest (.inl next)
    · next inside =>
      have inside : isLineEnd c = false := by simpa using inside
      have neat : (if atStart then p.indentTo column else p).Neat ∧
          (if atStart then p.indentTo column else p).written ≠ [] := by
        split
        · next starts =>
          have done : p.Done := by
            refine blank.resolve_right ?_
            rintro ⟨within, _⟩
            rw [starts] at within
            cases within
          exact ⟨neat_indentTo done.toSharp column, written_indentTo column some⟩
        · exact ⟨h, some⟩
      dsimp only
      generalize (if atStart then p.indentTo column else p) = q at neat ⊢
      have shown := even.shown c List.mem_cons_self
      have inline := inline_of_shown shown inside
      refine ih false even.tail (neat.1.put inline (by simp)) (by simp [Pen.put]) rest ?_
      by_cases space : c = ' '
      · refine .inr ⟨rfl, ?_, even.next space⟩
        rintro rfl
        exact last c rfl space
      · exact .inl (done_put (s := []) neat.1 inline (isSpaceOrTab_of_shown shown space))

theorem word_blockHints (step : Nat) (s : Text) : Word ('|' :: blockHints step s) := by
  have lead : Word (if s.head?.any fun c => c == ' ' || isLineEnd c then Text.ofNat step else []) := by
    split
    · exact word_ofNat step
    · exact .of_all rfl
  refine Word.append (s := ['|']) (.of_all rfl) (lead.append ?_)
  split
  · exact .of_all rfl
  · split <;> exact .of_all rfl
  · split
    · exact .of_all rfl
    · split <;> exact .of_all rfl

theorem done_literal (h : p.Neat) (step column : Nat) {s : Text} (even : Even s)
    (last : ∀ c ∈ s.getLast?, c ≠ ' ') : (p.literal step column s).Done := by
  have hints : Word ('|' :: blockHints step s) := word_blockHints step s
  have opened := done_indicator h true false false hints (by simp)
  have flagged : Done { p.indicator ('|' :: blockHints step s) true with
      openEnded := (blockHints step s).getLast? = Option.some '+' } := opened.of_written rfl
  have line := sharp_newLine flagged.toSharp (c := '\n') rfl flagged.some
  exact done_literalFrom column true even line.toNeat line.some last (.inl line)

end Pen

end YamlEdit.Outline
