import YamlEdit.Proofs.Fragment

/-!
# Uniform line breaks

A text is uniform in a line break if whatever ends a line of it belongs to an occurrence of that
break: no line ends otherwise, and no occurrence is cut in half. These are the texts that come from
one with line feeds alone, by putting the break in the place of each, so everything that works on
lines of text keeps them uniform.
-/

namespace YamlEdit

/-- Every character of a text that ends a line belongs to an occurrence of a line break. -/
def LineBreak.Uniform (b : LineBreak) (s : Text) : Prop :=
  ∀ before c after, s = before ++ c :: after → Text.isBreak c = true →
    ∃ p q, b.text = p ++ c :: q ∧ p <:+ before ∧ q <+: after

namespace LineBreak

variable {b : LineBreak} {s t : Text}

theorem uniform_of_unbroken (h : ∀ c ∈ s, Text.isBreak c = false) : b.Uniform s := by
  rintro before c after rfl breaks
  rw [h c (by simp)] at breaks
  cases breaks

theorem uniform_text (b : LineBreak) : b.Uniform b.text :=
  fun before _ after whole _ => ⟨before, after, whole, List.suffix_refl _, List.prefix_refl _⟩

theorem Uniform.append (hs : b.Uniform s) (ht : b.Uniform t) : b.Uniform (s ++ t) := by
  intro before c after whole breaks
  rcases List.append_eq_append_iff.mp whole with ⟨u, rfl, behind⟩ | ⟨u, first, rest⟩
  · obtain ⟨p, q, spells, left, right⟩ := ht u c after behind breaks
    exact ⟨p, q, spells, left.trans (List.suffix_append s u), right⟩
  · cases u with
    | nil =>
      obtain ⟨p, q, spells, left, right⟩ := ht [] c after (by simpa using rest.symm) breaks
      exact ⟨p, q, spells, left.trans (List.nil_suffix), right⟩
    | cons d u =>
      obtain ⟨rfl, rfl⟩ := List.cons.inj rest
      obtain ⟨p, q, spells, left, right⟩ := hs before c u first breaks
      exact ⟨p, q, spells, left, right.trans (List.prefix_append u t)⟩

/-- What is left of a uniform text behind a character that ends no line. -/
theorem Uniform.tail {c : Char} (h : b.Uniform (c :: s)) (inside : Text.isBreak c = false) :
    b.Uniform s := by
  rintro before d after rfl breaks
  obtain ⟨p, q, spells, left, right⟩ := h (c :: before) d after rfl breaks
  refine ⟨p, q, spells, ?_, right⟩
  rcases List.suffix_cons_iff.mp left with rfl | left
  · rw [isBreak_of_mem_text (b := b) (by simp [spells])] at inside
    cases inside
  · exact left

/-- No line break starts inside of one. -/
theorem eq_nil_of_suffix_text {p q : Text} {c : Char} (spells : b.text = p ++ c :: q)
    (ends : p <:+ b.text) : p = [] := by
  have size := congrArg List.length spells
  rw [List.length_append, List.length_cons] at size
  cases p with
  | nil => rfl
  | cons d r =>
    cases b with
    | lf => simp [text] at size; omega
    | cr => simp [text] at size; omega
    | crlf =>
      obtain ⟨rfl, rest⟩ := List.cons.inj spells
      cases r with
      | nil => exact absurd ends (by decide)
      | cons e r => simp at rest

/-- What is left of a uniform text behind a line break. -/
theorem Uniform.behind_text (h : b.Uniform (b.text ++ s)) : b.Uniform s := by
  rintro before c after rfl breaks
  obtain ⟨p, q, spells, left, right⟩ := h (b.text ++ before) c after (by simp) breaks
  refine ⟨p, q, spells, ?_, right⟩
  have size : p.length ≤ 1 := by
    have whole := congrArg List.length spells
    cases b <;> simp [text] at whole <;> omega
  cases before with
  | nil =>
    rw [List.append_nil] at left
    exact (eq_nil_of_suffix_text spells left).symm ▸ List.nil_suffix
  | cons d r =>
    refine List.suffix_of_suffix_length_le left (List.suffix_append _ _) ?_
    rw [List.length_cons]
    omega

end LineBreak

theorem spread_cons (b : LineBreak) (c : Char) (s : Text) :
    spread b (c :: s) = (if c = '\n' then b.text else [c]) ++ spread b s :=
  rfl

theorem spread_append (b : LineBreak) (s t : Text) : spread b (s ++ t) = spread b s ++ spread b t :=
  List.flatMap_append ..

theorem spread_of_not_mem (b : LineBreak) {s : Text} (h : '\n' ∉ s) : spread b s = s := by
  induction s with
  | nil => rfl
  | cons c r ih =>
    rw [List.mem_cons, not_or] at h
    rw [spread_cons, if_neg (Ne.symm h.1), ih h.2]
    rfl

namespace LineBreak

variable {b : LineBreak} {s : Text}

theorem isBreak_of_ne {c : Char} (feed : c ≠ '\n') (ret : c ≠ '\r') : Text.isBreak c = false := by
  simp [Text.isBreak, feed, ret]

theorem uniform_spread (h : '\r' ∉ s) : b.Uniform (spread b s) := by
  induction s with
  | nil => exact uniform_of_unbroken fun _ hc => absurd hc List.not_mem_nil
  | cons c r ih =>
    rw [List.mem_cons, not_or] at h
    rw [spread_cons]
    refine Uniform.append ?_ (ih h.2)
    split
    · exact uniform_text b
    · next other =>
      refine uniform_of_unbroken ?_
      intro d hd
      rw [List.mem_singleton.mp hd]
      exact isBreak_of_ne other (Ne.symm h.1)

theorem uniform_lf_of_not_mem (h : '\r' ∉ s) : lf.Uniform s :=
  spread_lf s ▸ uniform_spread h

/-- Every uniform text is one of line feeds with another line break. -/
theorem Uniform.exists_spread (h : b.Uniform s) : ∃ u, '\r' ∉ u ∧ s = spread b u := by
  induction size : s.length using Nat.strongRecOn generalizing s with
  | ind n ih =>
    cases s with
    | nil => exact ⟨[], List.not_mem_nil, rfl⟩
    | cons c r =>
      cases breaks : Text.isBreak c with
      | false =>
        obtain ⟨u, free, rfl⟩ := ih r.length (by simp [← size]) (h.tail breaks) rfl
        have inside : c ≠ '\r' ∧ c ≠ '\n' := by constructor <;> rintro rfl <;> cases breaks
        refine ⟨c :: u, ?_, ?_⟩
        · rw [List.mem_cons, not_or]
          exact ⟨Ne.symm inside.1, free⟩
        · rw [spread_cons, if_neg inside.2]
          rfl
      | true =>
        obtain ⟨p, q, spells, left, rest, rfl⟩ := h [] c r rfl breaks
        rw [List.suffix_nil.mp left, List.nil_append] at spells
        rw [← List.cons_append, ← spells] at h ⊢
        have shorter : rest.length < n := by
          rw [← size, List.length_cons, List.length_append]
          omega
        obtain ⟨u, free, rfl⟩ := ih rest.length shorter h.behind_text rfl
        refine ⟨'\n' :: u, ?_, rfl⟩
        rw [List.mem_cons, not_or]
        exact ⟨by decide, free⟩

theorem Uniform.return_not_mem (h : lf.Uniform s) : '\r' ∉ s := by
  obtain ⟨u, free, rfl⟩ := h.exists_spread
  rwa [spread_lf]

end LineBreak

/-! ## Blanks at the ends of lines -/

namespace Document

/-- Blanks are taken off before a line break as they are before a line feed. -/
theorem stripFrom_spread (b : LineBreak) {blanks s : Text}
    (all : ∀ c ∈ blanks, Text.isSpaceOrTab c = true) (free : '\r' ∉ s) :
    stripFrom blanks (spread b s) = spread b (stripFrom blanks s) := by
  induction s generalizing blanks with
  | nil => rfl
  | cons c r ih =>
    rw [List.mem_cons, not_or] at free
    have rest := ih (fun _ h => absurd h List.not_mem_nil) free.2
    by_cases line : c = '\n'
    · subst line
      have cut : stripFrom blanks ('\n' :: r) = '\n' :: stripFrom [] r := rfl
      rw [cut, spread_cons, spread_cons, ← rest]
      cases b <;> rfl
    · have inside := LineBreak.isBreak_of_ne line (Ne.symm free.1)
      rw [spread_cons, if_neg line, List.singleton_append]
      simp only [stripFrom, inside, Bool.false_eq_true, if_false]
      split
      · next blank =>
        exact ih (fun d hd => (List.mem_cons.mp hd).elim (fun same => same ▸ blank) (all d)) free.2
      · have solid : '\n' ∉ blanks.reverse := by
          intro hc
          cases all _ (List.mem_reverse.mp hc)
        rw [rest, spread_append, spread_of_not_mem b solid, spread_cons, if_neg line]
        rfl

theorem uniform_withoutTrailingBlanks {b : LineBreak} {s : Text} (h : b.Uniform s) :
    b.Uniform (withoutTrailingBlanks s) := by
  obtain ⟨u, free, rfl⟩ := h.exists_spread
  rw [withoutTrailingBlanks, stripFrom_spread b (fun _ h => absurd h List.not_mem_nil) free]
  exact LineBreak.uniform_spread fun hc => free ((mem_of_mem_stripFrom hc).resolve_left List.not_mem_nil)

end Document

/-! ## New text -/

theorem Value.withoutEnd_isPrefix (s : Text) : withoutEnd s <+: s := by
  unfold withoutEnd
  dsimp only
  split
  · split
    · exact (List.dropLast_prefix _).trans (List.take_prefix ..)
    · exact List.take_prefix ..
  · split
    · exact List.dropLast_prefix s
    · exact List.prefix_refl s

/-- The text for a value is uniform in the line break that it is to have. -/
theorem Value.uniform_dump {v : Value} {b : LineBreak} {indent : Nat} {flow : Bool} {f : Text}
    (h : v.dump (.of b indent) flow = .ok f) : b.Uniform f := by
  obtain ⟨s, written, rfl⟩ := dump_spreads h
  exact LineBreak.uniform_spread fun hc =>
    return_not_mem_document written ((withoutEnd_isPrefix s).subset hc)

end YamlEdit
