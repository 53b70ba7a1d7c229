import YamlEdit.Proofs.Breaks
import YamlEdit.Token.Chars

/-!
# Texts moved to the right

A text whose lines all start some columns further to the right, where an empty line stays empty. It
is told apart whether a text starts at the start of a line or inside of one: the latter is the rest
at which a reader stands that has gone over the spaces in front of its line.

Indenting a text of one line break moves it so, as long as a line of blanks is empty.
-/

namespace YamlEdit

namespace Scan

/-- The spaces in front of a line: none if the line is empty. -/
def lead (depth : Nat) (line : Text) : Text :=
  if atLineEnd line then [] else List.replicate depth ' '

/-- A text from inside of a line on, with all lines behind this one moved to the right. -/
def inset (depth : Nat) : Text → Text
  | [] => []
  | c :: r => c :: ((if isBreak c then lead depth r else []) ++ inset depth r)

/-- A text from the start of a line on, moved to the right. -/
def insetLine (depth : Nat) (s : Text) : Text :=
  lead depth s ++ inset depth s

variable {d : Nat} {c : Char} {r s t : Text}

@[simp] theorem inset_nil : inset d [] = [] := rfl

theorem inset_break (stops : isBreak c = true) : inset d (c :: r) = c :: insetLine d r := by
  rw [inset, if_pos stops]
  rfl

theorem inset_inside (inside : isBreak c = false) : inset d (c :: r) = c :: inset d r := by
  rw [inset, inside]
  rfl

theorem insetLine_of_end (ends : atLineEnd s = true) : insetLine d s = inset d s := by
  rw [insetLine, lead, if_pos ends]
  rfl

theorem insetLine_of_visible (visible : atLineEnd s = false) :
    insetLine d s = List.replicate d ' ' ++ inset d s := by
  rw [insetLine, lead, visible]
  rfl

@[simp] theorem insetLine_nil : insetLine d [] = [] := rfl

theorem insetLine_break (stops : isBreak c = true) :
    insetLine d (c :: r) = c :: insetLine d r := by
  have ends : atLineEnd (c :: r) = true := stops
  rw [insetLine_of_end ends, inset_break stops]

@[simp] theorem head?_inset (d : Nat) (s : Text) : (inset d s).head? = s.head? := by
  cases s <;> rfl

@[simp] theorem endOr_inset (p : Char → Bool) (d : Nat) (s : Text) :
    endOr p (inset d s) = endOr p s := by
  cases s <;> rfl

@[simp] theorem atLineEnd_inset (d : Nat) (s : Text) : atLineEnd (inset d s) = atLineEnd s :=
  endOr_inset isBreak d s

@[simp] theorem atGap_inset (d : Nat) (s : Text) : atGap (inset d s) = atGap s :=
  endOr_inset _ d s

@[simp] theorem atSpace_inset (d : Nat) (s : Text) : atSpace (inset d s) = atSpace s :=
  endOr_inset _ d s

/-- A line starts with a line feed only if it is empty. -/
theorem head?_insetLine (d : Nat) (s : Text) :
    (insetLine d s).head? = some '\n' ↔ s.head? = some '\n' := by
  cases ends : atLineEnd s with
  | true => rw [insetLine_of_end ends, head?_inset]
  | false =>
    rw [insetLine_of_visible ends]
    cases d with
    | zero => simp
    | succ d =>
      rw [List.replicate_succ, List.cons_append, List.head?_cons]
      constructor
      · intro same
        cases same
      · intro feed
        obtain ⟨r, rfl⟩ := List.head?_eq_some_iff.mp feed
        cases ends

theorem isReturnOfPair_insetLine (c : Char) (d : Nat) (r : Text) :
    isReturnOfPair c (insetLine d r) = isReturnOfPair c r := by
  have feed := head?_insetLine d r
  rw [isReturnOfPair, isReturnOfPair]
  congr 1
  rw [Bool.eq_iff_iff, beq_iff_eq, beq_iff_eq]
  exact feed

theorem isReturnOfPair_inset (c : Char) (d : Nat) (r : Text) :
    isReturnOfPair c (inset d r) = isReturnOfPair c r := by
  rw [isReturnOfPair, head?_inset, isReturnOfPair]

theorem inset_append (inside : ∀ c ∈ s, isBreak c = false) : inset d (s ++ t) = s ++ inset d t := by
  induction s with
  | nil => rfl
  | cons c r ih =>
    obtain ⟨head, tail⟩ := List.forall_mem_cons.mp inside
    rw [List.cons_append, inset_inside head, ih tail]
    rfl

theorem inset_of_unbroken (inside : ∀ c ∈ s, isBreak c = false) : inset d s = s := by
  have whole := inset_append (d := d) (t := []) inside
  rwa [List.append_nil, inset_nil, List.append_nil] at whole

/-- What is left behind some characters of a line. -/
theorem inset_drop {n : Nat} (inside : ∀ c ∈ s.take n, isBreak c = false) :
    (inset d s).drop n = inset d (s.drop n) := by
  rcases Nat.le_total n s.length with room | beyond
  · have cut := inset_append (d := d) (t := s.drop n) inside
    rw [List.take_append_drop] at cut
    rw [cut]
    exact List.drop_left' (List.length_take_of_le room)
  · rw [List.take_of_length_le beyond] at inside
    rw [inset_of_unbroken inside, List.drop_eq_nil_of_le beyond]
    rfl

theorem takeWhile_inset {p : Char → Bool} (stops : ∀ c, isBreak c = true → p c = false) (s : Text) :
    (inset d s).takeWhile p = s.takeWhile p := by
  induction s with
  | nil => rfl
  | cons c r ih =>
    cases hc : isBreak c with
    | true => simp [inset_break hc, stops c hc]
    | false => simp [inset_inside hc, List.takeWhile_cons, ih]

theorem dropWhile_inset {p : Char → Bool} (stops : ∀ c, isBreak c = true → p c = false) (s : Text) :
    (inset d s).dropWhile p = inset d (s.dropWhile p) := by
  induction s with
  | nil => rfl
  | cons c r ih =>
    cases hc : isBreak c with
    | true => simp [inset_break hc, stops c hc]
    | false =>
      rw [inset_inside hc, List.dropWhile_cons, List.dropWhile_cons]
      split
      · exact ih
      · rw [inset_inside hc]

/-- The end of a moved text is a moved end. -/
theorem inset_suffix (h : s <:+ t) : inset d s <:+ inset d t := by
  obtain ⟨u, rfl⟩ := h
  induction u with
  | nil => exact List.suffix_refl _
  | cons c u ih =>
    rw [List.cons_append, inset]
    exact (ih.trans (List.suffix_append _ _)).trans (List.suffix_cons _ _)

theorem inset_suffix_insetLine (d : Nat) (s : Text) : inset d s <:+ insetLine d s :=
  List.suffix_append _ _

theorem mem_inset (h : c ∈ inset d s) : c ∈ s ∨ c = ' ' := by
  induction s with
  | nil => cases h
  | cons x r ih =>
    rw [inset, List.mem_cons, List.mem_append] at h
    rcases h with rfl | h | h
    · exact .inl List.mem_cons_self
    · refine .inr ?_
      split at h
      · rw [lead] at h
        split at h
        · cases h
        · exact List.eq_of_mem_replicate h
      · cases h
    · exact (ih h).imp_left (List.mem_cons_of_mem _)

theorem mem_insetLine (h : c ∈ insetLine d s) : c ∈ s ∨ c = ' ' := by
  rcases List.mem_append.mp h with h | h
  · rw [lead] at h
    split at h
    · cases h
    · exact .inr (List.eq_of_mem_replicate h)
  · exact mem_inset h

theorem mem_inset_of_mem (h : c ∈ s) : c ∈ inset d s := by
  induction s with
  | nil => cases h
  | cons x r ih =>
    rw [inset]
    rcases List.mem_cons.mp h with rfl | h
    · exact List.mem_cons_self
    · exact List.mem_cons_of_mem _ (List.mem_append_right _ (ih h))

theorem mem_insetLine_of_mem (h : c ∈ s) : c ∈ insetLine d s :=
  List.mem_append_right _ (mem_inset_of_mem h)

end Scan

/-! ## Indenting -/

namespace Text

variable {b : LineBreak} {s : Text} {d : Nat}

/-- A line that looks blank has no characters at all. -/
def BlankLinesEmpty (s lineBreak : Text) : Prop :=
  ∀ line ∈ splitOn s lineBreak, isBlankText line = true → line = []

theorem splitOn_text_append (b : LineBreak) (s : Text) :
    splitOn (b.text ++ s) b.text = [] :: splitOn s b.text := by
  cases b <;> simp [LineBreak.text, splitOn, splitAfter]

theorem splitOn_cons {c : Char} (inside : Text.isBreak c = false) (b : LineBreak) (s : Text) :
    splitOn (c :: s) b.text = (splitOn s b.text).modifyHead (c :: ·) := by
  have other : (!b.text.isEmpty && b.text.isPrefixOf (c :: s)) = false := by
    have feed : ('\n' == c) = false := by
      rw [beq_eq_false_iff_ne]
      rintro rfl
      cases inside
    have ret : ('\r' == c) = false := by
      rw [beq_eq_false_iff_ne]
      rintro rfl
      cases inside
    cases b <;> simp only [LineBreak.text, List.isPrefixOf, feed, ret, Bool.false_and, Bool.and_false]
  obtain ⟨piece, pieces, cut⟩ := List.exists_cons_of_ne_nil (splitAfter_ne_nil b.text 0 s)
  rw [splitOn, splitAfter, if_neg (by rw [other]; exact Bool.false_ne_true), splitOn, cut]
  rfl

theorem intercalate_append (sep s p : Text) (ps : List Text) :
    sep.intercalate ((s ++ p) :: ps) = s ++ sep.intercalate (p :: ps) := by
  cases ps <;> simp [List.intercalate]

theorem inset_text_append (b : LineBreak) (s : Text) :
    Scan.inset d (b.text ++ s) = b.text ++ Scan.insetLine d s := by
  cases b with
  | lf => exact Scan.inset_break rfl
  | cr => exact Scan.inset_break rfl
  | crlf =>
    have first : Scan.inset d ('\r' :: '\n' :: s) = '\r' :: Scan.insetLine d ('\n' :: s) :=
      Scan.inset_break rfl
    have second : Scan.insetLine d ('\n' :: s) = '\n' :: Scan.insetLine d s :=
      Scan.insetLine_break rfl
    exact first.trans (congrArg ('\r' :: ·) second)

/-- A line with text is moved, and so is all of a text if it starts with one. -/
theorem intercalate_indentLine {p : Text} {ps : List Text} (blank : isBlankText p = true → p = [])
    (ends : p = [] ↔ Scan.atLineEnd s = true)
    (moved : b.text.intercalate (p :: ps) = Scan.inset d s) :
    b.text.intercalate (indentLine d p :: ps) = Scan.insetLine d s := by
  by_cases none : p = []
  · subst none
    rw [Scan.insetLine_of_end (ends.mp rfl), ← moved]
    rfl
  · have visible : Scan.atLineEnd s = false := by
      rw [← Bool.not_eq_true]
      exact fun h => none (ends.mpr h)
    rw [indentLine, if_neg fun h => none (blank h), intercalate_append, moved,
      Scan.insetLine_of_visible visible]

/-- What indenting does behind the first line. -/
theorem exists_splitOn (d : Nat) {u : Text} (free : '\r' ∉ u)
    (plain : ∀ c ∈ u, Scan.isBreak c = true → c = '\n')
    (blank : ∀ line ∈ (splitOn (spread b u) b.text).tail, isBlankText line = true → line = []) :
    ∃ p ps, splitOn (spread b u) b.text = p :: ps ∧
      (p = [] ↔ Scan.atLineEnd (spread b u) = true) ∧
      b.text.intercalate (p :: ps.map (indentLine d)) = Scan.inset d (spread b u) := by
  induction u with
  | nil => exact ⟨[], [], rfl, ⟨fun _ => rfl, fun _ => rfl⟩, rfl⟩
  | cons c r ih =>
    obtain ⟨ret, free⟩ := not_or.mp (mt List.mem_cons.mpr free)
    obtain ⟨here, plain⟩ := List.forall_mem_cons.mp plain
    by_cases feed : c = '\n'
    · have spreads : spread b (c :: r) = b.text ++ spread b r := by rw [spread_cons, if_pos feed]
      rw [spreads, splitOn_text_append] at blank ⊢
      obtain ⟨p, ps, cut, ends, moved⟩ := ih free plain fun line h =>
        blank line (List.mem_of_mem_tail h)
      rw [cut] at blank ⊢
      have line := intercalate_indentLine (blank p List.mem_cons_self) ends moved
      refine ⟨[], p :: ps, rfl, ⟨fun _ => ?_, fun _ => rfl⟩, ?_⟩
      · cases b <;> rfl
      · rw [inset_text_append, ← line]
        simp [List.intercalate]
    · have inside : Scan.isBreak c = false := by
        rw [← Bool.not_eq_true]
        exact fun stops => feed (here stops)
      have spreads : spread b (c :: r) = c :: spread b r := by rw [spread_cons, if_neg feed]; rfl
      rw [spreads, splitOn_cons (LineBreak.isBreak_of_ne feed (Ne.symm ret))] at blank ⊢
      obtain ⟨p, ps, cut, -, moved⟩ := ih free plain (by
        rw [List.tail_modifyHead] at blank
        exact blank)
      rw [cut]
      refine ⟨c :: p, ps, rfl, ?_, ?_⟩
      · have visible : Scan.atLineEnd (c :: spread b r) = false := inside
        rw [visible]
        simp
      · rw [Scan.inset_inside inside, ← moved]
        exact intercalate_append b.text [c] p _

/-- Indenting moves a text of one line break to the right, if its lines of blanks are empty. -/
theorem indent_eq (d : Nat) (uniform : b.Uniform s)
    (plain : ∀ c ∈ s, Scan.isBreak c = true → Text.isBreak c = true)
    (blank : BlankLinesEmpty s b.text) : s.indent d b.text = Scan.insetLine d s := by
  obtain ⟨u, free, rfl⟩ := uniform.exists_spread
  have feeds : ∀ c ∈ u, Scan.isBreak c = true → c = '\n' := by
    intro c hc stops
    by_contra feed
    have kept : c ∈ spread b u := List.mem_flatMap.mpr ⟨c, hc, by rw [if_neg feed]; exact List.mem_singleton_self c⟩
    have ends := plain c kept stops
    rw [LineBreak.isBreak_of_ne feed fun ret => free (ret ▸ hc)] at ends
    cases ends
  obtain ⟨p, ps, cut, ends, moved⟩ := exists_splitOn d free feeds fun line h =>
    blank line (List.mem_of_mem_tail h)
  have first : p ∈ splitOn (spread b u) b.text := cut ▸ List.mem_cons_self
  rw [indent, cut, List.map_cons]
  exact intercalate_indentLine (blank p first) ends moved

end Text

end YamlEdit
