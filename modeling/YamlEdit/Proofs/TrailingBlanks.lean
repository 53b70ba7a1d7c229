import Mathlib.Data.List.TakeWhile
import YamlEdit.Document

/-!
# Blanks at the ends of lines

What an assignment takes off its text last. It works line by line, and leaves a text as it is
exactly if no blank stands before a line break or at the end. Every line that holds more than blanks
stays, in its place among the others.
-/

namespace YamlEdit

namespace Outline

theorem hasPair_append {p q : Char → Bool} {a w : Text} (none : ∀ c ∈ a, p c = false) :
    hasPair p q (a ++ w) = hasPair p q w := by
  induction a with
  | nil => rfl
  | cons c a ih =>
    have here := none c List.mem_cons_self
    have rest := ih fun d hd => none d (List.mem_cons_of_mem c hd)
    rw [← rest, List.cons_append]
    cases a ++ w with
    | nil => rfl
    | cons d t => simp [hasPair, here]

theorem hasPair_iff {p q : Char → Bool} {s : Text} :
    hasPair p q s = true ↔ ∃ a b, [a, b] <:+: s ∧ p a = true ∧ q b = true := by
  induction s with
  | nil => simp [hasPair]
  | cons c r ih =>
    cases r with
    | nil =>
      simp only [hasPair, Bool.false_eq_true, false_iff]
      rintro ⟨a, b, inside, -⟩
      have := inside.length_le
      simp at this
    | cons d t =>
      simp only [hasPair, Bool.or_eq_true, Bool.and_eq_true, ih]
      constructor
      · rintro (⟨hp, hq⟩ | ⟨a, b, inside, hp, hq⟩)
        · exact ⟨c, d, ⟨[], t, rfl⟩, hp, hq⟩
        · exact ⟨a, b, inside.trans (List.suffix_cons c _).isInfix, hp, hq⟩
      · rintro ⟨a, b, inside, hp, hq⟩
        rcases List.infix_cons_iff.mp inside with first | later
        · obtain ⟨u, hu⟩ := first
          simp only [List.cons_append, List.nil_append, List.cons.injEq] at hu
          obtain ⟨rfl, rfl, -⟩ := hu
          exact .inl ⟨hp, hq⟩
        · exact .inr ⟨a, b, later, hp, hq⟩

theorem hasPair_reverse (p q : Char → Bool) (s : Text) :
    hasPair p q s.reverse = hasPair q p s := by
  rw [Bool.eq_iff_iff, hasPair_iff, hasPair_iff]
  constructor
  all_goals
    rintro ⟨a, b, inside, hp, hq⟩
    refine ⟨b, a, ?_, hq, hp⟩
    simpa using List.reverse_infix.mpr inside

end Outline

namespace Document

/-- Lines are stripped one by one. -/
theorem stripFrom_append {c : Char} (stops : Text.isBreak c = true) (blanks s t : Text) :
    stripFrom blanks (s ++ c :: t) = stripFrom blanks (s ++ [c]) ++ stripFrom [] t := by
  induction s generalizing blanks with
  | nil => simp [stripFrom, stops, Text.isSpaceOrTab_of_isBreak stops]
  | cons d s ih =>
    simp only [List.cons_append, stripFrom]
    split
    · exact ih _
    · split
      · rw [ih]; rfl
      · rw [ih]; simp

theorem mem_of_mem_stripFrom {blanks s : Text} {c : Char}
    (h : c ∈ stripFrom blanks s) : c ∈ blanks ∨ c ∈ s := by
  induction s generalizing blanks with
  | nil => cases h
  | cons d r ih =>
    simp only [stripFrom] at h
    split at h
    · rcases ih h with inside | inside
      · rcases List.mem_cons.mp inside with rfl | inside
        · exact .inr List.mem_cons_self
        · exact .inl inside
      · exact .inr (List.mem_cons_of_mem d inside)
    · have rest : c ∈ d :: stripFrom [] r → c ∈ d :: r := by
        intro inside
        rcases List.mem_cons.mp inside with rfl | inside
        · exact List.mem_cons_self
        · exact List.mem_cons_of_mem d ((ih inside).resolve_left (List.not_mem_nil))
      split at h
      · exact .inr (rest h)
      · rcases List.mem_append.mp h with inside | inside
        · exact .inl (List.mem_reverse.mp inside)
        · exact .inr (rest inside)

theorem getLast?_stripFrom {c : Char} (stops : Text.isBreak c = true) (blanks s : Text) :
    (stripFrom blanks (s ++ [c])).getLast? = some c := by
  induction s generalizing blanks with
  | nil => simp [stripFrom, stops, Text.isSpaceOrTab_of_isBreak stops]
  | cons d s ih =>
    simp only [List.cons_append, stripFrom]
    split
    · exact ih _
    · split
      · rw [List.getLast?_cons, ih]; rfl
      · rw [List.getLast?_append, List.getLast?_cons, ih]; rfl

/-- No blank stands before a line break or at the end. -/
structure Tidy (s : Text) : Prop where
  lines : Outline.hasPair Text.isSpaceOrTab Text.isBreak s = false
  last : ∀ c ∈ s.getLast?, Text.isSpaceOrTab c = false

theorem Tidy.of_append {s t : Text} (h : Tidy (s ++ t)) : Tidy t := by
  refine ⟨?_, fun c hc => h.last c ?_⟩
  · cases ht : Outline.hasPair Text.isSpaceOrTab Text.isBreak t with
    | false => rfl
    | true =>
      obtain ⟨a, b, inside, hp, hq⟩ := Outline.hasPair_iff.mp ht
      have whole := Outline.hasPair_iff.mpr
        ⟨a, b, inside.trans (List.suffix_append s t).isInfix, hp, hq⟩
      rw [h.lines] at whole
      cases whole
  · have hc : t.getLast? = some c := hc
    simp [hc]

theorem Tidy.stripFrom_eq (blanks : Text) {s : Text}
    (all : ∀ b ∈ blanks, Text.isSpaceOrTab b = true)
    (tidy : Tidy (blanks.reverse ++ s)) : stripFrom blanks s = blanks.reverse ++ s := by
  induction s generalizing blanks with
  | nil =>
    cases blanks with
    | nil => rfl
    | cons b r =>
      have last := tidy.last b (by simp)
      rw [all b List.mem_cons_self] at last
      cases last
  | cons c r ih =>
    simp only [stripFrom]
    split
    · next blank =>
      have step := ih (c :: blanks)
        (fun b hb => (List.mem_cons.mp hb).elim (fun same => same ▸ blank) (all b)) (by simpa)
      simpa using step
    · have rest : stripFrom [] r = r :=
        ih [] (by simp) (Tidy.of_append (s := blanks.reverse ++ [c]) (by simpa))
      split
      · next stops =>
        cases blanks with
        | nil => simp [rest]
        | cons b u =>
          have pair : Outline.hasPair Text.isSpaceOrTab Text.isBreak ((b :: u).reverse ++ c :: r) =
              true :=
            Outline.hasPair_iff.mpr
              ⟨b, c, ⟨u.reverse, r, by simp⟩, all b List.mem_cons_self, stops⟩
          rw [tidy.lines] at pair
          cases pair
      · rw [rest]

/-- A tidy text stays as it is. -/
theorem Tidy.withoutTrailingBlanks {s : Text} (h : Tidy s) : withoutTrailingBlanks s = s :=
  stripFrom_eq [] (by simp) h

end Document

/-! ## Lines of a text -/

namespace Text

/-- The lines of a text that hold more than blank characters. -/
def filledLines (s : Text) : List Text :=
  (s.splitOnP isBreak).filter fun line => !isBlankText line

/-- A break parts the lines before it from those behind it. -/
theorem filledLines_append_cons {c : Char} (stops : isBreak c = true) (s t : Text) :
    filledLines (s ++ c :: t) = filledLines s ++ filledLines t := by
  rw [filledLines, List.splitOnP_append_cons s t stops, List.filter_append]
  rfl

@[simp] theorem filledLines_nil : filledLines [] = [] := rfl

/-- Breaks alone are no lines. -/
theorem filledLines_of_all_break {s : Text} (h : ∀ c ∈ s, isBreak c = true) :
    filledLines s = [] := by
  induction s with
  | nil => rfl
  | cons c r ih =>
    have stops := h c List.mem_cons_self
    rw [show c :: r = [] ++ c :: r from rfl, filledLines_append_cons stops, filledLines_nil,
      ih fun d hd => h d (List.mem_cons_of_mem c hd)]
    rfl

theorem filledLines_append_breaks {t : Text} (h : ∀ c ∈ t, isBreak c = true) (s : Text) :
    filledLines (s ++ t) = filledLines s := by
  cases t with
  | nil => rw [List.append_nil]
  | cons c r =>
    rw [filledLines_append_cons (h c List.mem_cons_self),
      filledLines_of_all_break fun d hd => h d (List.mem_cons_of_mem c hd), List.append_nil]

theorem isBlankText_of_mem_splitOnP {s line : Text} (blank : isBlankText s = true)
    (h : line ∈ s.splitOnP isBreak) : isBlankText line = true := by
  induction s generalizing line with
  | nil => simp_all
  | cons c r ih =>
    simp only [isBlankText, List.all_cons, Bool.and_eq_true] at blank
    rw [List.splitOnP_cons_eq_if_modifyHead] at h
    split at h
    · rcases List.mem_cons.mp h with rfl | later
      · rfl
      · exact ih blank.2 later
    · cases pieces : r.splitOnP isBreak with
      | nil => simp [pieces] at h
      | cons first rest =>
        rw [pieces] at h
        simp only [List.modifyHead_cons] at h
        rcases List.mem_cons.mp h with rfl | later
        · have listed : first ∈ r.splitOnP isBreak := pieces ▸ List.mem_cons_self
          simpa [isBlankText, blank.1] using ih blank.2 listed
        · exact ih blank.2 (by simp [pieces, later])

theorem filledLines_of_isBlankText {s : Text} (blank : isBlankText s = true) :
    filledLines s = [] := by
  rw [filledLines, List.filter_eq_nil_iff]
  intro line inside
  simp [isBlankText_of_mem_splitOnP blank inside]

/-! ## Lines without the blanks at their ends -/

theorem dropEndWhile_of_all {p : Char → Bool} {s : Text} (h : ∀ c ∈ s, p c = true) :
    dropEndWhile s p = [] := by
  rw [dropEndWhile, List.dropWhile_eq_nil_iff.mpr (by simpa using h)]
  rfl

theorem dropEndWhile_append_cons {p : Char → Bool} {c : Char} (stays : p c = false) (s t : Text) :
    dropEndWhile (s ++ c :: t) p = s ++ c :: dropEndWhile t p := by
  have whole : (s ++ c :: t).reverse = t.reverse ++ (c :: s.reverse) := by simp
  rw [dropEndWhile, dropEndWhile, whole, List.dropWhile_append]
  split
  · next none =>
    simp [stays, List.isEmpty_iff.mp none]
  · simp

/-- Blanks at the end do not make a line blank. -/
theorem isBlankText_dropEndWhile (s : Text) :
    isBlankText (dropEndWhile s isSpaceOrTab) = isBlankText s := by
  have split := List.takeWhile_append_dropWhile (p := isSpaceOrTab) (l := s.reverse)
  have blanks : (s.reverse.takeWhile isSpaceOrTab).all isBlank = true := by
    rw [List.all_eq_true]
    intro c hc
    exact isBlank_of_isSpaceOrTab (List.mem_takeWhile_imp hc)
  have whole : isBlankText s = s.reverse.all isBlank := by simp [isBlankText]
  rw [whole, ← split, List.all_append, blanks, Bool.true_and, dropEndWhile]
  simp [isBlankText]

end Text

namespace Document

open Text

theorem splitOnP_append {p : Char → Bool} {s : Text} (none : ∀ c ∈ s, p c = false) (t : Text) :
    (s ++ t).splitOnP p = (t.splitOnP p).modifyHead (s ++ ·) := by
  induction s with
  | nil =>
    obtain ⟨first, rest, pieces⟩ := List.exists_cons_of_ne_nil (List.splitOnP_ne_nil p t)
    simp [pieces]
  | cons c s ih =>
    rw [List.cons_append, List.splitOnP_cons_eq_if_modifyHead, none c List.mem_cons_self,
      ih fun d hd => none d (List.mem_cons_of_mem c hd)]
    simp [Function.comp_def]

/-- Blanks are taken off line by line. -/
theorem splitOnP_stripFrom (s blanks : Text) (all : ∀ b ∈ blanks, isSpaceOrTab b = true) :
    (stripFrom blanks s).splitOnP isBreak =
      ((s.splitOnP isBreak).modifyHead (blanks.reverse ++ ·)).map
        (dropEndWhile · isSpaceOrTab) := by
  induction s generalizing blanks with
  | nil =>
    have none : dropEndWhile blanks.reverse isSpaceOrTab = [] :=
      dropEndWhile_of_all (by simpa using all)
    simp [stripFrom, none]
  | cons c r ih =>
    obtain ⟨first, rest, pieces⟩ := List.exists_cons_of_ne_nil (List.splitOnP_ne_nil isBreak r)
    have plain := ih [] (by simp)
    simp only [pieces, List.reverse_nil, List.nil_append, List.modifyHead_cons, List.map_cons]
      at plain
    simp only [stripFrom]
    split
    · next blank =>
      have inside := not_isBreak_of_isSpaceOrTab blank
      rw [ih (c :: blanks) (by simpa [blank] using all)]
      simp [List.splitOnP_cons_eq_if_modifyHead, inside, pieces]
    · next other =>
      have stays : isSpaceOrTab c = false := by simpa using other
      split
      · next stops =>
        have none : dropEndWhile blanks.reverse isSpaceOrTab = [] :=
          dropEndWhile_of_all (by simpa using all)
        simp [List.splitOnP_cons_eq_if_modifyHead, stops, plain, pieces, none]
      · next goes =>
        have inside : isBreak c = false := by simpa using goes
        have kept : ∀ b ∈ blanks.reverse ++ [c], isBreak b = false := by
          intro b hb
          rcases List.mem_append.mp hb with hb | hb
          · exact not_isBreak_of_isSpaceOrTab (all b (List.mem_reverse.mp hb))
          · exact List.mem_singleton.mp hb ▸ inside
        have whole : blanks.reverse ++ c :: stripFrom [] r =
            (blanks.reverse ++ [c]) ++ stripFrom [] r := by simp
        rw [whole, splitOnP_append kept, plain, List.splitOnP_cons_eq_if_modifyHead, inside, pieces]
        simp [dropEndWhile_append_cons stays]

/-- The lines that hold something stay in order, without the blanks at their ends. -/
theorem filledLines_withoutTrailingBlanks (s : Text) :
    filledLines (withoutTrailingBlanks s) =
      (filledLines s).map (dropEndWhile · isSpaceOrTab) := by
  obtain ⟨first, rest, pieces⟩ := List.exists_cons_of_ne_nil (List.splitOnP_ne_nil isBreak s)
  rw [filledLines, withoutTrailingBlanks, splitOnP_stripFrom s [] (by simp), filledLines, pieces,
    List.filter_map]
  simp [Function.comp_def, isBlankText_dropEndWhile]

end Document

end YamlEdit
