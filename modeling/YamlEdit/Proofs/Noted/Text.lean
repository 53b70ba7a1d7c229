import YamlEdit.Proofs.Inset.Block

/-!
# Lines with another comment

A text whose line goes on in one of two ways behind a place, up to the same end: with one comment or
with another, or without a comment or with one. A reader that answers before the place has looked
ahead of it for one of few things: a gap, the start of a comment, the second half of a line break. So
it answers the same in both texts.
-/

namespace YamlEdit.Scan

variable {ε ε' α β γ δ : Type}

/-- An answer of the first is related to one of the second. -/
def Carries (R : α → β → Prop) (x : Except ε α) (y : Except ε' β) : Prop :=
  ∀ a, x = .ok a → ∃ b, y = .ok b ∧ R a b

namespace Carries

variable {R : α → β → Prop} {Q : γ → δ → Prop}

theorem ok {a : α} {b : β} (h : R a b) :
    Carries R (.ok a : Except ε α) (.ok b : Except ε' β) := by
  rintro _ ⟨⟩
  exact ⟨b, rfl, h⟩

theorem error {e : ε} {y : Except ε' β} : Carries R (.error e) y := by
  rintro _ ⟨⟩

theorem bind {x : Except ε α} {y : Except ε' β} {f : α → Except ε γ} {g : β → Except ε' δ}
    (h : Carries R x y) (next : ∀ a b, R a b → Carries Q (f a) (g b)) :
    Carries Q (x >>= f) (y >>= g) := by
  intro c hc
  obtain ⟨a, hx, hf⟩ := bind_eq_ok.mp hc
  obtain ⟨b, hy, same⟩ := h a hx
  obtain ⟨d, hg, rest⟩ := next a b same c hf
  exact ⟨d, bind_eq_ok.mpr ⟨b, hy, hg⟩, rest⟩

theorem ite {c : Prop} [Decidable c] {x u : Except ε α} {y v : Except ε' β}
    (left : c → Carries R x y) (right : ¬ c → Carries R u v) :
    Carries R (if c then x else u) (if c then y else v) := by
  split
  · next hc => exact left hc
  · next hc => exact right hc

/-- A refusal under a condition that holds in the second only if it does in the first. -/
theorem guard {c c' : Prop} [Decidable c] [Decidable c'] {e : ε} {e' : ε'}
    {f : PUnit → Except ε α} {g : PUnit → Except ε' β} (same : ¬ c → ¬ c')
    (next : ¬ c → Carries R (f ⟨⟩) (g ⟨⟩)) :
    Carries R (if c then throw e >>= f else f ⟨⟩) (if c' then throw e' >>= g else g ⟨⟩) := by
  intro a ha
  obtain ⟨free, ha⟩ := guard_eq_ok.mp ha
  rw [if_neg (same free)]
  exact next free a ha

theorem mono {P : α → β → Prop} {x : Except ε α} {y : Except ε' β} (h : Carries R x y)
    (weaker : ∀ a b, R a b → P a b) : Carries P x y := by
  intro a ha
  obtain ⟨b, hb, same⟩ := h a ha
  exact ⟨b, hb, weaker a b same⟩

theorem map {x : Except ε α} {y : Except ε' β} {f : α → γ} {g : β → δ} (h : Carries R x y)
    (next : ∀ a b, R a b → Q (f a) (g b)) : Carries Q (x.map f) (y.map g) := by
  intro c hc
  cases x with
  | error e => cases hc
  | ok a =>
    cases hc
    obtain ⟨b, rfl, same⟩ := h a rfl
    exact ⟨g b, rfl, next a b same⟩

end Carries

/-! ## Two ways to end a line -/

/-- Two ways in which a line goes on to its end, `post` being what follows: with a comment and with
another, or without one and with one. -/
inductive Noted (post : Text) : Text → Text → Prop
  | replaced {x y : Text} (old : ∀ c ∈ x, isBreak c = false) (new : ∀ c ∈ y, isBreak c = false) :
      Noted post ('#' :: (x ++ post)) ('#' :: (y ++ post))
  | added {y : Text} (new : ∀ c ∈ y, isBreak c = false) : Noted post post (' ' :: '#' :: (y ++ post))

/-- A text `u` that goes on in one of two ways, which does not tear a line break. -/
structure Fork (u post w w' : Text) : Prop where
  noted : Noted post w w'
  ends : atLineEnd post = true
  whole : u.getLast? = some '\r' → w.head? ≠ some '\n'

variable {u v post w w' : Text}

/-- The characters that are line breaks. -/
def breaks : Text :=
  ['\r', '\n', '\x85', '\u2028', '\u2029']

theorem false_of_isBreak {p : Char → Bool} (none : breaks.any p = false) {c : Char}
    (stops : isBreak c = true) : p c = false := by
  have here : c ∈ breaks := by
    simp only [isBreak, Bool.or_eq_true, beq_iff_eq] at stops
    rcases stops with (((rfl | rfl) | rfl) | rfl) | rfl <;> decide
  simpa using List.any_eq_false.mp none c here

theorem isBreak_of_atLineEnd {s : Text} (ends : atLineEnd s = true) :
    ∀ c ∈ s.head?, isBreak c = true := by
  cases s with
  | nil => nofun
  | cons c r =>
    rintro _ ⟨⟩
    exact ends

theorem atLineEnd_of_head {s : Text} (h : ∀ c ∈ s.head?, isBreak c = true) : atLineEnd s = true := by
  cases s with
  | nil => rfl
  | cons c r => exact h c rfl

/-- In front of a text no character of a class comes next. -/
def Still (p : Char → Bool) (s : Text) : Prop :=
  ∀ c ∈ s.head?, p c = false

theorem takeWhile_append_still {p : Char → Bool} (still : Still p w) (s : Text) :
    (s ++ w).takeWhile p = s.takeWhile p := by
  induction s with
  | nil =>
    cases w with
    | nil => rfl
    | cons c r => simp [still c rfl]
  | cons c r ih => simp only [List.cons_append, List.takeWhile_cons, ih]

theorem dropWhile_append_still {p : Char → Bool} (still : Still p w) (s : Text) :
    (s ++ w).dropWhile p = s.dropWhile p ++ w := by
  induction s with
  | nil =>
    cases w with
    | nil => rfl
    | cons c r => simp [still c rfl]
  | cons c r ih =>
    simp only [List.cons_append, List.dropWhile_cons]
    split
    · exact ih
    · rfl

namespace Fork

variable (h : Fork u post w w')
include h

theorem old_head : ∀ c ∈ w.head?, c = '#' ∨ isBreak c = true := by
  intro c hc
  cases h.noted with
  | replaced old new =>
    cases hc
    exact .inl rfl
  | added new => exact .inr (isBreak_of_atLineEnd h.ends c hc)

theorem new_head : ∀ c ∈ w'.head?, c = '#' ∨ c = ' ' := by
  intro c hc
  cases h.noted with
  | replaced old new =>
    cases hc
    exact .inl rfl
  | added new =>
    cases hc
    exact .inr rfl

/-- A class without number signs and line breaks. -/
theorem still_old {p : Char → Bool} (none : ('#' :: breaks).any p = false) : Still p w := by
  obtain ⟨sign, others⟩ := Bool.or_eq_false_iff.mp none
  intro c hc
  rcases h.old_head c hc with rfl | stops
  · exact sign
  · exact false_of_isBreak others stops

/-- A class without number signs, spaces and line breaks. -/
theorem still {p : Char → Bool} (none : (' ' :: '#' :: breaks).any p = false) :
    Still p w ∧ Still p w' := by
  obtain ⟨space, others⟩ := Bool.or_eq_false_iff.mp none
  obtain ⟨sign, -⟩ := Bool.or_eq_false_iff.mp others
  refine ⟨h.still_old others, ?_⟩
  intro c hc
  rcases h.new_head c hc with rfl | rfl
  · exact sign
  · exact space

/-- A class of ends that has all spaces and line breaks but no number sign. -/
theorem endOr_eq {p : Char → Bool} (sign : p '#' = false) (space : p ' ' = true)
    (breaks : ∀ c, isBreak c = true → p c = true) (s : Text) :
    endOr p (s ++ w') = endOr p (s ++ w) := by
  cases s with
  | cons c r => rfl
  | nil =>
    rw [List.nil_append, List.nil_append]
    cases h.noted with
    | replaced old new => exact (sign.trans sign.symm)
    | added new =>
      refine Eq.trans (b := true) space ?_
      have ends := isBreak_of_atLineEnd h.ends
      cases post with
      | nil => rfl
      | cons c r => exact (breaks c (ends c rfl)).symm

theorem atGap_eq (s : Text) : atGap (s ++ w') = atGap (s ++ w) :=
  h.endOr_eq rfl rfl (fun c stops => by simp [stops]) s

theorem atSpace_eq (s : Text) : atSpace (s ++ w') = atSpace (s ++ w) :=
  h.endOr_eq rfl rfl (fun c stops => by simp [stops]) s

theorem mono (suffix : v <:+ u) : Fork v post w w' := by
  refine ⟨h.noted, h.ends, fun last => h.whole ?_⟩
  exact Margin.getLast?_of_suffix suffix last

/-- No line break is torn. -/
theorem pair_eq {c : Char} {s : Text} (suffix : c :: s <:+ u) :
    isReturnOfPair c (s ++ w') = isReturnOfPair c (s ++ w) := by
  cases s with
  | cons d r => rfl
  | nil =>
    have new : w'.head? ≠ some '\n' := by
      intro feed
      rcases h.new_head _ feed with wrong | wrong <;> cases wrong
    have old : c = '\r' → w.head? ≠ some '\n' := by
      rintro rfl
      exact h.whole (Margin.getLast?_of_suffix suffix rfl)
    rw [List.nil_append, List.nil_append, isReturnOfPair, isReturnOfPair, beq_eq_false_iff_ne.mpr new]
    by_cases ret : c = '\r'
    · rw [beq_eq_false_iff_ne.mpr (old ret)]
    · rw [beq_eq_false_iff_ne.mpr ret, Bool.false_and, Bool.false_and]

end Fork

/-- A mark between documents is three characters of one kind. -/
theorem atSeparator_of_short {s t : Text} (short : s.length < 3)
    (other : ∀ c ∈ t.head?, c ≠ '-' ∧ c ≠ '.') : atSeparator (s ++ t) = false := by
  rw [← Bool.not_eq_true]
  intro mark
  rw [atSeparator, Bool.and_eq_true, Bool.or_eq_true, beq_iff_eq, beq_iff_eq] at mark
  have next (c : Char) (same : (s ++ t).take 3 = List.replicate 3 c) : t.head? = some c := by
    have here : (s ++ t)[s.length]? = (List.replicate 3 c)[s.length]? := by
      rw [← same, List.getElem?_take_of_lt short]
    rwa [List.getElem?_append_right (Nat.le_refl _), Nat.sub_self, ← List.head?_eq_getElem?,
      List.getElem?_replicate, if_pos short] at here
  rcases mark.1 with dashes | dots
  · exact (other _ (next '-' dashes)).1 rfl
  · exact (other _ (next '.' dots)).2 rfl

/-- No mark between documents stands over the place. -/
theorem Fork.atSeparator_eq (h : Fork u post w w') (s : Text) :
    atSeparator (s ++ w') = atSeparator (s ++ w) := by
  have apart := h.still (p := fun c => c == '-' || c == '.') rfl
  have other (t : Text) (still : Still (fun c => c == '-' || c == '.') t) :
      ∀ c ∈ t.head?, c ≠ '-' ∧ c ≠ '.' := fun c hc => by simpa using still c hc
  rcases Nat.lt_or_ge s.length 3 with short | long
  · rw [atSeparator_of_short short (other _ apart.1), atSeparator_of_short short (other _ apart.2)]
  · rw [atSeparator, atSeparator, List.take_append_of_le_length long, List.take_append_of_le_length long,
      List.drop_append_of_le_length long, List.drop_append_of_le_length long, h.atSpace_eq]

/-! ## To the end of the line -/

theorem skipLine_append {x : Text} (inside : ∀ c ∈ x, isBreak c = false)
    (ends : atLineEnd post = true) : skipLine (x ++ post) = post := by
  rw [skipLine, List.dropWhile_append_of_pos fun c hc => by rw [inside c hc]; rfl]
  cases post with
  | nil => rfl
  | cons c r =>
    have stops : isBreak c = true := ends
    simp [stops]

@[simp] theorem skipComment_space (s : Text) : skipComment (' ' :: s) = skipComment s := by
  simp [skipComment, skipSpaces]

@[simp] theorem skipComment_sign (s : Text) : skipComment ('#' :: s) = skipLine s := by
  simp [skipComment, skipSpaces, skipLine, isBreak]

theorem skipComment_other {c : Char} (space : c ≠ ' ') (sign : c ≠ '#') (s : Text) :
    skipComment (c :: s) = c :: s := by
  simp [skipComment, skipSpaces, space, sign]

theorem skipComment_of_ends (ends : atLineEnd post = true) : skipComment post = post := by
  cases post with
  | nil => rfl
  | cons c r =>
    have stops : isBreak c = true := ends
    refine skipComment_other ?_ ?_ r <;> rintro rfl <;> cases stops

namespace Fork

variable (h : Fork u post w w')
include h

theorem skipLine_eq {s : Text} (inside : ∀ c ∈ s, isBreak c = false) :
    skipLine (s ++ w) = post ∧ skipLine (s ++ w') = post := by
  have further (x : Text) (hx : ∀ c ∈ x, isBreak c = false) : skipLine (s ++ (x ++ post)) = post := by
    rw [← List.append_assoc]
    refine skipLine_append ?_ h.ends
    exact List.forall_mem_append.mpr ⟨inside, hx⟩
  cases h.noted with
  | @replaced x y old new =>
    exact ⟨further ('#' :: x) (List.forall_mem_cons.mpr ⟨rfl, old⟩),
      further ('#' :: y) (List.forall_mem_cons.mpr ⟨rfl, new⟩)⟩
  | @added y new =>
    exact ⟨further [] (by simp),
      further (' ' :: '#' :: y) (List.forall_mem_cons.mpr ⟨rfl, List.forall_mem_cons.mpr ⟨rfl, new⟩⟩)⟩

/-- What comes behind the place is a comment or nothing. -/
theorem skipComment_tail : skipComment w = post ∧ skipComment w' = post := by
  cases h.noted with
  | replaced old new =>
    rw [skipComment_sign, skipComment_sign]
    exact ⟨skipLine_append old h.ends, skipLine_append new h.ends⟩
  | added new =>
    rw [skipComment_space, skipComment_sign]
    exact ⟨skipComment_of_ends h.ends, skipLine_append new h.ends⟩

/-- Going over spaces and a comment stops before the place, or both times at the end of the line. -/
theorem skipComment_eq (s : Text) :
    skipComment (s ++ w) = post ∧ skipComment (s ++ w') = post ∨
      skipComment s ≠ [] ∧ skipComment (s ++ w) = skipComment s ++ w ∧
        skipComment (s ++ w') = skipComment s ++ w' := by
  by_cases none : skipComment s = []
  · refine .inl ?_
    have inside := Margin.isBreak_eq_false_of_skipComment none
    induction s with
    | nil => exact h.skipComment_tail
    | cons c r ih =>
      obtain ⟨-, rest⟩ := List.forall_mem_cons.mp inside
      by_cases space : c = ' '
      · subst space
        rw [skipComment_space] at none
        rw [List.cons_append, List.cons_append, skipComment_space, skipComment_space]
        exact ih none rest
      · by_cases sign : c = '#'
        · subst sign
          rw [List.cons_append, List.cons_append, skipComment_sign, skipComment_sign]
          exact h.skipLine_eq rest
        · rw [skipComment_other space sign] at none
          cases none
  · exact .inr ⟨none, Margin.skipComment_append none w, Margin.skipComment_append none w'⟩

/-- A line break before the place. -/
theorem afterBreak?_eq {c : Char} {s : Text} (suffix : c :: s <:+ u) (stops : isBreak c = true) :
    ∃ t, t <:+ s ∧ afterBreak? (c :: s ++ w) = some (t ++ w) ∧
      afterBreak? (c :: s ++ w') = some (t ++ w') := by
  rw [List.cons_append, List.cons_append, afterBreak?_break stops, afterBreak?_break stops,
    h.pair_eq suffix]
  cases pair : isReturnOfPair c (s ++ w) with
  | false => exact ⟨s, List.suffix_refl s, rfl, rfl⟩
  | true =>
    cases s with
    | cons d r => exact ⟨r, List.suffix_cons d r, rfl, rfl⟩
    | nil =>
      rw [isReturnOfPair, Bool.and_eq_true, beq_iff_eq, beq_iff_eq] at pair
      obtain ⟨rfl, feed⟩ := pair
      exact absurd feed (h.whole (Margin.getLast?_of_suffix suffix rfl))

/-- Going to the end of the line stops at a break before the place, or both times behind it. -/
theorem skipLine_cases (s : Text) :
    skipLine (s ++ w) = post ∧ skipLine (s ++ w') = post ∨
      skipLine (s ++ w) = skipLine s ++ w ∧ skipLine (s ++ w') = skipLine s ++ w' := by
  by_cases none : skipLine s = []
  · exact .inl (h.skipLine_eq (by simpa using List.dropWhile_eq_nil_iff.mp none))
  · refine .inr ?_
    unfold skipLine at none ⊢
    simp [List.dropWhile_append, none]

end Fork

/-- What is left in the two texts: the same before the place, or what is left from some end on. -/
def Left (v w w' ends a b : Text) : Prop :=
  (∃ s, s <:+ v ∧ a = s ++ w ∧ b = s ++ w') ∨ a = ends ∧ b = ends

/-- The text from the next line on, or all of it in a last line. -/
def nextLine (s : Text) : Text :=
  (afterBreak? s).getD s

theorem suffix_nextLine (s : Text) : nextLine s <:+ s := by
  rw [nextLine]
  cases line : afterBreak? s with
  | none => exact List.suffix_refl s
  | some next => exact Margin.suffix_afterBreak? line

namespace Fork

variable (h : Fork u post w w')
include h

/-- A line that ends behind spaces and a comment ends so in both texts. -/
theorem left_nextLine {a b : Text} (inside : v <:+ u) (left : Left v w w' post a b) :
    atLineEnd (skipComment b) = atLineEnd (skipComment a) ∧
      (atLineEnd (skipComment a) = true →
        Left v w w' (nextLine post) (nextLine (skipComment a)) (nextLine (skipComment b))) := by
  have both {a b : Text} (old : skipComment a = post) (new : skipComment b = post) :
      atLineEnd (skipComment b) = atLineEnd (skipComment a) ∧ (atLineEnd (skipComment a) = true →
        Left v w w' (nextLine post) (nextLine (skipComment a)) (nextLine (skipComment b))) := by
    rw [old, new]
    exact ⟨rfl, fun _ => .inr ⟨rfl, rfl⟩⟩
  rcases left with ⟨s, suffix, rfl, rfl⟩ | ⟨rfl, rfl⟩
  · rcases h.skipComment_eq s with ⟨old, new⟩ | ⟨some, old, new⟩
    · exact both old new
    · obtain ⟨c, r, here⟩ := List.exists_cons_of_ne_nil some
      have behind := here ▸ (Margin.suffix_skipComment s).trans suffix
      rw [old, new, here]
      refine ⟨rfl, fun stops => .inl ?_⟩
      obtain ⟨t, further, next, next'⟩ := h.afterBreak?_eq (behind.trans inside) stops
      refine ⟨t, further.trans ((List.suffix_cons c r).trans behind), ?_, ?_⟩
      · rw [nextLine, next]
        rfl
      · rw [nextLine, next']
        rfl
  · have stays := skipComment_of_ends h.ends
    exact both stays stays

theorem left_skipLine {s : Text} (suffix : s <:+ v) :
    Left v w w' post (skipLine (s ++ w)) (skipLine (s ++ w')) := by
  rcases h.skipLine_cases s with ends | ⟨old, new⟩
  · exact .inr ends
  · exact .inl ⟨_, (List.dropWhile_suffix _).trans suffix, old, new⟩

end Fork

end YamlEdit.Scan
