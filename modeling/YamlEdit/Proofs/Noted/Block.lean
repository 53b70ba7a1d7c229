import YamlEdit.Proofs.Noted.Scalar

/-!
# Block scalars in front of another comment

The lines of a block scalar that ends before the place are the same in both texts, and so is the way
over the blank lines behind them. The place may also be on the header line: the header ends with that
line in both texts, and the lines behind it are the same ones.
-/

namespace YamlEdit.Scan

variable {u v post w w' : Text}

namespace Block

/-- Behind a line break there are spaces only, or the second half of it comes next. -/
def Indented (stop s : Text) : Prop :=
  (∃ g, stop = g ++ s ∧ ∀ c ∈ g, c = ' ') ∨ s.head? = some '\n'

theorem Indented.refl (s : Text) : Indented s s :=
  .inl ⟨[], rfl, by simp⟩

theorem Indented.inside {stop s : Text} (h : Indented stop s) (other : s.head? ≠ some '\n') :
    ∃ g, stop = g ++ s ∧ ∀ c ∈ g, c = ' ' :=
  h.resolve_right other

theorem Indented.space {stop r : Text} (h : Indented stop (' ' :: r)) : Indented stop r := by
  obtain ⟨g, whole, spaces⟩ := h.inside (by simp)
  refine .inl ⟨g ++ [' '], by rw [whole, List.append_assoc]; rfl, ?_⟩
  simpa [or_imp, forall_and] using spaces

/-- Readings of a block scalar that ends before the place, as does the way behind it. -/
structure Halts (v w w' : Text) (a b : Reading) : Prop where
  text : b.text = a.text
  stop : ∃ s, s <:+ v ∧ a.stop = s ++ w ∧ b.stop = s ++ w'
  rest : ∃ s, s <:+ v ∧ a.rest = s ++ w ∧ b.rest = s ++ w'

theorem Halts.after {a b : Reading} (h : Halts v w w' a b) (text : Text) :
    Halts v w w' (a.after text) (b.after text) :=
  { h with text := congrArg (text ++ ·) h.text }

/-- A reading that ends before the place. At the end of the text it does so only with something but
spaces behind it. -/
structure Before (w : Text) (a : Reading) : Prop where
  ends : w.length ≤ a.stop.length
  inked : w = [] → ∃ c ∈ a.stop, c ≠ ' '

/-- Places of reading before the place in the two texts. -/
inductive Beside (v w w' s : Text) : Place → Place → Prop
  | line (flush : Bool) : Beside v w w' s (.line flush) (.line flush)
  | between (flush : Bool) (first : Option Char) (breaks : Text) (column : Nat) {z : Text}
      (suffix : z <:+ v) (indented : Indented z s) :
    Beside v w w' s (.between flush first breaks column (z ++ w))
      (.between flush first breaks column (z ++ w'))

section

variable (h : Fork u post w w') {folds : Bool} {indent : Nat} {chomp : Chomp}

/-- From the end of a line on the lines of a block scalar end further on. -/
theorem linesFrom_lineEnd {c : Char} {r : Text} (stops : isBreak c = true) (place : Place) :
    (linesFrom folds indent chomp place (c :: r)).stop.length < (c :: r).length := by
  have bound (place : Place) (s : Text) (room : place.bound ≤ s.length) :
      (linesFrom folds indent chomp place s).stop.length < (c :: s).length := by
    have le := length_linesFrom_stop_le folds indent chomp place s
    rw [List.length_cons]
    omega
  cases place with
  | line flush =>
    rw [linesFrom_line_break _ stops]
    split
    · exact bound _ r (Nat.zero_le _)
    · exact bound _ r (Nat.le_refl _)
  | between flush first breaks column stop =>
    rw [linesFrom_between_break _ _ _ _ _ stops]
    split
    · next pair =>
      rw [isReturnOfPair, Bool.and_eq_true, beq_iff_eq, beq_iff_eq] at pair
      obtain ⟨t, rfl⟩ := List.head?_eq_some_iff.mp pair.2
      rw [linesFrom_between_break _ _ _ _ _ rfl, isReturnOfPair, if_neg (by simp)]
      exact Nat.lt_succ_of_lt (bound _ t (Nat.le_refl _))
    · exact bound _ r (Nat.le_refl _)

/-- A comment is a line of the scalar if it is indented like one, and ends it otherwise. -/
theorem linesFrom_sign (flush : Bool) (first : Option Char) (breaks : Text) (column : Nat)
    (stop r : Text) :
    linesFrom folds indent chomp (.between flush first breaks column stop) ('#' :: r) =
      if column == indent then
        (linesFrom folds indent chomp (.line true) r).after (joint folds flush true first breaks ++ ['#'])
      else ⟨chomp.tail first breaks, stop, '#' :: r⟩ := by
  rw [linesFrom_between_inside _ _ _ _ _ rfl]
  rfl

include h

/-- Nothing of a scalar that ends before the place comes behind it. -/
theorem halts_nil {p q : Place} (beside : Beside v w w' [] p q)
    (before : Before w (linesFrom folds indent chomp p w)) :
    Halts v w w' (linesFrom folds indent chomp p w) (linesFrom folds indent chomp q w') := by
  obtain ⟨ends, inked⟩ := before
  have further (flush : Bool) (text r : Text) (here : w = '#' :: r) :
      ((linesFrom folds indent chomp (.line flush) r).after text).stop.length < w.length := by
    have le := length_linesFrom_stop_le folds indent chomp (.line flush) r
    rw [Place.bound, Nat.max_zero] at le
    rw [here]
    exact Nat.lt_succ_of_le le
  cases h.noted with
  | @replaced x y old new =>
    cases beside with
    | line flush =>
      rw [linesFrom_line_inside _ rfl] at ends
      exact absurd ends (Nat.not_le_of_lt (further _ _ _ rfl))
    | between flush first breaks column behind indented =>
      rw [linesFrom_sign] at ends ⊢
      rw [linesFrom_sign]
      split at ends
      · exact absurd ends (Nat.not_le_of_lt (further _ _ _ rfl))
      · next past =>
        rw [if_neg past, if_neg past]
        exact ⟨rfl, ⟨_, behind, rfl, rfl⟩, ⟨[], List.nil_suffix, rfl, rfl⟩⟩
  | @added y new =>
    have line := h.ends
    cases post with
    | cons c r => exact absurd ends (Nat.not_le_of_lt (linesFrom_lineEnd line p))
    | nil =>
      obtain ⟨c, found, ink⟩ := inked rfl
      cases beside with
      | line flush => cases found
      | @between flush first breaks column z behind indented =>
        obtain ⟨g, whole, spaces⟩ := indented.inside (by simp)
        rw [List.append_nil] at whole
        subst whole
        exact absurd (spaces c (by simpa [linesFrom] using found)) ink

theorem halts_linesFrom (inside : v <:+ u) {s : Text} (suffix : s <:+ v) {p q : Place}
    (beside : Beside v w w' s p q) (before : Before w (linesFrom folds indent chomp p (s ++ w))) :
    Halts v w w' (linesFrom folds indent chomp p (s ++ w)) (linesFrom folds indent chomp q (s ++ w')) := by
  induction s generalizing p q with
  | nil => exact halts_nil h beside before
  | cons c r ih =>
    have rest := (List.suffix_cons c r).trans suffix
    rw [List.cons_append, List.cons_append] at *
    have pair := h.pair_eq (suffix.trans inside)
    have half {t : Text} (both : isReturnOfPair c (r ++ w) = true) : Indented t r :=
      .inr (h.feed_of_pair (suffix.trans inside) both)
    cases stops : isBreak c with
    | true =>
      cases beside with
      | line flush =>
        rw [linesFrom_line_break _ stops] at before ⊢
        rw [linesFrom_line_break _ stops, pair]
        split at before
        · next both =>
          rw [if_pos both, if_pos both]
          exact ih rest (.line flush) before
        · next alone =>
          rw [if_neg alone, if_neg alone]
          exact ih rest (.between _ _ _ _ rest (.refl r)) before
      | between flush first breaks column behind indented =>
        rw [linesFrom_between_break _ _ _ _ _ stops] at before ⊢
        rw [linesFrom_between_break _ _ _ _ _ stops, pair]
        split at before
        · next both =>
          rw [if_pos both, if_pos both]
          exact ih rest (.between _ _ _ _ behind (half both)) before
        · next alone =>
          rw [if_neg alone, if_neg alone]
          exact ih rest (.between _ _ _ _ rest (.refl r)) before
    | false =>
      cases beside with
      | line flush =>
        rw [linesFrom_line_inside _ stops] at before ⊢
        rw [linesFrom_line_inside _ stops]
        exact (ih rest (.line flush) ⟨before.ends, before.inked⟩).after [c]
      | between flush first breaks column behind indented =>
        rw [linesFrom_between_inside _ _ _ _ _ stops] at before ⊢
        rw [linesFrom_between_inside _ _ _ _ _ stops]
        split at before
        · next space =>
          rw [if_pos space, if_pos space]
          rw [Bool.and_eq_true, beq_iff_eq] at space
          obtain ⟨rfl, -⟩ := space
          exact ih rest (.between _ _ _ _ behind indented.space) before
        · next other =>
          rw [if_neg other, if_neg other]
          split at before
          · next here =>
            rw [if_pos here, if_pos here]
            exact (ih rest (.line _) ⟨before.ends, before.inked⟩).after _
          · next past =>
            rw [if_neg past, if_neg past]
            exact ⟨rfl, ⟨_, behind, rfl, rfl⟩, ⟨_, suffix, rfl, rfl⟩⟩

/-- What is found in front of the first line with text, if that is before the place. -/
structure LeadsTo (v w w' : Text) (a b : Lead) : Prop where
  breaks : b.breaks = a.breaks
  widest : b.widest = a.widest
  column : b.column = a.column
  left : ∃ z s, z <:+ v ∧ s <:+ v ∧ Indented z s ∧ a.stop = z ++ w ∧ b.stop = z ++ w' ∧
    a.rest = s ++ w ∧ b.rest = s ++ w'

omit h in
theorem leadFrom_lineEnd (l : Lead) {c : Char} {r : Text} (stops : isBreak c = true) :
    (leadFrom l (c :: r)).stop.length < (c :: r).length ∧
      (leadFrom l (c :: r)).rest.length < (c :: r).length := by
  have bound (l : Lead) (s : Text) (room : l.stop.length ≤ s.length) :
      (leadFrom l s).stop.length < (c :: s).length ∧ (leadFrom l s).rest.length < (c :: s).length := by
    have stop := length_leadFrom_stop_le l s
    have rest := length_leadFrom_rest_le l s
    rw [List.length_cons]
    omega
  rw [leadFrom_break _ stops]
  split
  · next pair =>
    rw [isReturnOfPair, Bool.and_eq_true, beq_iff_eq, beq_iff_eq] at pair
    obtain ⟨t, rfl⟩ := List.head?_eq_some_iff.mp pair.2
    rw [leadFrom_break _ rfl, isReturnOfPair, if_neg (by simp)]
    obtain ⟨stop, rest⟩ := bound { l with breaks := l.breaks ++ [breakChar '\n'], column := 0, stop := t } t
      (Nat.le_refl _)
    exact ⟨Nat.lt_succ_of_lt stop, Nat.lt_succ_of_lt rest⟩
  · exact bound _ r (Nat.le_refl _)

/-- The lines in front of the text end before the place, or all of the scalar ends behind it. -/
theorem leadsTo_leadFrom (inside : v <:+ u) {s : Text} (suffix : s <:+ v) {a b : Lead} {z : Text}
    (behind : z <:+ v) (indented : Indented z s) (breaks : b.breaks = a.breaks)
    (widest : b.widest = a.widest) (column : b.column = a.column) (stop : a.stop = z ++ w)
    (stop' : b.stop = z ++ w') :
    LeadsTo v w w' (leadFrom a (s ++ w)) (leadFrom b (s ++ w')) ∨
      (leadFrom a (s ++ w)).stop.length < w.length ∧ (leadFrom a (s ++ w)).rest.length < w.length ∨
      w = [] ∧ (leadFrom a (s ++ w)).rest = [] ∧ ∀ c ∈ (leadFrom a (s ++ w)).stop, c = ' ' := by
  induction s generalizing a b z with
  | nil =>
    obtain ⟨g, whole, spaces⟩ := indented.inside (by simp)
    rw [List.append_nil] at whole
    subst whole
    cases h.noted with
    | @replaced x y old new =>
      refine .inl ?_
      rw [List.nil_append, List.nil_append, leadFrom_text _ rfl (by simp), leadFrom_text _ rfl (by simp)]
      exact ⟨breaks, widest, column, _, [], behind, List.nil_suffix, indented, stop, stop', rfl, rfl⟩
    | @added y new =>
      have line := h.ends
      refine .inr ?_
      rw [List.nil_append]
      cases post with
      | nil =>
        refine .inr ⟨rfl, rfl, ?_⟩
        have stop : a.stop = z := by rw [stop, List.append_nil]
        show ∀ c ∈ a.stop, c = ' '
        rwa [stop]
      | cons c r => exact .inl (leadFrom_lineEnd a line)
  | cons c r ih =>
    have rest := (List.suffix_cons c r).trans suffix
    rw [List.cons_append, List.cons_append]
    cases stops : isBreak c with
    | true =>
      rw [leadFrom_break _ stops, leadFrom_break _ stops, h.pair_eq (suffix.trans inside)]
      split
      · next pair =>
        exact ih rest behind (.inr (h.feed_of_pair (suffix.trans inside) pair)) breaks widest column stop
          stop'
      · exact ih rest rest (.refl r) (by simp [breaks]) widest rfl rfl rfl
    | false =>
      by_cases space : c = ' '
      · subst space
        rw [leadFrom_space, leadFrom_space]
        exact ih rest behind indented.space breaks (by simp [widest, column]) (by simp [column]) stop stop'
      · rw [leadFrom_text _ stops space, leadFrom_text _ stops space]
        exact .inl ⟨breaks, widest, column, z, c :: r, behind, suffix, indented, stop, stop', rfl, rfl⟩

theorem halts_readLines (inside : v <:+ u) {s : Text} (suffix : s <:+ v) {least : Nat} {head : Header}
    (before : Before w (readLines folds least head (s ++ w))) :
    Halts v w w' (readLines folds least head (s ++ w)) (readLines folds least head (s ++ w')) := by
  unfold readLines at before ⊢
  cases increment : head.increment with
  | some n =>
    rw [increment] at before
    exact halts_linesFrom h inside suffix (.between _ _ _ _ suffix (.refl s)) before
  | none =>
    rw [increment] at before
    have leads := leadsTo_leadFrom h inside suffix (a := ⟨[], 0, 0, s ++ w, s ++ w⟩)
      (b := ⟨[], 0, 0, s ++ w', s ++ w'⟩) suffix (.refl s) rfl rfl rfl rfl rfl
    dsimp only at before ⊢
    generalize leadFrom ⟨[], 0, 0, s ++ w, s ++ w⟩ (s ++ w) = a at before leads ⊢
    generalize leadFrom ⟨[], 0, 0, s ++ w', s ++ w'⟩ (s ++ w') = b at leads ⊢
    obtain ⟨breaks, widest, column, stop, rest⟩ := a
    obtain ⟨breaks', widest', column', stop', rest'⟩ := b
    dsimp only at before leads ⊢
    rcases leads with ⟨rfl, rfl, rfl, z, t, behind, further, indented, rfl, rfl, rfl, rfl⟩ | short |
      ⟨none, rfl, spaces⟩
    · exact halts_linesFrom h inside further (.between _ _ _ _ behind indented) before
    · have le := length_linesFrom_stop_le folds (max (max least 1) widest) head.chomp
        (.between true none breaks column stop) rest
      have ends := before.ends
      rw [Place.bound] at le
      omega
    · obtain ⟨c, found, ink⟩ := before.inked none
      exact absurd (spaces c found) ink

/-! ### The header -/

/-- What is read in front of the place, going over no line break. -/
structure InLine {α : Type} (v w w' : Text) (a b : α × Text) : Prop where
  same : b.1 = a.1
  left : ∃ p s, v = p ++ s ∧ (∀ c ∈ p, isBreak c = false) ∧ a.2 = s ++ w ∧ b.2 = s ++ w'

omit h in
theorem InLine.refl {α : Type} (v : Text) (a : α) : InLine v w w' (a, v ++ w) (a, v ++ w') :=
  ⟨rfl, [], v, rfl, by simp, rfl, rfl⟩

omit h in
theorem chomp?_other {s : Text} (still : Still (fun c => c == '+' || c == '-') s) :
    chomp? s = (none, s) := by
  unfold chomp?
  split
  · exact absurd still.head (by simp)
  · exact absurd still.head (by simp)
  · rfl

theorem inLine_chomp? (v : Text) : InLine v w w' (chomp? (v ++ w)) (chomp? (v ++ w')) := by
  obtain ⟨old, new⟩ := h.still (p := fun c => c == '+' || c == '-') rfl
  cases v with
  | nil =>
    rw [List.nil_append, List.nil_append, chomp?_other old, chomp?_other new]
    exact .refl [] none
  | cons c r =>
    by_cases plus : c = '+'
    · subst plus
      exact ⟨rfl, ['+'], r, rfl, by simp [isBreak], rfl, rfl⟩
    · by_cases minus : c = '-'
      · subst minus
        exact ⟨rfl, ['-'], r, rfl, by simp [isBreak], rfl, rfl⟩
      · have still (t : Text) : Still (fun c => c == '+' || c == '-') (c :: t) := by
          rintro _ ⟨⟩
          simp [plus, minus]
        rw [List.cons_append, List.cons_append, chomp?_other (still _), chomp?_other (still _)]
        exact .refl (c :: r) none

theorem carries_increment? (v : Text) :
    Carries (InLine v w w') (increment? (v ++ w)) (increment? (v ++ w')) := by
  cases v with
  | nil =>
    obtain ⟨old, new⟩ := h.still (p := fun c => c == '0' || c.isDigit) (by decide)
    have none {t : Text} (still : Still (fun c => c == '0' || c.isDigit) t) :
        increment? t = .ok (none, t) := by
      cases t with
      | nil => rfl
      | cons c r =>
        obtain ⟨zero, digit⟩ := Bool.or_eq_false_iff.mp still.head
        simp [increment?, beq_eq_false_iff_ne.mp zero, digit]
    rw [List.nil_append, List.nil_append, none old, none new]
    exact .ok (.refl [] Option.none)
  | cons c r =>
    rw [List.cons_append, List.cons_append, increment?, increment?]
    refine .ite (fun _ => .error) fun _ => .ite (fun digit => .ok ?_) fun _ => .ok (.refl (c :: r) none)
    refine ⟨rfl, [c], r, rfl, ?_, rfl, rfl⟩
    rintro d hd
    rw [List.mem_singleton.mp hd, ← Bool.not_eq_true]
    intro stops
    rw [false_of_isBreak (p := Char.isDigit) (by decide) stops] at digit
    cases digit

theorem carries_marks (v : Text) : Carries (InLine v w w') (marks (v ++ w)) (marks (v ++ w')) := by
  rw [marks, marks]
  have first := inLine_chomp? h v
  generalize chomp? (v ++ w) = a at first ⊢
  generalize chomp? (v ++ w') = b at first ⊢
  obtain ⟨sign, rest⟩ := a
  obtain ⟨sign', rest'⟩ := b
  obtain ⟨same, p, s, rfl, inside, left, left'⟩ := first
  dsimp only at same left left' ⊢
  subst same left left'
  refine (carries_increment? h s).bind ?_
  rintro ⟨increment, rest⟩ ⟨increment', rest'⟩ ⟨same, q, t, rfl, inside', left, left'⟩
  dsimp only at same left left' ⊢
  subst same left left'
  split
  · have second := inLine_chomp? h t
    generalize chomp? (t ++ w) = a at second ⊢
    generalize chomp? (t ++ w') = b at second ⊢
    obtain ⟨sign, rest⟩ := a
    obtain ⟨sign', rest'⟩ := b
    obtain ⟨same, r, s, rfl, inside'', left, left'⟩ := second
    dsimp only at same left left' ⊢
    subst same left left'
    refine .ok ⟨rfl, p ++ (q ++ r), s, by simp, ?_, rfl, rfl⟩
    exact List.forall_mem_append.mpr ⟨inside, List.forall_mem_append.mpr ⟨inside', inside''⟩⟩
  · refine .ok ⟨rfl, p ++ q, t, by simp, ?_, rfl, rfl⟩
    exact List.forall_mem_append.mpr ⟨inside, inside'⟩

/-- A header that the place is in. -/
theorem carries_header_unbroken {v : Text} (unbroken : ∀ c ∈ v, isBreak c = false) :
    Carries (fun a b => b = a ∧ a.2 = nextLine post) (header (v ++ w)) (header (v ++ w')) := by
  rw [header, header]
  refine (carries_marks h v).bind ?_
  rintro ⟨head, rest⟩ ⟨head', rest'⟩ ⟨same, p, s, rfl, inside, left, left'⟩
  dsimp only at same left left' ⊢
  subst same left left'
  rw [h.atGap_eq]
  refine .guard id fun _ => ?_
  rcases h.skipComment_eq s with ⟨old, new⟩ | ⟨some, old, new⟩
  · rw [old, new]
    exact .guard id fun _ => .ok ⟨rfl, rfl⟩
  · obtain ⟨c, r, here⟩ := List.exists_cons_of_ne_nil some
    have visible : atLineEnd (skipComment (s ++ w)) = false := by
      rw [old, here]
      refine unbroken c (List.mem_append_right p ((Margin.suffix_skipComment s).mem ?_))
      rw [here]
      exact List.mem_cons_self
    rw [visible]
    exact .error

/-- A header on a line before that of the place. -/
theorem carries_header_broken {v : Text} (inside : v <:+ u) (broken : ∃ c ∈ v, isBreak c = true) :
    Carries (SameRead v w w') (header (v ++ w)) (header (v ++ w')) := by
  rw [header, header]
  refine (carries_marks h v).bind ?_
  rintro ⟨head, rest⟩ ⟨head', rest'⟩ ⟨same, p, s, rfl, unbroken, left, left'⟩
  dsimp only at same left left' ⊢
  subst same left left'
  rw [h.atGap_eq]
  refine .guard id fun _ => ?_
  have behind : s <:+ p ++ s := List.suffix_append p s
  have some : skipComment s ≠ [] := by
    intro none
    obtain ⟨c, hc, stops⟩ := broken
    rcases List.mem_append.mp hc with front | back
    · rw [unbroken c front] at stops
      cases stops
    · rw [Margin.isBreak_eq_false_of_skipComment none c back] at stops
      cases stops
  obtain ⟨c, r, here⟩ := List.exists_cons_of_ne_nil some
  have suffix := here ▸ (Margin.suffix_skipComment s).trans behind
  rw [Margin.skipComment_append some, Margin.skipComment_append some, here]
  refine .guard id fun stops => ?_
  have stops : isBreak c = true := by
    rwa [Bool.not_eq_true', Bool.not_eq_false] at stops
  obtain ⟨t, further, next, next'⟩ := h.afterBreak?_eq (suffix.trans inside) stops
  rw [next, next']
  exact .ok (.refl (further.trans ((List.suffix_cons c r).trans suffix)))

/-! ### Whole scalars -/

omit h in
theorem length_readLines_stop_le (least : Nat) (head : Header) (s : Text) :
    (readLines folds least head s).stop.length ≤ s.length := by
  unfold readLines
  split
  · refine Nat.le_trans (length_linesFrom_stop_le ..) ?_
    rw [Place.bound, Nat.max_self]
  · have stop := length_leadFrom_stop_le ⟨[], 0, 0, s, s⟩ s
    have rest := length_leadFrom_rest_le ⟨[], 0, 0, s, s⟩ s
    refine Nat.le_trans (length_linesFrom_stop_le ..) ?_
    rw [Place.bound]
    dsimp only at stop
    omega

/-- A block scalar whose header the place is in is the same in both texts. -/
theorem carries_read_unbroken {v : Text} (unbroken : ∀ c ∈ v, isBreak c = false) (least : Nat) :
    Carries (fun a b => b = a ∧ a.stop.length ≤ (nextLine post).length) (read folds least (v ++ w))
      (read folds least (v ++ w')) := by
  rw [read_eq, read_eq]
  refine (carries_header_unbroken h unbroken).map ?_
  rintro ⟨head, rest⟩ _ ⟨rfl, rfl⟩
  exact ⟨rfl, length_readLines_stop_le ..⟩

/-- A block scalar on the lines before that of the place. -/
theorem halts_read {v : Text} (inside : v <:+ u) (broken : ∃ c ∈ v, isBreak c = true) {least : Nat}
    {a : Reading} (read_ : read folds least (v ++ w) = .ok a) (before : Before w a) :
    ∃ b, read folds least (v ++ w') = .ok b ∧ Halts v w w' a b := by
  rw [read_eq] at read_ ⊢
  cases headed : header (v ++ w) with
  | error e =>
    rw [headed] at read_
    cases read_
  | ok head =>
    obtain ⟨⟨head', rest'⟩, headed', same, s, suffix, left, left'⟩ :=
      carries_header_broken h inside broken head headed
    obtain ⟨head, rest⟩ := head
    rw [headed] at read_
    cases read_
    rw [headed']
    refine ⟨_, rfl, ?_⟩
    dsimp only at same left left' before ⊢
    subst same left left'
    exact halts_readLines h inside suffix before

end

end Block

end YamlEdit.Scan
