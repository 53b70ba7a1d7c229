import YamlEdit.Proofs.Inset.Scalar
import YamlEdit.Proofs.Token.Margin

/-!
# Block scalars in a moved text

The lines of a block scalar are told from those behind it by their indentation, which either is
counted from that of the block around it or is the one of its first line. Both move with the text.
The exception is a block scalar without a block around it: then its indentation has to be the one of
its first line.
-/

namespace YamlEdit.Scan

theorem skipSpaces_inset (d : Nat) (s : Text) : skipSpaces (inset d s) = inset d (skipSpaces s) := by
  refine dropWhile_inset ?_ s
  intro c stops
  rw [beq_eq_false_iff_ne]
  rintro rfl
  cases stops

theorem skipLine_inset (d : Nat) (s : Text) : skipLine (inset d s) = inset d (skipLine s) :=
  dropWhile_inset (fun c stops => by rw [stops]; rfl) s

theorem skipComment_inset (d : Nat) (s : Text) :
    skipComment (inset d s) = inset d (skipComment s) := by
  unfold skipComment
  dsimp only
  rw [skipSpaces_inset, head?_inset, skipLine_inset]
  split <;> rfl

theorem afterBreak?_break {c : Char} (stops : isBreak c = true) (r : Text) :
    afterBreak? (c :: r) = some ((c :: r).drop (if isReturnOfPair c r then 2 else 1)) := by
  unfold afterBreak?
  split
  · next same =>
    obtain ⟨rfl, rfl⟩ := List.cons.inj same
    rfl
  · next apart same =>
    obtain ⟨rfl, rfl⟩ := List.cons.inj same
    have alone : isReturnOfPair c r = false := by
      rw [← Bool.not_eq_true, isReturnOfPair, Bool.and_eq_true, beq_iff_eq, beq_iff_eq]
      rintro ⟨rfl, feed⟩
      obtain ⟨t, rfl⟩ := List.head?_eq_some_iff.mp feed
      exact apart t rfl rfl
    rw [stops, alone]
    rfl
  · next same => cases same

theorem afterBreak?_inside {c : Char} (inside : isBreak c = false) (r : Text) :
    afterBreak? (c :: r) = none := by
  unfold afterBreak?
  split
  · next same =>
    obtain ⟨rfl, rfl⟩ := List.cons.inj same
    cases inside
  · next same =>
    obtain ⟨rfl, rfl⟩ := List.cons.inj same
    rw [inside]
    rfl
  · rfl

theorem afterBreak?_inset (d : Nat) (s : Text) :
    afterBreak? (inset d s) = (afterBreak? s).map (insetLine d) := by
  cases s with
  | nil => rfl
  | cons c r =>
    cases stops : isBreak c with
    | true =>
      rw [inset_break stops, afterBreak?_break stops, afterBreak?_break stops,
        isReturnOfPair_insetLine, drop_insetLine]
      rfl
    | false =>
      rw [inset_inside stops, afterBreak?_inside stops, afterBreak?_inside stops]
      rfl

namespace Block

variable {d : Nat} {s : Text}

/-! ## The header -/

theorem chomp?_inset (d : Nat) (s : Text) :
    chomp? (inset d s) = ((chomp? s).1, inset d (chomp? s).2) := by
  cases s with
  | nil => rfl
  | cons c r =>
    by_cases plus : c = '+'
    · subst plus
      rw [inset_inside rfl]
      rfl
    · by_cases minus : c = '-'
      · subst minus
        rw [inset_inside rfl]
        rfl
      · have none (t : Text) : chomp? (c :: t) = (none, c :: t) := by
          unfold chomp?
          split
          · next same => exact absurd (List.cons.inj same).1 plus
          · next same => exact absurd (List.cons.inj same).1 minus
          · rfl
        obtain ⟨t, more⟩ := exists_inset_cons d c r
        rw [more, none, none, ← more]

theorem moves_increment? (d : Nat) (s : Text) :
    Moves d s (increment? s) (increment? (inset d s)) := by
  cases s with
  | nil => exact Moved.refl (List.suffix_refl _)
  | cons c r =>
    obtain ⟨t, more⟩ := exists_inset_cons d c r
    rw [increment?, more, increment?]
    split
    · trivial
    · split
      · next digit =>
        have inside : isBreak c = false := by
          rw [← Bool.not_eq_true]
          intro stops
          simp only [isBreak, Bool.or_eq_true, beq_iff_eq] at stops
          rcases stops with (((rfl | rfl) | rfl) | rfl) | rfl <;> cases digit
        rw [inset_inside inside] at more
        rw [← (List.cons.inj more).2]
        exact Moved.refl (List.suffix_cons c r)
      · rw [← more]
        exact Moved.refl (List.suffix_refl _)

theorem moves_marks (d : Nat) (s : Text) : Moves d s (marks s) (marks (inset d s)) := by
  rw [marks, marks, chomp?_inset]
  have before := suffix_chomp? s
  generalize chomp? s = first at before ⊢
  obtain ⟨first, t⟩ := first
  dsimp only at before ⊢
  refine (moves_increment? d t).bind fun increment u suffix => ?_
  dsimp only
  rw [chomp?_inset]
  split
  · exact Moved.refl ((suffix_chomp? u).trans (suffix.trans before))
  · exact Moved.refl (suffix.trans before)

/-- A header, and the text from the first line on. -/
theorem agree_header (d : Nat) (s : Text) :
    Agree (fun a b => b.1 = a.1 ∧ b.2 = insetLine d a.2 ∧ a.2 <:+ s) (header s)
      (header (inset d s)) := by
  rw [header, header]
  refine (moves_marks d s).bind fun h t suffix => ?_
  dsimp only
  rw [atGap_inset, skipComment_inset, atLineEnd_inset, afterBreak?_inset]
  have inner := (Margin.suffix_skipComment t).trans suffix
  generalize skipComment t = u at inner ⊢
  refine AgreeBy.guard ?_ trivial
  split
  · trivial
  · next ends =>
    rw [Bool.not_eq_true', Bool.not_eq_false] at ends
    cases u with
    | nil => exact ⟨rfl, rfl, inner⟩
    | cons c r =>
      rw [afterBreak?_break ends]
      exact ⟨rfl, rfl, (line_suffix c r).trans ((List.suffix_cons c r).trans inner)⟩

/-! ## The lines in front of the text -/

/-- What is found in front of the first line with text. -/
structure SameLead (d : Nat) (s : Text) (a b : Lead) : Prop where
  breaks : b.breaks = a.breaks
  rest : b.rest = inset d a.rest
  suffix : a.rest <:+ s
  /-- The indentation shows where there is text. -/
  moved : a.rest = [] ∨ b.column = a.column + d ∧ b.widest = a.widest + d

theorem SameLead.mono {s t : Text} {a b : Lead} (h : SameLead d t a b) (inner : t <:+ s) :
    SameLead d s a b :=
  { h with suffix := h.suffix.trans inner }

theorem leadFrom_space (l : Lead) (r : Text) :
    leadFrom l (' ' :: r) =
      leadFrom { l with column := l.column + 1, widest := max l.widest (l.column + 1) } r := by
  rw [leadFrom.eq_def]
  rfl

theorem leadFrom_break (l : Lead) {c : Char} (stops : isBreak c = true) (r : Text) :
    leadFrom l (c :: r) =
      if isReturnOfPair c r then leadFrom l r
      else leadFrom { l with breaks := l.breaks ++ [breakChar c], column := 0, stop := r } r := by
  have other : (c == ' ') = false := by
    rw [beq_eq_false_iff_ne]
    rintro rfl
    cases stops
  rw [leadFrom.eq_def]
  simp only [other, stops, Bool.false_eq_true, if_false, if_true]

theorem leadFrom_text (l : Lead) {c : Char} (inside : isBreak c = false) (other : c ≠ ' ')
    (r : Text) : leadFrom l (c :: r) = { l with rest := c :: r } := by
  rw [leadFrom.eq_def]
  simp only [beq_eq_false_iff_ne.mpr other, inside, isReturnOfPair_of_inside inside,
    Bool.false_eq_true, if_false]

theorem leadFrom_spaces (l : Lead) (room : l.column ≤ l.widest) (n : Nat) (s : Text) :
    leadFrom l (List.replicate n ' ' ++ s) =
      leadFrom { l with column := l.column + n, widest := max l.widest (l.column + n) } s := by
  induction n generalizing l with
  | zero => rw [List.replicate_zero, List.nil_append, Nat.add_zero, Nat.max_eq_left room]
  | succ n ih =>
    rw [List.replicate_succ, List.cons_append, leadFrom_space, ih _ (Nat.le_max_right ..)]
    dsimp only
    congr 2
    · omega
    · omega

/-- The widest indentation so far, in a text and in the moved text. -/
def SameWidest (d : Nat) (a b : Lead) : Prop :=
  b.widest = a.widest + d ∨ a.widest = 0 ∧ b.widest = 0

theorem sameLead_leadFrom (d : Nat) {a b : Lead} (breaks : b.breaks = a.breaks) (s : Text)
    (place : b.column = a.column + d ∧ b.widest = a.widest + d ∨
      atLineEnd s = true ∧ SameWidest d a b) :
    SameLead d s (leadFrom a s) (leadFrom b (inset d s)) := by
  induction s generalizing a b with
  | nil => exact ⟨breaks, rfl, List.suffix_refl _, .inl rfl⟩
  | cons c r ih =>
    cases stops : isBreak c with
    | true =>
      have widest : SameWidest d a b := place.elim (fun moved => .inl moved.2) (·.2)
      rw [inset_break stops, leadFrom_break _ stops, leadFrom_break _ stops,
        isReturnOfPair_insetLine, breaks]
      refine SameLead.mono ?_ (List.suffix_cons c r)
      split
      · next pair =>
        have ends := atLineEnd_of_pair pair
        rw [insetLine_of_end ends]
        exact ih breaks (.inr ⟨ends, widest⟩)
      · cases ends : atLineEnd r with
        | true =>
          rw [insetLine_of_end ends]
          exact ih rfl (.inr ⟨ends, widest⟩)
        | false =>
          rw [insetLine_of_visible ends, leadFrom_spaces _ (Nat.zero_le _)]
          refine ih rfl (.inl ⟨rfl, ?_⟩)
          rcases widest with moved | ⟨none, none'⟩
          · dsimp only
            omega
          · dsimp only
            omega
    | false =>
      have moved := place.resolve_right fun h => by
        have ends : isBreak c = true := h.1
        rw [stops] at ends
        cases ends
      rw [inset_inside stops]
      by_cases space : c = ' '
      · subst space
        rw [leadFrom_space, leadFrom_space]
        refine SameLead.mono ?_ (List.suffix_cons ' ' r)
        refine ih breaks (.inl ⟨?_, ?_⟩)
        · dsimp only
          omega
        · dsimp only
          omega
      · rw [leadFrom_text _ stops space, leadFrom_text _ stops space]
        exact ⟨breaks, (inset_inside stops).symm, List.suffix_refl _, .inr moved⟩

/-- The lines in front of the text, from the start of a line on. -/
theorem sameLead_insetLine (d : Nat) (stop stop' : Text) (rest rest' : Text) (s : Text) :
    SameLead d s (leadFrom ⟨[], 0, 0, stop, rest⟩ s)
      (leadFrom ⟨[], 0, 0, stop', rest'⟩ (insetLine d s)) := by
  cases ends : atLineEnd s with
  | true =>
    rw [insetLine_of_end ends]
    refine sameLead_leadFrom d ?_ s (.inr ⟨ends, .inr ⟨?_, ?_⟩⟩) <;> rfl
  | false =>
    rw [insetLine_of_visible ends, leadFrom_spaces _ (Nat.zero_le _)]
    refine sameLead_leadFrom d ?_ s (.inl ⟨?_, ?_⟩)
    · rfl
    · rfl
    · exact Nat.zero_max _

/-! ## The lines of the scalar -/

/-- Readings of a text and of the moved text. -/
structure SameReading (d : Nat) (s : Text) (a b : Reading) : Prop where
  text : b.text = a.text
  rest : b.rest = inset d a.rest
  suffix : a.rest <:+ s

theorem SameReading.mono {s t : Text} {a b : Reading} (h : SameReading d t a b) (inner : t <:+ s) :
    SameReading d s a b :=
  { h with suffix := h.suffix.trans inner }

theorem SameReading.after {s : Text} {a b : Reading} (h : SameReading d s a b) (text : Text) :
    SameReading d s (a.after text) (b.after text) :=
  { h with text := congrArg (text ++ ·) h.text }

/-- Places of reading in a text and in the moved text. -/
inductive SamePlace (d : Nat) : Place → Place → Prop
  | line (flush : Bool) : SamePlace d (.line flush) (.line flush)
  | between (flush : Bool) (first : Option Char) (breaks : Text) (column : Nat) (stop stop' : Text) :
    SamePlace d (.between flush first breaks column stop)
      (.between flush first breaks (column + d) stop')

variable {folds : Bool} {indent : Nat} {chomp : Chomp}

theorem linesFrom_line_break (flush : Bool) {c : Char} (stops : isBreak c = true) (r : Text) :
    linesFrom folds indent chomp (.line flush) (c :: r) =
      if isReturnOfPair c r then linesFrom folds indent chomp (.line flush) r
      else linesFrom folds indent chomp (.between flush (some (breakChar c)) [] 0 r) r := by
  rw [linesFrom.eq_def]
  simp only [stops, if_true]

theorem linesFrom_line_inside (flush : Bool) {c : Char} (inside : isBreak c = false) (r : Text) :
    linesFrom folds indent chomp (.line flush) (c :: r) =
      (linesFrom folds indent chomp (.line flush) r).after [c] := by
  rw [linesFrom.eq_def]
  simp only [inside, isReturnOfPair_of_inside inside, Bool.false_eq_true, if_false]

variable (flush : Bool) (first : Option Char) (breaks : Text) (column : Nat) (stop : Text)

theorem linesFrom_between_break {c : Char} (stops : isBreak c = true) (r : Text) :
    linesFrom folds indent chomp (.between flush first breaks column stop) (c :: r) =
      if isReturnOfPair c r then
        linesFrom folds indent chomp (.between flush first breaks column stop) r
      else linesFrom folds indent chomp
        (.between flush first (breaks ++ [breakChar c]) 0 r) r := by
  rw [linesFrom.eq_def]
  simp only [stops, if_true]

theorem linesFrom_between_inside {c : Char} (inside : isBreak c = false) (r : Text) :
    linesFrom folds indent chomp (.between flush first breaks column stop) (c :: r) =
      if c == ' ' && column < indent then
        linesFrom folds indent chomp (.between flush first breaks (column + 1) stop) r
      else if column == indent then
        (linesFrom folds indent chomp (.line (c ≠ ' ' && c ≠ '\t')) r).after
          (joint folds flush (c ≠ ' ' && c ≠ '\t') first breaks ++ [c])
      else ⟨chomp.tail first breaks, stop, c :: r⟩ := by
  rw [linesFrom.eq_def]
  simp only [inside, isReturnOfPair_of_inside inside, Bool.false_eq_true, if_false]

theorem linesFrom_spaces {n : Nat} (room : column + n ≤ indent) (s : Text) :
    linesFrom folds indent chomp (.between flush first breaks column stop)
        (List.replicate n ' ' ++ s) =
      linesFrom folds indent chomp (.between flush first breaks (column + n) stop) s := by
  induction n generalizing column with
  | zero => rfl
  | succ n ih =>
    have less : column < indent := by omega
    rw [List.replicate_succ, List.cons_append, linesFrom_between_inside _ _ _ _ _ rfl]
    simp only [beq_self_eq_true, decide_eq_true less, Bool.and_self, if_true]
    rw [ih (column + 1) (by omega), Nat.add_right_comm]
    rfl

/-- At the end of a line the column counts for nothing. -/
theorem linesFrom_column (column' : Nat) {s : Text} (ends : atLineEnd s = true) :
    linesFrom folds indent chomp (.between flush first breaks column stop) s =
      linesFrom folds indent chomp (.between flush first breaks column' stop) s := by
  induction s with
  | nil => rfl
  | cons c r ih =>
    have stops : isBreak c = true := ends
    rw [linesFrom_between_break _ _ _ _ _ stops, linesFrom_between_break _ _ _ _ _ stops]
    split
    · next pair => exact ih (atLineEnd_of_pair pair)
    · rfl

theorem linesFrom_insetLine (d : Nat) (s : Text) :
    linesFrom folds (indent + d) chomp (.between flush first breaks 0 stop) (insetLine d s) =
      linesFrom folds (indent + d) chomp (.between flush first breaks (0 + d) stop)
        (inset d s) := by
  cases ends : atLineEnd s with
  | true =>
    rw [insetLine_of_end ends]
    exact linesFrom_column _ _ _ _ _ _ (by rwa [atLineEnd_inset])
  | false => rw [insetLine_of_visible ends, linesFrom_spaces _ _ _ _ _ (by omega)]

theorem sameReading_linesFrom (d : Nat) (s : Text) {p q : Place} (same : SamePlace d p q) :
    SameReading d s (linesFrom folds indent chomp p s)
      (linesFrom folds (indent + d) chomp q (inset d s)) := by
  induction s generalizing p q with
  | nil => cases same <;> exact ⟨rfl, rfl, List.suffix_refl _⟩
  | cons c r ih =>
    have line (flush : Bool) (first : Option Char) (breaks stop stop' : Text) :
        SameReading d r (linesFrom folds indent chomp (.between flush first breaks 0 stop) r)
          (linesFrom folds (indent + d) chomp (.between flush first breaks 0 stop')
            (insetLine d r)) := by
      rw [linesFrom_insetLine]
      exact ih (.between flush first breaks 0 stop stop')
    cases stops : isBreak c with
    | true =>
      refine SameReading.mono ?_ (List.suffix_cons c r)
      rw [inset_break stops]
      cases same with
      | line flush =>
        rw [linesFrom_line_break _ stops, linesFrom_line_break _ stops, isReturnOfPair_insetLine]
        split
        · next pair =>
          rw [insetLine_of_end (atLineEnd_of_pair pair)]
          exact ih (.line flush)
        · exact line ..
      | between flush first breaks column stop stop' =>
        rw [linesFrom_between_break _ _ _ _ _ stops, linesFrom_between_break _ _ _ _ _ stops,
          isReturnOfPair_insetLine]
        split
        · next pair =>
          rw [insetLine_of_end (atLineEnd_of_pair pair)]
          exact ih (.between flush first breaks column stop stop')
        · exact line ..
    | false =>
      rw [inset_inside stops]
      cases same with
      | line flush =>
        rw [linesFrom_line_inside _ stops, linesFrom_line_inside _ stops]
        exact ((ih (.line flush)).after [c]).mono (List.suffix_cons c r)
      | between flush first breaks column stop stop' =>
        have less : decide (column + d < indent + d) = decide (column < indent) := by
          rw [decide_eq_decide]
          omega
        have here : (column + d == indent + d) = (column == indent) := by
          rw [Bool.eq_iff_iff, beq_iff_eq, beq_iff_eq]
          omega
        rw [linesFrom_between_inside _ _ _ _ _ stops, linesFrom_between_inside _ _ _ _ _ stops, less,
          here]
        split
        · rw [Nat.add_right_comm]
          exact (ih (.between flush first breaks (column + 1) stop stop')).mono
            (List.suffix_cons c r)
        · split
          · exact ((ih (.line _)).after _).mono (List.suffix_cons c r)
          · exact ⟨rfl, (inset_inside stops).symm, List.suffix_refl _⟩

/-- The lines of a block scalar behind its header. -/
def readLines (folds : Bool) (least : Nat) (h : Header) (s : Text) : Reading :=
  match h.increment with
  | some n => linesFrom folds (max least 1 + n - 1) h.chomp (.between true none [] 0 s) s
  | none =>
    let l := leadFrom ⟨[], 0, 0, s, s⟩ s
    linesFrom folds (max (max least 1) l.widest) h.chomp
      (.between true none l.breaks l.column l.stop) l.rest

theorem read_eq (folds : Bool) (least : Nat) (s : Text) :
    read folds least s = (header s).map fun a => readLines folds least a.1 a.2 := by
  rw [read]
  cases header s with
  | error f => rfl
  | ok a =>
    obtain ⟨h, t⟩ := a
    cases increment : h.increment with
    | some n => simp [bind, Except.bind, Except.map, readLines, increment, pure, Except.pure]
    | none => simp [bind, Except.bind, Except.map, readLines, increment, pure, Except.pure]

/-- Whether the lines of a block scalar show its indentation by themselves: the header does not give
it, and the first one does not start in the first column. -/
def linesShowIndent (h : Header) (s : Text) : Bool :=
  let l := leadFrom ⟨[], 0, 0, s, s⟩ s
  h.increment.isNone && (l.rest.isEmpty || l.widest != 0)

/-- Whether a block scalar shows its indentation by itself. -/
def showsIndent (s : Text) : Bool :=
  match header s with
  | .error _ => true
  | .ok (h, s) => linesShowIndent h s

theorem sameReading_readLines (d : Nat) {least least' : Nat} {h : Header} {s : Text}
    (bound : 1 ≤ least ∧ least' = least + d ∨
      least = 0 ∧ least' = 0 ∧ linesShowIndent h s = true) :
    SameReading d s (readLines folds least h s) (readLines folds least' h (insetLine d s)) := by
  unfold readLines
  cases increment : h.increment with
  | some n =>
    have more : max least' 1 + n - 1 = (max least 1 + n - 1) + d := by
      rcases bound with ⟨one, rfl⟩ | ⟨-, -, shows⟩
      · omega
      · simp [linesShowIndent, increment] at shows
    dsimp only
    rw [more, linesFrom_insetLine]
    exact sameReading_linesFrom d s (.between true none [] 0 s _)
  | none =>
    have leads := sameLead_insetLine d s (insetLine d s) s (insetLine d s) s
    dsimp only
    have shows : least = 0 → (leadFrom ⟨[], 0, 0, s, s⟩ s).rest ≠ [] →
        0 < (leadFrom ⟨[], 0, 0, s, s⟩ s).widest := by
      intro zero some
      rcases bound with ⟨one, -⟩ | ⟨-, -, shows⟩
      · omega
      · simp only [linesShowIndent, increment, Option.isNone_none, Bool.true_and, Bool.or_eq_true,
          List.isEmpty_iff, bne_iff_ne] at shows
        exact Nat.pos_of_ne_zero (shows.resolve_left some)
    generalize leadFrom ⟨[], 0, 0, s, s⟩ s = a at leads shows ⊢
    generalize leadFrom ⟨[], 0, 0, insetLine d s, insetLine d s⟩ (insetLine d s) = b at leads ⊢
    by_cases none : a.rest = []
    · rw [leads.rest, leads.breaks, none]
      exact ⟨rfl, rfl, List.nil_suffix⟩
    · obtain ⟨column, widest⟩ := leads.moved.resolve_left none
      have positive := fun zero => shows zero none
      have more : max (max least' 1) b.widest = max (max least 1) a.widest + d := by
        rcases bound with ⟨one, rfl⟩ | ⟨rfl, rfl, -⟩
        · omega
        · have := positive rfl
          omega
      rw [more, leads.rest, leads.breaks, column]
      exact (sameReading_linesFrom d a.rest (.between true Option.none a.breaks a.column a.stop _)).mono
        leads.suffix

/-- What is read of a block scalar. The indentation of the block around it moves with the text; if
there is none, the scalar has to show its own. -/
theorem agree_read (d : Nat) {least least' : Nat} {s : Text}
    (bound : 1 ≤ least ∧ least' = least + d ∨ least = 0 ∧ least' = 0 ∧ showsIndent s = true) :
    Agree (SameReading d s) (read folds least s) (read folds least' (inset d s)) := by
  rw [read_eq, read_eq]
  obtain ⟨f, f', head, head', -⟩ | ⟨⟨h, t⟩, ⟨h', t'⟩, head, head', same, moved, suffix⟩ :=
    (agree_header d s).cases
  · rw [head, head']
    trivial
  · dsimp only at same moved suffix
    subst same moved
    rw [head, head']
    refine SameReading.mono (sameReading_readLines d ?_) suffix
    rcases bound with bound | ⟨zero, zero', shows⟩
    · exact .inl bound
    · rw [showsIndent, head] at shows
      exact .inr ⟨zero, zero', shows⟩

end Block

end YamlEdit.Scan
