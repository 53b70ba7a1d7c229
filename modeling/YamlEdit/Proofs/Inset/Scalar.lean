import YamlEdit.Proofs.Inset.Name
import YamlEdit.Token.Block
import YamlEdit.Token.Quoted

/-!
# Scalars in a moved text

A scalar that runs over several lines reads the same in a moved text: between quotes the spaces in
front of a line count for nothing, and in a plain scalar and in a block scalar all that counts is
how they compare with the indentation around it, which is moved as well.

The lines may not start like a directive or like a mark between documents, as these have to stand in
the first column.
-/

namespace YamlEdit.Scan

/-- Whether a line starts like a directive or like a mark between documents. -/
def startsMark (line : Text) : Bool :=
  line.head? == some '%' || line.take 3 == "---".toList || line.take 3 == "...".toList

/-- No line behind the first one starts like a directive or like a mark between documents. -/
def Markless (s : Text) : Prop :=
  ∀ c r, c :: r <:+ s → isBreak c = true → startsMark r = false

theorem Markless.mono {s t : Text} (h : Markless t) (suffix : s <:+ t) : Markless s :=
  fun c r inside => h c r (inside.trans suffix)

theorem Markless.tail {c : Char} {r : Text} (h : Markless (c :: r)) : Markless r :=
  h.mono (List.suffix_cons c r)

theorem atSeparator_of_startsMark {s : Text} (h : startsMark s = false) : atSeparator s = false := by
  simp only [startsMark, Bool.or_eq_false_iff] at h
  rw [atSeparator, h.1.2, h.2]
  rfl

theorem inset_zero (s : Text) : inset 0 s = s := by
  induction s with
  | nil => rfl
  | cons c r ih =>
    rw [inset, ih]
    split
    · rw [lead]
      split <;> rfl
    · rfl

theorem atSeparator_insetLine (d : Nat) {s : Text} (h : startsMark s = false) :
    atSeparator (insetLine d s) = false := by
  cases ends : atLineEnd s with
  | true =>
    rw [insetLine_of_end ends]
    cases s with
    | nil => rfl
    | cons c r =>
      have stops : isBreak c = true := ends
      have apart : (c == '-') = false ∧ (c == '.') = false := by
        simp only [isBreak, Bool.or_eq_true, beq_iff_eq] at stops
        rcases stops with (((rfl | rfl) | rfl) | rfl) | rfl <;> decide
      simp [inset, atSeparator, apart.1, apart.2]
  | false =>
    rw [insetLine_of_visible ends]
    cases d with
    | zero =>
      rw [List.replicate_zero, List.nil_append, inset_zero]
      exact atSeparator_of_startsMark h
    | succ d => rfl

theorem isReturnOfPair_of_inside {c : Char} (inside : isBreak c = false) (r : Text) :
    isReturnOfPair c r = false := by
  have other : (c == '\r') = false := by
    rw [beq_eq_false_iff_ne]
    rintro rfl
    cases inside
  rw [isReturnOfPair, other, Bool.false_and]

/-- The line behind a line break, in a text and in the moved text. -/
theorem drop_insetLine (d : Nat) (c : Char) (r : Text) :
    (c :: insetLine d r).drop (if isReturnOfPair c r then 2 else 1) =
      insetLine d ((c :: r).drop (if isReturnOfPair c r then 2 else 1)) := by
  cases pair : isReturnOfPair c r with
  | false => rfl
  | true =>
    rw [isReturnOfPair, Bool.and_eq_true, beq_iff_eq, beq_iff_eq] at pair
    obtain ⟨line, rfl⟩ := List.head?_eq_some_iff.mp pair.2
    rw [insetLine_break rfl]
    rfl

theorem Markless.line {c : Char} {r : Text} (h : Markless (c :: r)) (stops : isBreak c = true) :
    startsMark ((c :: r).drop (if isReturnOfPair c r then 2 else 1)) = false := by
  cases pair : isReturnOfPair c r with
  | false => exact h c r (List.suffix_refl _) stops
  | true =>
    rw [isReturnOfPair, Bool.and_eq_true, beq_iff_eq, beq_iff_eq] at pair
    obtain ⟨line, rfl⟩ := List.head?_eq_some_iff.mp pair.2
    exact h '\n' line (List.suffix_cons _ _) rfl

theorem line_suffix (c : Char) (r : Text) :
    (c :: r).drop (if isReturnOfPair c r then 2 else 1) <:+ r := by
  split
  · exact List.drop_suffix 1 r
  · exact List.suffix_refl r

theorem atLineEnd_of_pair {c : Char} {r : Text} (pair : isReturnOfPair c r = true) :
    atLineEnd r = true := by
  rw [isReturnOfPair, Bool.and_eq_true, beq_iff_eq, beq_iff_eq] at pair
  obtain ⟨t, rfl⟩ := List.head?_eq_some_iff.mp pair.2
  rfl

namespace Quoted

variable {d : Nat} {s : Text}

theorem moves_prepend {x y : Answer (Text × Text)} (h : Moves d s x y) (text : Text) :
    Moves d s (prepend text x) (prepend text y) := by
  cases x <;> cases y
  · trivial
  · cases h
  · cases h
  · exact ⟨congrArg (text ++ ·) h.same, h.rest, h.suffix⟩

theorem readFrom_skip (double : Bool) (gap : Gap) (n : Nat) (s : Text) :
    readFrom double gap n s = readFrom double gap 0 (s.drop n) := by
  induction n generalizing s with
  | zero => rfl
  | succ n ih =>
    cases s with
    | nil => rfl
    | cons c r => exact ih r

/-- At the start of a line the spaces in front of it count for nothing. -/
theorem readFrom_spaces (double : Bool) (first : Option Char) (breaks : Text) (n : Nat) (s : Text) :
    readFrom double (.lines first breaks) 0 (List.replicate n ' ' ++ s) =
      readFrom double (.lines first breaks) 0 s := by
  induction n with
  | zero => rfl
  | succ n ih =>
    rw [List.replicate_succ, List.cons_append, readFrom.eq_def]
    exact ih

theorem readFrom_insetLine (double : Bool) (first : Option Char) (breaks : Text) (d : Nat)
    (s : Text) : readFrom double (.lines first breaks) 0 (insetLine d s) =
      readFrom double (.lines first breaks) 0 (inset d s) := by
  cases ends : atLineEnd s with
  | true => rw [insetLine_of_end ends]
  | false => rw [insetLine_of_visible ends, readFrom_spaces]

theorem readFrom_break (double : Bool) (gap : Gap) {c : Char} (stops : isBreak c = true) (r : Text) :
    readFrom double gap 0 (c :: r) =
      if isReturnOfPair c r then readFrom double gap 0 r
      else if atSeparator r then .error (.separatorInQuotes, r)
      else readFrom double (gap.line (breakChar c)) 0 r := by
  rw [readFrom.eq_def]
  simp only [stops, if_true]

/-- What a backslash between double quotes is read as, with the text behind it. -/
def readEscape (gap : Gap) : Text → Answer (Text × Text)
  | [] => .error (.unknownEscape none, [])
  | e :: behind =>
    match escape? e, escapeDigits? e with
    | some x, _ => prepend (gap.text ++ [x]) (readFrom true (.blanks []) 0 behind)
    | none, some digits =>
      match numbered digits behind with
      | .ok x =>
        prepend (gap.text ++ [x]) (readFrom true (.blanks []) 0 (behind.drop digits))
      | .error e => .error e
    | none, none =>
      if isBreak e then
        let line := (e :: behind).drop (if isReturnOfPair e behind then 2 else 1)
        if atSeparator line then .error (.separatorInQuotes, line)
        else prepend gap.text (readFrom true (.lines none []) 0 line)
      else .error (.unknownEscape (some e), e :: behind)

theorem readFrom_inside (double : Bool) (gap : Gap) {c : Char} (inside : isBreak c = false)
    (r : Text) :
    readFrom double gap 0 (c :: r) =
      if c == ' ' || c == '\t' then readFrom double (gap.blank c) 0 r
      else if !double && c == '\'' then
        if r.head? == some '\'' then
          prepend (gap.text ++ ['\'']) (readFrom double (.blanks []) 0 (r.drop 1))
        else .ok (gap.text, r)
      else if double && c == '"' then .ok (gap.text, r)
      else if double && c == '\\' then readEscape gap r
      else prepend (gap.text ++ [c]) (readFrom double (.blanks []) 0 r) := by
  rw [readFrom.eq_def]
  simp only [isReturnOfPair_of_inside inside, inside, Bool.false_eq_true, if_false]
  split
  · rfl
  · split
    · rw [readFrom_skip]
    · split
      · rfl
      · split
        · next h =>
          rw [(Bool.and_eq_true_iff.mp h).1]
          cases r with
          | nil => rfl
          | cons e behind =>
            rw [readEscape]
            cases letter : escape? e with
            | some x =>
              simp only [letter]
              rw [readFrom_skip]
              rfl
            | none =>
              cases number : escapeDigits? e with
              | some digits =>
                simp only [letter, number]
                cases numbered digits behind with
                | error fault => rfl
                | ok x =>
                  dsimp only
                  rw [readFrom_skip]
                  rfl
              | none =>
                simp only [letter, number]
                rw [readFrom_skip]
        · rfl

theorem hexNumber?_of_other (acc : Nat) {s t : Text} {c : Char} (other : hexValue? c = none) :
    hexNumber? acc (s ++ c :: t) = none := by
  induction s generalizing acc with
  | nil => simp [hexNumber?, other]
  | cons x r ih =>
    rw [List.cons_append, hexNumber?]
    cases hexValue? x with
    | none => rfl
    | some n => exact ih _

theorem numbered_of_other {digits : Nat} {s t : Text} {c : Char} (other : hexValue? c = none)
    (early : s.length < digits) : ∃ e, numbered digits (s ++ c :: t) = .error e := by
  have cut : (s ++ c :: t).take digits = s ++ c :: t.take (digits - s.length - 1) := by
    obtain ⟨n, rfl⟩ := Nat.exists_eq_add_of_lt early
    rw [List.take_append, List.take_of_length_le (by omega)]
    congr 1
    rw [show s.length + n + 1 - s.length = n + 1 by omega]
    rfl
  rw [numbered, cut, hexNumber?_of_other 0 other]
  exact ⟨_, rfl⟩

/-- The digits of an escape stand on its line. -/
theorem agree_numbered (d digits : Nat) (s : Text) :
    Agree (fun x y => y = x ∧ ∀ c ∈ s.take digits, isBreak c = false) (numbered digits s)
      (numbered digits (inset d s)) := by
  have whole := List.takeWhile_append_dropWhile (p := fun c => (hexValue? c).isSome) (l := s)
  have hexes : ∀ c ∈ s.takeWhile fun c => (hexValue? c).isSome, isBreak c = false := by
    intro c hc
    have digit : (hexValue? c).isSome = true :=
      List.mem_takeWhile_imp (p := fun c => (hexValue? c).isSome) hc
    obtain ⟨n, value⟩ := Option.isSome_iff_exists.mp digit
    exact isBreak_of_hexValue? value
  generalize s.takeWhile (fun c => (hexValue? c).isSome) = h at whole hexes
  have head := List.head?_dropWhile_not (fun c => (hexValue? c).isSome) s
  generalize s.dropWhile (fun c => (hexValue? c).isSome) = t at whole head
  subst whole
  rw [inset_append hexes]
  by_cases early : h.length < digits ∧ t ≠ []
  · obtain ⟨c, u, rfl⟩ := List.exists_cons_of_ne_nil early.2
    have other : hexValue? c = none := by simpa using head
    obtain ⟨e, fault⟩ := numbered_of_other (t := u) other early.1
    obtain ⟨u', more⟩ := exists_inset_cons d c u
    obtain ⟨e', fault'⟩ := numbered_of_other (t := u') other early.1
    rw [more, fault, fault']
    trivial
  · have short : (h ++ inset d t).take digits = (h ++ t).take digits := by
      rcases Nat.lt_or_ge h.length digits with less | enough
      · have none : t = [] := by
          by_contra some
          exact early ⟨less, some⟩
        rw [none, inset_nil]
      · rw [List.take_append_of_le_length enough, List.take_append_of_le_length enough]
    have inside : ∀ c ∈ (h ++ t).take digits, isBreak c = false := by
      intro c hc
      rcases Nat.lt_or_ge h.length digits with less | enough
      · have none : t = [] := by
          by_contra some
          exact early ⟨less, some⟩
        rw [none, List.append_nil] at hc
        exact hexes c (List.mem_of_mem_take hc)
      · rw [List.take_append_of_le_length enough] at hc
        exact hexes c (List.mem_of_mem_take hc)
    unfold numbered
    rw [short]
    dsimp only
    cases hexNumber? 0 ((h ++ t).take digits) with
    | none => trivial
    | some n =>
      dsimp only
      split
      · trivial
      · split
        · trivial
        · exact ⟨rfl, inside⟩

theorem escape?_of_isBreak {c : Char} (stops : isBreak c = true) :
    escape? c = none ∧ escapeDigits? c = none := by
  simp only [isBreak, Bool.or_eq_true, beq_iff_eq] at stops
  rcases stops with (((rfl | rfl) | rfl) | rfl) | rfl <;> decide

theorem moves_readEscape (d : Nat) (gap : Gap) {s : Text} (markless : Markless s)
    (inner : ∀ gap t, t <:+ s →
      Moves d s (readFrom true gap 0 t) (readFrom true gap 0 (inset d t))) :
    Moves d s (readEscape gap s) (readEscape gap (inset d s)) := by
  cases s with
  | nil => trivial
  | cons e behind =>
    have next (gap : Gap) {t : Text} (suffix : t <:+ behind) :=
      inner gap t (suffix.trans (List.suffix_cons e behind))
    cases stops : isBreak e with
    | true =>
      have plain := markless.line stops
      obtain ⟨letter, number⟩ := escape?_of_isBreak stops
      rw [inset_break stops, readEscape, readEscape]
      simp only [letter, number, stops, if_true, isReturnOfPair_insetLine, drop_insetLine,
        atSeparator_of_startsMark plain, atSeparator_insetLine d plain, Bool.false_eq_true, if_false]
      rw [readFrom_insetLine]
      exact moves_prepend (next _ (line_suffix e behind)) _
    | false =>
      rw [inset_inside stops, readEscape, readEscape]
      cases letter : escape? e with
      | some x =>
        simp only
        exact moves_prepend (next _ (List.suffix_refl _)) _
      | none =>
        cases number : escapeDigits? e with
        | none =>
          simp only [stops, Bool.false_eq_true, if_false]
          trivial
        | some digits =>
          obtain ⟨f, f', number, number', -⟩ | ⟨x, y, number, number', rfl, inside⟩ :=
            (agree_numbered d digits behind).cases
          · simp only [number, number']
            trivial
          · simp only [number, number']
            rw [inset_drop inside]
            exact moves_prepend (next _ (List.drop_suffix _ _)) _

/-- What is read between quotes. -/
theorem moves_readFrom (d : Nat) (double : Bool) (gap : Gap) {s : Text} (markless : Markless s) :
    Moves d s (readFrom double gap 0 s) (readFrom double gap 0 (inset d s)) := by
  induction size : s.length using Nat.strongRecOn generalizing gap s with
  | ind n ih =>
    cases s with
    | nil => trivial
    | cons c r =>
      have inner (gap : Gap) (t : Text) (suffix : t <:+ r) :
          Moves d r (readFrom double gap 0 t) (readFrom double gap 0 (inset d t)) := by
        have shorter : t.length < n := by
          have := suffix.length_le
          rw [List.length_cons] at size
          omega
        exact (ih t.length shorter gap (markless.tail.mono suffix) rfl).mono suffix
      refine Moves.mono (t := r) ?_ (List.suffix_cons c r)
      cases stops : isBreak c with
      | true =>
        have line := markless c r (List.suffix_refl _) stops
        rw [inset_break stops, readFrom_break double gap stops, readFrom_break double gap stops,
          isReturnOfPair_insetLine, atSeparator_of_startsMark line, atSeparator_insetLine d line]
        simp only [Bool.false_eq_true, if_false]
        split
        · next pair =>
          rw [insetLine_of_end (atLineEnd_of_pair pair)]
          exact inner gap r (List.suffix_refl r)
        · have lines : ∃ first breaks, gap.line (breakChar c) = .lines first breaks := by
            cases gap <;> exact ⟨_, _, rfl⟩
          obtain ⟨first, breaks, here⟩ := lines
          rw [here, readFrom_insetLine]
          exact inner _ r (List.suffix_refl r)
      | false =>
        rw [inset_inside stops, readFrom_inside double gap stops, readFrom_inside double gap stops,
          head?_inset]
        split
        · exact inner _ r (List.suffix_refl r)
        · split
          · split
            · next twice =>
              rw [beq_iff_eq] at twice
              obtain ⟨t, rfl⟩ := List.head?_eq_some_iff.mp twice
              rw [inset_inside rfl]
              exact moves_prepend (inner _ t (List.suffix_cons _ t)) _
            · exact Moved.refl (List.suffix_refl r)
          · split
            · exact Moved.refl (List.suffix_refl r)
            · split
              · next escape =>
                rw [(Bool.and_eq_true_iff.mp escape).1] at inner
                exact moves_readEscape d gap markless.tail inner
              · exact moves_prepend (inner _ r (List.suffix_refl r)) _

theorem moves_read (d : Nat) (double : Bool) {s : Text} (markless : Markless s) :
    Moves d s (read double s) (read double (inset d s)) :=
  moves_readFrom d double _ markless

end Quoted

namespace Plain

/-- The gap further to the right. -/
def Gap.moved (d : Nat) : Gap → Gap
  | lines first breaks column => lines first breaks (column + d)
  | gap => gap

/-- Readings of a text and of the moved text. -/
structure SameReading (d : Nat) (s : Text) (a b : Reading) : Prop where
  text : b.text = a.text
  rest : b.rest = inset d a.rest
  suffix : a.rest <:+ s
  broke : b.brokeLine = a.brokeLine

theorem SameReading.mono {d : Nat} {s t : Text} {a b : Reading} (h : SameReading d t a b)
    (inner : t <:+ s) : SameReading d s a b :=
  { h with suffix := h.suffix.trans inner }

theorem SameReading.after {d : Nat} {s : Text} {a b : Reading} (h : SameReading d s a b)
    (text : Text) : SameReading d s (a.after text) (b.after text) :=
  { h with text := congrArg (text ++ ·) h.text }

variable {d least least' : Nat} {flow : Bool}

/-- At the start of a line the spaces in front of it are its indentation. -/
theorem readFrom_spaces (flow : Bool) (least : Nat) (first : Char) (breaks : Text) (column : Nat)
    (stop : Text) (n : Nat) (s : Text) :
    readFrom flow least (.lines first breaks column) stop (List.replicate n ' ' ++ s) =
      readFrom flow least (.lines first breaks (column + n)) stop s := by
  induction n generalizing column with
  | zero => rfl
  | succ n ih =>
    rw [List.replicate_succ, List.cons_append, readFrom.eq_def]
    exact (ih (column + 1)).trans (by rw [Nat.add_right_comm]; rfl)

/-- What was left behind the last word, at the start of a text. -/
def Gap.stop (gap : Gap) (stop s : Text) : Text :=
  match gap with
  | word => s
  | _ => stop

/-- The gap with the first half of a line break. -/
def Gap.half : Gap → Gap
  | word => spaces 0
  | gap => gap

theorem readFrom_break (flow : Bool) (least : Nat) (gap : Gap) (stop : Text) {c : Char}
    (stops : isBreak c = true) (r : Text) :
    readFrom flow least gap stop (c :: r) =
      if isReturnOfPair c r then readFrom flow least gap.half (gap.stop stop (c :: r)) r
      else if atSeparator r then
        .done (gap.line (breakChar c)) (gap.stop stop (c :: r)) r
      else readFrom flow least (gap.line (breakChar c)) (gap.stop stop (c :: r)) r := by
  rw [readFrom.eq_def]
  simp only [stops, if_true]
  rfl

theorem readFrom_inside (flow : Bool) (least : Nat) (gap : Gap) (stop : Text) {c : Char}
    (inside : isBreak c = false) (r : Text) :
    readFrom flow least gap stop (c :: r) =
      if c == ' ' then readFrom flow least gap.space (gap.stop stop (c :: r)) r
      else if gap.mayResume flow least c && !endsWord flow (c :: r) then
        (readFrom flow least .word (gap.stop stop (c :: r)) r).after (gap.text ++ [c])
      else .done gap (gap.stop stop (c :: r)) (c :: r) := by
  rw [readFrom.eq_def]
  simp only [isReturnOfPair_of_inside inside, inside, Bool.false_eq_true, if_false]
  rfl

theorem line_moved (gap : Gap) (c : Char) : (gap.moved d).line c = gap.line c := by
  cases gap <;> rfl

theorem half_moved (gap : Gap) : (gap.moved d).half = gap.half.moved d := by
  cases gap <;> rfl

theorem space_moved (gap : Gap) : (gap.moved d).space = gap.space.moved d := by
  cases gap with
  | word | spaces count => rfl
  | lines first breaks column => exact congrArg (Gap.lines first breaks) (Nat.add_right_comm ..)

theorem text_moved (gap : Gap) : (gap.moved d).text = gap.text := by
  cases gap <;> rfl

theorem broke_moved (gap : Gap) : (gap.moved d).broke = gap.broke := by
  cases gap <;> rfl

theorem mayResume_moved (bound : ∀ column, least' ≤ column + d ↔ least ≤ column) (gap : Gap)
    (c : Char) : (gap.moved d).mayResume flow least' c = gap.mayResume flow least c := by
  cases gap with
  | word | spaces count => rfl
  | lines first breaks column => simp only [Gap.moved, Gap.mayResume, bound column]

theorem endsWord_inset (d : Nat) (c : Char) (r : Text) :
    endsWord flow (c :: inset d r) = endsWord flow (c :: r) := by
  rw [endsWord, endsWord, atSpace_inset, head?_inset]

/-- At the end of a line the column counts for nothing. -/
theorem readFrom_column (flow : Bool) (least : Nat) (first : Char) (breaks : Text)
    (column column' : Nat) (stop : Text) {s : Text} (ends : atLineEnd s = true) :
    readFrom flow least (.lines first breaks column) stop s =
      readFrom flow least (.lines first breaks column') stop s := by
  induction s with
  | nil => rfl
  | cons c r ih =>
    have stops : isBreak c = true := ends
    rw [readFrom_break _ _ _ _ stops, readFrom_break _ _ _ _ stops]
    split
    · next pair => exact ih (atLineEnd_of_pair pair)
    · rfl

theorem readFrom_insetLine (flow : Bool) (least : Nat) (first : Char) (breaks stop : Text) (d : Nat)
    (s : Text) :
    readFrom flow least (.lines first breaks 0) stop (insetLine d s) =
      readFrom flow least ((Gap.lines first breaks 0).moved d) stop (inset d s) := by
  cases ends : atLineEnd s with
  | true =>
    rw [insetLine_of_end ends]
    exact readFrom_column _ _ _ _ _ _ _ (by rwa [atLineEnd_inset])
  | false =>
    rw [insetLine_of_visible ends, readFrom_spaces]
    rfl

/-- What is read of a plain scalar, from a gap on. -/
theorem sameReading_readFrom (bound : ∀ column, least' ≤ column + d ↔ least ≤ column) (gap : Gap)
    (stop stop' : Text) {s : Text} (markless : Markless s) :
    SameReading d s (readFrom flow least gap stop s)
      (readFrom flow least' (gap.moved d) stop' (inset d s)) := by
  induction s generalizing gap stop stop' with
  | nil => exact ⟨rfl, rfl, List.suffix_refl _, broke_moved gap⟩
  | cons c r ih =>
    cases stops : isBreak c with
    | true =>
      have line := markless c r (List.suffix_refl _) stops
      rw [inset_break stops, readFrom_break _ _ _ _ stops, readFrom_break _ _ _ _ stops,
        isReturnOfPair_insetLine, atSeparator_of_startsMark line, atSeparator_insetLine d line]
      simp only [Bool.false_eq_true, if_false]
      refine SameReading.mono ?_ (List.suffix_cons c r)
      split
      · next pair =>
        rw [insetLine_of_end (atLineEnd_of_pair pair), half_moved]
        exact ih gap.half _ _ markless.tail
      · have lines : ∃ first breaks, gap.line (breakChar c) = .lines first breaks 0 := by
          cases gap <;> exact ⟨_, _, rfl⟩
        obtain ⟨first, breaks, here⟩ := lines
        rw [line_moved, here, readFrom_insetLine]
        exact ih _ _ _ markless.tail
    | false =>
      rw [inset_inside stops, readFrom_inside _ _ _ _ stops, readFrom_inside _ _ _ _ stops,
        mayResume_moved bound, endsWord_inset, space_moved, text_moved]
      split
      · exact (ih _ _ _ markless.tail).mono (List.suffix_cons c r)
      · split
        · exact ((ih .word _ _ markless.tail).after _).mono (List.suffix_cons c r)
        · exact ⟨rfl, (inset_inside stops).symm, List.suffix_refl _, broke_moved gap⟩

theorem sameReading_read (bound : ∀ column, least' ≤ column + d ↔ least ≤ column) {s : Text}
    (markless : Markless s) : SameReading d s (read flow least s) (read flow least' (inset d s)) :=
  sameReading_readFrom bound .word _ _ markless

end Plain

end YamlEdit.Scan
