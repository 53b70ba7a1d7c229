import YamlEdit.Proofs.Noted.Name

/-!
# Scalars in front of another comment

A scalar that ends before the place reads the same in both texts. The reader of a plain scalar goes on
over the gap behind it, past the place if nothing else comes before: then it stops at the comment in
one text and may stop only on a later line in the other.
-/

namespace YamlEdit.Scan

variable {u v post w w' : Text}

namespace Fork

variable (h : Fork u post w w')
include h

/-- Whether a character comes next that neither starts nor ends what comes behind the place. -/
theorem head_eq {q : Char} (outer : (' ' :: '#' :: breaks).any (· == q) = false) (s : Text) :
    ((s ++ w').head? == some q) = ((s ++ w).head? == some q) := by
  cases s with
  | cons c r => rfl
  | nil =>
    obtain ⟨old, new⟩ := h.still (p := (· == q)) outer
    have none {t : Text} (still : Still (· == q) t) : (t.head? == some q) = false := by
      rw [beq_eq_false_iff_ne]
      intro head
      simpa using still q head
    rw [List.nil_append, List.nil_append, none old, none new]

theorem cons_of_head {q : Char} (sign : q ≠ '#') (inside : isBreak q = false) {s : Text}
    (head : (s ++ w).head? = some q) : ∃ t, s = q :: t := by
  cases s with
  | cons c r =>
    cases head
    exact ⟨r, rfl⟩
  | nil =>
    rcases h.old_head q head with same | stops
    · exact absurd same sign
    · rw [inside] at stops
      cases stops

theorem feed_of_pair {c : Char} {s : Text} (suffix : c :: s <:+ u)
    (pair : isReturnOfPair c (s ++ w) = true) : s.head? = some '\n' := by
  rw [isReturnOfPair, Bool.and_eq_true, beq_iff_eq, beq_iff_eq] at pair
  obtain ⟨rfl, feed⟩ := pair
  cases s with
  | cons d r => exact feed
  | nil => exact absurd feed (h.whole (Margin.getLast?_of_suffix suffix rfl))

/-- The line behind a line break before the place. -/
theorem line_eq {c : Char} {s : Text} (suffix : c :: s <:+ u) (stops : isBreak c = true) :
    ∃ t, t <:+ s ∧
      (c :: (s ++ w)).drop (if isReturnOfPair c (s ++ w) then 2 else 1) = t ++ w ∧
      (c :: (s ++ w')).drop (if isReturnOfPair c (s ++ w') then 2 else 1) = t ++ w' := by
  obtain ⟨t, behind, next, next'⟩ := h.afterBreak?_eq suffix stops
  rw [List.cons_append, afterBreak?_break stops, Option.some_inj] at next next'
  exact ⟨t, behind, next, next'⟩

end Fork

/-! ## Quoted scalars -/

namespace Quoted

/-- An answer of the first that leaves all of what comes behind the place is one of the second. -/
def Stays (v w w' : Text) (x y : Answer (Text × Text)) : Prop :=
  ∀ a, x = .ok a → w.length ≤ a.2.length → ∃ b, y = .ok b ∧ SameRead v w w' a b

variable {x y : Answer (Text × Text)} {t : Text}

theorem Stays.error {e : Failure} : Stays v w w' (.error e) y := by
  rintro _ ⟨⟩

theorem Stays.ok {a : Text} {s : Text} (suffix : s <:+ v) :
    Stays v w w' (.ok (a, s ++ w)) (.ok (a, s ++ w')) := by
  rintro _ ⟨⟩ -
  exact ⟨_, rfl, .refl suffix⟩

theorem Stays.mono (h : Stays t w w' x y) (inner : t <:+ v) : Stays v w w' x y := by
  intro a ha ends
  obtain ⟨b, hb, kept⟩ := h a ha ends
  exact ⟨b, hb, kept.mono inner⟩

theorem Stays.prepend (h : Stays v w w' x y) (text : Text) :
    Stays v w w' (prepend text x) (prepend text y) := by
  rintro ⟨a, rest⟩ ha ends
  cases x with
  | error e => cases ha
  | ok b =>
    cases ha
    obtain ⟨c, rfl, same, left⟩ := h b rfl ends
    exact ⟨_, rfl, congrArg (text ++ ·) same, left⟩

theorem length_readFrom_lt {double : Bool} {gap : Gap} {skip : Nat} {s t rest : Text}
    (h : readFrom double gap skip s = .ok (t, rest)) : rest.length < s.length := by
  fun_induction readFrom double gap skip s generalizing t rest with
  | case1 | case4 | case10 | case13 | case16 => cases h
  | case2 _ _ _ _ ih | case3 _ _ _ _ ih | case5 _ _ _ _ _ _ ih | case6 _ _ _ _ _ _ ih =>
    exact Nat.lt_succ_of_lt (ih h)
  | case8 | case9 => cases h; exact Nat.lt_succ_self _
  | case14 => rename_i apart; rw [if_pos apart] at h; cases h
  | case15 =>
    rename_i apart ih
    rw [if_neg apart] at h
    obtain ⟨u, h⟩ := prepend_eq_ok h
    exact Nat.lt_succ_of_lt (ih h)
  | case7 | case11 | case12 | case17 =>
    rename_i ih
    obtain ⟨u, h⟩ := prepend_eq_ok h
    exact Nat.lt_succ_of_lt (ih h)

variable (h : Fork u post w w')
include h

/-- The digits of an escape stand before the place. -/
theorem kept_numbered {digits : Nat} {s : Text} {x : Char} (read : numbered digits (s ++ w) = .ok x) :
    digits ≤ s.length ∧ numbered digits (s ++ w') = .ok x := by
  have enough : digits ≤ s.length := by
    by_contra early
    have early := Nat.lt_of_not_le early
    cases w with
    | nil =>
      rw [List.append_nil, numbered] at read
      split at read
      · rw [if_pos (by rw [List.length_take]; omega)] at read
        cases read
      · cases read
    | cons c r =>
      have other : hexValue? c = none := by simpa using h.still_hex.1.head
      obtain ⟨e, fault⟩ := numbered_of_other (t := r) other early
      rw [fault] at read
      cases read
  refine ⟨enough, ?_⟩
  rw [numbered, List.take_append_of_le_length enough] at read ⊢
  cases number : hexNumber? 0 (s.take digits) with
  | none =>
    rw [number] at read
    cases read
  | some n =>
    rw [number] at read
    dsimp only at read ⊢
    split at read
    · cases read
    · split at read
      · cases read
      · next short big => rw [if_neg short, if_neg big, read]

omit h in
/-- Nothing is read between quotes that starts at the place and ends before it. -/
theorem stays_nil (double : Bool) (gap : Gap) :
    Stays [] w w' (readFrom double gap 0 w) (readFrom double gap 0 w') := by
  rintro ⟨t, rest⟩ read ends
  exact absurd (length_readFrom_lt read) (Nat.not_lt_of_le ends)

theorem stays_readEscape_nil (gap : Gap) :
    Stays [] w w' (readEscape gap w) (readEscape gap w') := by
  rintro ⟨t, rest⟩ read ends
  cases w with
  | nil => cases read
  | cons e r =>
    rcases h.old_head e rfl with rfl | stops
    · cases read
    · obtain ⟨letter, number⟩ := escape?_of_isBreak stops
      have line := (line_suffix e r).length_le
      rw [readEscape] at read
      simp only [letter, number, stops, if_true] at read
      generalize (e :: r).drop _ = next at read line
      split at read
      · cases read
      · obtain ⟨text, read⟩ := prepend_eq_ok read
        have shorter := length_readFrom_lt read
        rw [List.length_cons] at ends
        dsimp only at ends
        omega

theorem stays_readEscape (gap : Gap) {v : Text} (inside : v <:+ u)
    (inner : ∀ gap t, t <:+ v →
      Stays t w w' (readFrom true gap 0 (t ++ w)) (readFrom true gap 0 (t ++ w'))) :
    Stays v w w' (readEscape gap (v ++ w)) (readEscape gap (v ++ w')) := by
  cases v with
  | nil => exact stays_readEscape_nil h gap
  | cons e behind =>
    have next (gap : Gap) {t : Text} (suffix : t <:+ behind) :=
      (inner gap t (suffix.trans (List.suffix_cons e behind))).mono
        (suffix.trans (List.suffix_cons e behind))
    rw [List.cons_append, List.cons_append, readEscape, readEscape]
    cases stops : isBreak e with
    | true =>
      obtain ⟨letter, number⟩ := escape?_of_isBreak stops
      obtain ⟨t, suffix, line, line'⟩ := h.line_eq inside stops
      simp only [letter, number, if_true]
      rw [line, line', h.atSeparator_eq]
      split
      · exact .error
      · exact (next _ suffix).prepend _
    | false =>
      cases letter : escape? e with
      | some x => exact (next _ (List.suffix_refl _)).prepend _
      | none =>
        cases number : escapeDigits? e with
        | none => exact .error
        | some digits =>
          dsimp only
          cases read : numbered digits (behind ++ w) with
          | error e => exact .error
          | ok x =>
            obtain ⟨enough, read'⟩ := kept_numbered h read
            rw [read', List.drop_append_of_le_length enough, List.drop_append_of_le_length enough]
            exact (next _ (List.drop_suffix _ _)).prepend _

/-- What is read between quotes. -/
theorem stays_readFrom (double : Bool) (gap : Gap) {v : Text} (inside : v <:+ u) :
    Stays v w w' (readFrom double gap 0 (v ++ w)) (readFrom double gap 0 (v ++ w')) := by
  induction size : v.length using Nat.strongRecOn generalizing gap v with
  | ind n ih =>
    cases v with
    | nil => exact stays_nil double gap
    | cons c r =>
      have inner (gap : Gap) (t : Text) (suffix : t <:+ r) :
          Stays t w w' (readFrom double gap 0 (t ++ w)) (readFrom double gap 0 (t ++ w')) := by
        have shorter : t.length < n := by
          have := suffix.length_le
          rw [List.length_cons] at size
          omega
        exact ih t.length shorter gap (suffix.trans ((List.suffix_cons c r).trans inside)) rfl
      refine Stays.mono (t := r) ?_ (List.suffix_cons c r)
      rw [List.cons_append, List.cons_append]
      cases stops : isBreak c with
      | true =>
        rw [readFrom_break double gap stops, readFrom_break double gap stops, h.pair_eq inside,
          h.atSeparator_eq]
        split
        · exact inner gap r (List.suffix_refl r)
        · split
          · exact .error
          · exact inner _ r (List.suffix_refl r)
      | false =>
        rw [readFrom_inside double gap stops, readFrom_inside double gap stops,
          h.head_eq (q := '\'') rfl]
        split
        · exact inner _ r (List.suffix_refl r)
        · split
          · split
            · next twice =>
              rw [beq_iff_eq] at twice
              obtain ⟨t, rfl⟩ := h.cons_of_head (by decide) rfl twice
              exact ((inner _ t (List.suffix_cons _ t)).mono (List.suffix_cons _ t)).prepend _
            · exact .ok (List.suffix_refl r)
          · split
            · exact .ok (List.suffix_refl r)
            · split
              · next escape =>
                rw [(Bool.and_eq_true_iff.mp escape).1] at inner
                exact stays_readEscape h gap ((List.suffix_cons c r).trans inside) inner
              · exact (inner _ r (List.suffix_refl r)).prepend _

theorem stays_read (double : Bool) {v : Text} (inside : v <:+ u) :
    Stays v w w' (read double (v ++ w)) (read double (v ++ w')) :=
  stays_readFrom h double _ inside

end Quoted

/-! ## Plain scalars -/

namespace Plain

/-- Readings of a plain scalar that ends before the place. The way over the gap behind it is the same
if it ends before the place as well. -/
structure Halts (v w w' : Text) (a b : Reading) : Prop where
  text : b.text = a.text
  stop : ∃ s, s <:+ v ∧ a.stop = s ++ w ∧ b.stop = s ++ w'
  rest : w.length < a.rest.length →
    ∃ s, s <:+ v ∧ a.rest = s ++ w ∧ b.rest = s ++ w' ∧ b.brokeLine = a.brokeLine

theorem Halts.after {a b : Reading} (h : Halts v w w' a b) (text : Text) :
    Halts v w w' (a.after text) (b.after text) :=
  { h with text := congrArg (text ++ ·) h.text }

/-- From a gap on no word comes, or the scalar ends further on. -/
theorem readFrom_idle (flow : Bool) (least : Nat) {gap : Gap} (outside : gap ≠ .word) (stop s : Text) :
    (readFrom flow least gap stop s).text = [] ∧ (readFrom flow least gap stop s).stop = stop ∨
      (readFrom flow least gap stop s).stop.length < s.length := by
  have kept (gap : Gap) (outside : gap ≠ .word) (s : Text) : gap.stop stop s = stop := by
    cases gap with
    | word => exact absurd rfl outside
    | spaces | lines => rfl
  induction s generalizing gap with
  | nil =>
    refine .inl ⟨rfl, ?_⟩
    exact kept gap outside []
  | cons c r ih =>
    have next {gap : Gap} (outside : gap ≠ .word) := (ih outside).imp_right (Nat.lt_succ_of_lt)
    cases stops : isBreak c with
    | true =>
      rw [readFrom_break _ _ _ _ stops, kept gap outside]
      split
      · exact next (by cases gap <;> simp_all [Gap.half])
      · split
        · exact .inl ⟨rfl, rfl⟩
        · exact next (by cases gap <;> simp [Gap.line])
    | false =>
      rw [readFrom_inside _ _ _ _ stops, kept gap outside]
      split
      · exact next (by cases gap <;> simp [Gap.space])
      · split
        · refine .inr (Nat.lt_succ_of_le ?_)
          have bound := length_readFrom_stop_le flow least .word stop r
          rwa [Gap.bound, Nat.max_zero] at bound
        · exact .inl ⟨rfl, rfl⟩

theorem suffix_readFrom_rest (flow : Bool) (least : Nat) (gap : Gap) (stop s : Text) :
    (readFrom flow least gap stop s).rest <:+ s := by
  fun_induction readFrom flow least gap stop s with
  | case1 => exact List.suffix_refl []
  | case2 _ _ c r _ _ ih => exact ih.trans (List.suffix_cons c r)
  | case3 _ _ c r => exact List.suffix_cons c r
  | case4 _ _ c r _ _ _ _ _ ih => exact ih.trans (List.suffix_cons c r)
  | case5 _ _ c r _ _ _ _ ih => exact ih.trans (List.suffix_cons c r)
  | case6 _ _ c r _ _ _ _ _ ih => exact ih.trans (List.suffix_cons c r)
  | case7 _ _ c r => exact List.suffix_refl (c :: r)

/-- A plain scalar that does not go on behind the end of a line has nothing there but its gap. -/
theorem readFrom_lineEnd (flow : Bool) (least : Nat) (gap : Gap) (stop : Text) {s : Text}
    (line : atLineEnd s = true) (ends : s.length ≤ (readFrom flow least gap stop s).stop.length) :
    (readFrom flow least gap stop s).text = [] ∧
      (readFrom flow least gap stop s).stop = gap.stop stop s := by
  cases s with
  | nil => exact ⟨rfl, rfl⟩
  | cons c r =>
    have next {gap' : Gap} (outside : gap' ≠ .word)
        (ends : (c :: r).length ≤ (readFrom flow least gap' (gap.stop stop (c :: r)) r).stop.length) :=
      (readFrom_idle flow least outside (gap.stop stop (c :: r)) r).resolve_right fun shorter => by
        rw [List.length_cons] at ends
        omega
    rw [readFrom_break _ _ _ _ line] at ends ⊢
    split at ends
    · next pair =>
      rw [if_pos pair]
      exact next (by cases gap <;> simp [Gap.half]) ends
    · next alone =>
      rw [if_neg alone]
      split at ends
      · next mark =>
        rw [if_pos mark]
        exact ⟨rfl, rfl⟩
      · next mark =>
        rw [if_neg mark]
        exact next (by cases gap <;> simp [Gap.line]) ends

/-- A comment is part of a word only inside of one. -/
theorem readFrom_sign (flow : Bool) (least : Nat) {gap : Gap} (outside : gap ≠ .word) (stop r : Text) :
    readFrom flow least gap stop ('#' :: r) = .done gap stop ('#' :: r) := by
  rw [readFrom_inside _ _ _ _ rfl]
  cases gap with
  | word => exact absurd rfl outside
  | spaces | lines => simp [Gap.mayResume, Gap.stop]

section

variable (h : Fork u post w w') (flow : Bool) (least : Nat)
include h

theorem halts_nil (gap : Gap) {z : Text} (behind : z <:+ v)
    (ends : w.length ≤ (readFrom flow least gap (z ++ w) w).stop.length) :
    Halts v w w' (readFrom flow least gap (z ++ w) w) (readFrom flow least gap (z ++ w') w') := by
  have far := Nat.not_lt_of_le (suffix_readFrom_rest flow least gap (z ++ w) w).length_le
  have stop : ∃ s, s <:+ v ∧ gap.stop (z ++ w) w = s ++ w ∧ gap.stop (z ++ w') w' = s ++ w' := by
    cases gap with
    | word => exact ⟨[], List.nil_suffix, rfl, rfl⟩
    | spaces | lines => exact ⟨z, behind, rfl, rfl⟩
  cases h.noted with
  | @replaced x y =>
    by_cases inside : gap = .word
    · subst inside
      have bound := length_readFrom_stop_le flow least .word ('#' :: (x ++ post)) (x ++ post)
      rw [Gap.bound, Nat.max_zero] at bound
      have word : endsWord flow ('#' :: (x ++ post)) = false := by cases flow <;> rfl
      rw [readFrom_inside _ _ _ _ rfl, word, List.length_cons] at ends
      exact absurd ends (Nat.not_le_of_lt (Nat.lt_succ_of_le bound))
    · refine ⟨?_, ?_, fun before => absurd before far⟩
      · rw [readFrom_sign _ _ inside, readFrom_sign _ _ inside]
        rfl
      · rw [readFrom_sign _ _ inside, readFrom_sign _ _ inside]
        exact ⟨z, behind, rfl, rfl⟩
  | @added y =>
    obtain ⟨none, here⟩ := readFrom_lineEnd flow least gap (z ++ post) h.ends ends
    have new : readFrom flow least gap (z ++ ' ' :: '#' :: (y ++ post)) (' ' :: '#' :: (y ++ post)) =
        .done gap.space (gap.stop (z ++ ' ' :: '#' :: (y ++ post)) (' ' :: '#' :: (y ++ post)))
          ('#' :: (y ++ post)) := by
      rw [readFrom_inside _ _ _ _ rfl]
      exact readFrom_sign _ _ (by cases gap <;> simp [Gap.space]) _ _
    rw [new]
    refine ⟨none.symm, ?_, fun before => absurd before far⟩
    rw [here]
    exact stop

theorem endsWord_eq (c : Char) (s : Text) : endsWord flow (c :: (s ++ w')) = endsWord flow (c :: (s ++ w)) := by
  have head : ((s ++ w').head?.any fun d => ",[]\x7b\x7d".toList.contains d) =
      ((s ++ w).head?.any fun d => ",[]\x7b\x7d".toList.contains d) := by
    cases s with
    | cons d r => rfl
    | nil =>
      obtain ⟨old, new⟩ := h.still (p := fun d => ",[]\x7b\x7d".toList.contains d)
        (by decide)
      have none {t : Text} (still : Still (fun d => ",[]\x7b\x7d".toList.contains d) t) :
          (t.head?.any fun d => ",[]\x7b\x7d".toList.contains d) = false := by
        cases t with
        | nil => rfl
        | cons c r => exact still.head
      rw [List.nil_append, List.nil_append, none old, none new]
  rw [endsWord, endsWord, h.atSpace_eq, head]

/-- What is read of a plain scalar, from a gap on. -/
theorem halts_readFrom (gap : Gap) {x z : Text} (inside : v <:+ u) (all : x <:+ v) (behind : z <:+ v)
    (ends : w.length ≤ (readFrom flow least gap (z ++ w) (x ++ w)).stop.length) :
    Halts v w w' (readFrom flow least gap (z ++ w) (x ++ w))
      (readFrom flow least gap (z ++ w') (x ++ w')) := by
  induction x generalizing gap z with
  | nil => exact halts_nil h flow least gap behind ends
  | cons c r ih =>
    have rest := (List.suffix_cons c r).trans all
    have stop : ∃ s, s <:+ v ∧ gap.stop (z ++ w) (c :: (r ++ w)) = s ++ w ∧
        gap.stop (z ++ w') (c :: (r ++ w')) = s ++ w' := by
      cases gap with
      | word => exact ⟨c :: r, all, rfl, rfl⟩
      | spaces | lines => exact ⟨z, behind, rfl, rfl⟩
    obtain ⟨s, suffix, old, new⟩ := stop
    have next {gap : Gap} (ends : w.length ≤ (readFrom flow least gap (s ++ w) (r ++ w)).stop.length) :=
      ih gap rest suffix ends
    have done (gap : Gap) {t : Text} (inner : t <:+ v) :
        Halts v w w' (.done gap (s ++ w) (t ++ w)) (.done gap (s ++ w') (t ++ w')) :=
      ⟨rfl, ⟨s, suffix, rfl, rfl⟩, fun _ => ⟨t, inner, rfl, rfl, rfl⟩⟩
    rw [List.cons_append, List.cons_append] at *
    cases stops : isBreak c with
    | true =>
      rw [readFrom_break _ _ _ _ stops] at ends ⊢
      rw [readFrom_break _ _ _ _ stops, h.pair_eq (all.trans inside), h.atSeparator_eq, old, new]
      rw [old] at ends
      split at ends
      · next pair =>
        rw [if_pos pair, if_pos pair]
        exact next ends
      · next alone =>
        rw [if_neg alone, if_neg alone]
        split at ends
        · next mark =>
          rw [if_pos mark, if_pos mark]
          exact done _ rest
        · next mark =>
          rw [if_neg mark, if_neg mark]
          exact next ends
    | false =>
      rw [readFrom_inside _ _ _ _ stops] at ends ⊢
      rw [readFrom_inside _ _ _ _ stops, endsWord_eq h, old, new]
      rw [old] at ends
      split at ends
      · next space =>
        rw [if_pos space, if_pos space]
        exact next ends
      · next other =>
        rw [if_neg other, if_neg other]
        split at ends
        · next more =>
          rw [if_pos more, if_pos more]
          exact (next ends).after _
        · next stopped =>
          rw [if_neg stopped, if_neg stopped]
          exact done gap all

theorem halts_read {v : Text} (inside : v <:+ u)
    (ends : w.length ≤ (read flow least (v ++ w)).stop.length) :
    Halts v w w' (read flow least (v ++ w)) (read flow least (v ++ w')) :=
  halts_readFrom h flow least .word inside (List.suffix_refl v) (List.suffix_refl v) ends

end

/-- Spaces and line breaks lead from one place to another, and whether there is a line break. -/
def Spans (broke : Bool) (stop rest : Text) : Prop :=
  ∃ g, stop = g ++ rest ∧ (∀ c ∈ g, c = ' ' ∨ isBreak c = true) ∧ broke = g.any isBreak

theorem Spans.refl (s : Text) : Spans false s s :=
  ⟨[], rfl, by simp, rfl⟩

theorem Spans.space {broke : Bool} {stop r : Text} (h : Spans broke stop (' ' :: r)) :
    Spans broke stop r := by
  obtain ⟨g, whole, blank, same⟩ := h
  refine ⟨g ++ [' '], by rw [whole, List.append_assoc]; rfl, ?_, ?_⟩
  · simpa [or_imp, forall_and] using blank
  · simpa [isBreak] using same

theorem Spans.line {broke : Bool} {stop r : Text} {c : Char} (h : Spans broke stop (c :: r))
    (stops : isBreak c = true) : Spans true stop r := by
  obtain ⟨g, whole, blank, -⟩ := h
  refine ⟨g ++ [c], by rw [whole, List.append_assoc]; rfl, ?_, by simp [stops]⟩
  intro d hd
  rcases List.mem_append.mp hd with inner | last
  · exact blank d inner
  · rw [List.mem_singleton.mp last]
    exact .inr stops

/-- A gap lies between the last word and the place of reading, which may be inside of a line break. -/
def Gap.Lies (gap : Gap) (stop s : Text) : Prop :=
  Spans gap.broke (gap.stop stop s) s ∨ Spans true (gap.stop stop s) s ∧ s.head? = some '\n'

theorem Gap.Lies.spans {gap : Gap} {stop s : Text} (h : gap.Lies stop s) (inside : s.head? ≠ some '\n') :
    Spans gap.broke (gap.stop stop s) s :=
  h.resolve_right fun half => inside half.2

theorem Gap.Lies.line {gap : Gap} {stop r : Text} {c : Char} (h : gap.Lies stop (c :: r))
    (stops : isBreak c = true) : Spans true (gap.stop stop (c :: r)) r :=
  h.elim (fun here => here.line stops) fun half => half.1.line stops

/-- Behind the last word of a plain scalar come spaces and line breaks only. -/
theorem spans_readFrom (flow : Bool) (least : Nat) (gap : Gap) (stop s : Text) (lies : gap.Lies stop s) :
    Spans (readFrom flow least gap stop s).brokeLine (readFrom flow least gap stop s).stop
      (readFrom flow least gap stop s).rest := by
  induction s generalizing gap stop with
  | nil => exact lies.spans (by simp)
  | cons c r ih =>
    have outer {gap' : Gap} (outside : gap' ≠ .word) (stop r : Text) : gap'.stop stop r = stop := by
      cases gap' with
      | word => exact absurd rfl outside
      | spaces | lines => rfl
    cases stops : isBreak c with
    | true =>
      have behind := lies.line stops
      rw [readFrom_break _ _ _ _ stops]
      split
      · next pair =>
        rw [isReturnOfPair, Bool.and_eq_true, beq_iff_eq, beq_iff_eq] at pair
        refine ih gap.half _ (.inr ⟨?_, pair.2⟩)
        rwa [outer (by cases gap <;> simp [Gap.half])]
      · have broke : (gap.line (breakChar c)).broke = true := by cases gap <;> rfl
        split
        · show Spans (gap.line (breakChar c)).broke _ _
          rw [broke]
          exact behind
        · refine ih (gap.line (breakChar c)) _ (.inl ?_)
          rw [broke, outer (by cases gap <;> simp [Gap.line])]
          exact behind
    | false =>
      have here := lies.spans fun feed => by
        rw [Option.some.inj feed] at stops
        cases stops
      rw [readFrom_inside _ _ _ _ stops]
      split
      · next space =>
        rw [beq_iff_eq] at space
        subst space
        refine ih gap.space _ (.inl ?_)
        have broke : gap.space.broke = gap.broke := by cases gap <;> rfl
        rw [broke, outer (by cases gap <;> simp [Gap.space])]
        exact here.space
      · split
        · exact ih .word _ (.inl (.refl r))
        · exact here

theorem spans_read (flow : Bool) (least : Nat) (s : Text) :
    Spans (read flow least s).brokeLine (read flow least s).stop (read flow least s).rest :=
  spans_readFrom flow least .word s s (.inl (.refl s))

end Plain

end YamlEdit.Scan
