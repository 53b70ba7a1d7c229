import YamlEdit.Proofs.Noted.Scanner
import YamlEdit.Proofs.Tree.Origins

/-!
# Fetching in front of another comment

A fetch leads from states in front of the place to states in front of it, or the ways to the next
tokens meet behind its line. What has to be known of the tokens is that none of them lies over the
place but a block scalar of which the place ends the first line: the fetches of the other text are
then the same, token by token.

A plain scalar is read on over the gap behind it, in search of its next word. In front of another
comment it is not, and then the way to the next token goes over the gap.
-/

namespace YamlEdit

open Scan

/-- A token that does not lie over the end of the text `u`. A block scalar in front of it has
something else than spaces behind it, or `u` ends in its first line. -/
def Token.Clears (u : Text) (t : Token) : Prop :=
  t.start.index < u.length →
    (t.stop.index ≤ u.length ∧
      (t.kind.isBlockScalar = true → ∃ c ∈ u.drop t.stop.index, c ≠ ' ')) ∨
    t.kind.isBlockScalar = true ∧ ∀ c ∈ u.drop t.start.index, isBreak c = false

namespace Scan.Scanner

variable {u v post w w' source : Text} {s t : Scanner}

/-- No candidate is in a later line than the scanner. -/
def Early (s : Scanner) : Prop :=
  ∀ k ∈ s.candidates, k.mark.line ≤ s.cursor.mark.line

theorem Early.addCandidate (early : s.Early) {a : Scanner} (added : s.addCandidate = .ok a) :
    a.Early ∧ a.level = s.level ∧ a.indent = s.indent := by
  rcases addCandidate_eq_ok added with rfl | ⟨l, required, sub, -, rfl⟩
  · exact ⟨early, rfl, rfl⟩
  · refine ⟨fun k hk => ?_, rfl, rfl⟩
    rcases List.mem_append.mp hk with hk | hk
    · exact early k (sub.mem hk)
    · rw [List.mem_singleton.mp hk]

theorem Early.takeTo (early : s.Early) (kind : Token.Kind) (rest : Text) : (s.takeTo kind rest).Early :=
  fun k hk => Nat.le_trans (early k hk) (Cursor.line_le_reach s.cursor rest)

/-! ## Over a byte order mark -/

theorem skipMark_of_behind (behind : 0 < s.cursor.mark.index) : s.skipMark = s := by
  have other : (s.cursor.mark.index == 0) = false := beq_eq_false_iff_ne.mpr (by omega)
  rw [skipMark]
  split
  · rw [other, Bool.false_and, if_neg Bool.false_ne_true]
  · rfl

theorem skipMark_of_head (other : s.cursor.rest.head? ≠ some '\uFEFF') : s.skipMark = s := by
  rw [skipMark]
  split
  · next c r here =>
    have apart : (c == '\uFEFF') = false := by
      rw [here] at other
      simpa using other
    rw [apart, Bool.and_false, if_neg Bool.false_ne_true]
  · rfl

theorem skipMark_cons {c : Char} {r : Text} (here : s.cursor.rest = c :: r) :
    s.skipMark =
      if s.cursor.mark.index == 0 && c == '\uFEFF' then { s with cursor := s.cursor.reach r } else s := by
  rw [skipMark, here]

theorem line_le_skipMark (s : Scanner) : s.cursor.mark.line ≤ s.skipMark.cursor.mark.line := by
  rw [skipMark]
  split
  · split
    · exact Cursor.line_le_reach _ _
    · exact Nat.le_refl _
  · exact Nat.le_refl _

theorem Facing.stays_skipMark (h : Fork u post w w') (inside : v <:+ u)
    (f : Facing source v w w' s t) : Stays source v w w' s.skipMark t.skipMark := by
  have unmarked {x : Text} (still : Still (· == '\uFEFF') x) : x.head? ≠ some '\uFEFF' :=
    fun mark => by simpa using still _ mark
  obtain ⟨old, new⟩ := h.still (p := (· == '\uFEFF')) rfl
  cases v with
  | nil =>
    rw [skipMark_of_head (s := s) (by rw [f.rest]; exact unmarked old),
      skipMark_of_head (s := t) (by rw [f.same]; exact unmarked new)]
    exact ⟨[], List.suffix_refl [], f⟩
  | cons c v =>
    have gone := f.move h inside (List.suffix_cons c v)
    have same := f.same
    subst same
    rw [skipMark_cons f.rest, skipMark_cons (s := s.onto source (c :: v ++ w')) rfl]
    split
    · next mark =>
      rw [if_pos (by exact mark)]
      exact ⟨v, List.suffix_cons c v, gone⟩
    · next other =>
      rw [if_neg (by exact other)]
      exact ⟨c :: v, List.suffix_refl _, f⟩

theorem Facing.meets (h : Fork u post w w') (inside : v <:+ u) (f : Facing source v w w' s t)
    (early : s.Early) : Meets u source w w' s.atNext t.atNext := by
  obtain ⟨z, suffix, skipped⟩ := f.stays_skipMark h inside
  obtain ⟨c, shape⟩ := skipMark_shape s
  refine meets_toNextToken h (suffix.trans inside) skipped (fun k hk => ?_)
    (Nat.lt_succ_of_le (past_skipMark s).length_le) (Nat.lt_succ_of_le (past_skipMark t).length_le)
  rw [shape] at hk
  exact Nat.le_trans (early k hk) (line_le_skipMark s)

theorem Crossed.atNext (x : Crossed s t) : Crossed s.atNext t.atNext := by
  have skipped : s.skipMark = s ∧ t.skipMark = t := by
    rcases x.rejoined with ⟨none, none'⟩ | ⟨-, behind, behind', -⟩
    · exact ⟨skipMark_of_head (by rw [none]; nofun), skipMark_of_head (by rw [none']; nofun)⟩
    · exact ⟨skipMark_of_behind behind, skipMark_of_behind behind'⟩
  rw [Scanner.atNext, Scanner.atNext, skipped.1, skipped.2]
  exact crossed_toNextToken x (Nat.lt_succ_self _) (Nat.lt_succ_self _)

/-- What a fetch leads to: states in front of the place, or ways to the next tokens that end past it. -/
def Joined (u source w w' : Text) (s t : Scanner) : Prop :=
  (∃ v, v <:+ u ∧ Facing source v w w' s t) ∨ Crossed s.atNext t.atNext

theorem Stays.joined (stays : Stays source v w w' s t) (inside : v <:+ u) :
    Joined u source w w' s t := by
  obtain ⟨z, suffix, f⟩ := stays
  exact .inl ⟨z, suffix.trans inside, f⟩

theorem Joined.meets (h : Fork u post w w') (joined : Joined u source w w' s t)
    (early : s.Early) : Meets u source w w' s.atNext t.atNext := by
  rcases joined with ⟨v, inside, f⟩ | crossed
  · exact f.meets h inside early
  · exact .crossed crossed

/-! ## Behind a plain scalar -/

section Gap

variable {broke : Bool} {rest : Text} (behind : 0 < s.cursor.mark.index)
  (unkeyed : s.keyAllowed = false) (spans : Plain.Spans broke s.cursor.rest rest)
include behind spans

/-- The gap that was read on over is gone over on the way to the next token anyway. -/
theorem atNext_gap : ∃ n, rest.length < n ∧
    ({ s with cursor := s.cursor.reach rest, keyAllowed := broke } : Scanner).atNext =
      toNextToken n { s with cursor := s.cursor.reach rest, keyAllowed := broke } ∧
    s.atNext = toNextToken n
      { s with
        cursor := s.cursor.reach rest, keyAllowed := s.keyAllowed || (s.level == 0 && broke) } := by
  obtain ⟨g, here, blank, rfl⟩ := spans
  have suffix : rest <:+ s.cursor.rest := here ▸ List.suffix_append g rest
  have there := Cursor.rest_reach_of_suffix suffix
  have further := Nat.lt_of_lt_of_le behind (le_reach s.cursor rest)
  refine ⟨rest.length + 1, Nat.lt_succ_self _, ?_, ?_⟩
  · rw [atNext, skipMark_of_behind (by exact further)]
    dsimp only
    rw [there]
  · rw [atNext, skipMark_of_behind behind]
    exact toNextToken_spans blank here (Nat.lt_succ_self _) (Nat.lt_succ_self _)

include unkeyed in
theorem atNext_gap_outside (outside : s.level = 0) :
    ({ s with cursor := s.cursor.reach rest, keyAllowed := broke } : Scanner).atNext = s.atNext := by
  obtain ⟨n, -, there, same⟩ := atNext_gap behind spans
  rw [there, same, unkeyed, outside]
  rfl

theorem atNext_gap_within (within : s.level ≠ 0) :
    ({ s with cursor := s.cursor.reach rest, keyAllowed := broke } : Scanner).atNext =
      { s.atNext with keyAllowed := broke } := by
  obtain ⟨n, -, there, same⟩ := atNext_gap behind spans
  have level : (s.level == 0) = false := beq_eq_false_iff_ne.mpr within
  rw [there, same, ← toNextToken_within (by exact within)]

theorem length_atNext_gap : s.atNext.cursor.rest.length ≤ rest.length := by
  obtain ⟨n, -, -, same⟩ := atNext_gap behind spans
  have left := (past_toNextToken n
    { s with
      cursor := s.cursor.reach rest, keyAllowed := s.keyAllowed || (s.level == 0 && broke) }).length_le
  obtain ⟨g, here, -⟩ := spans
  have there := Cursor.rest_reach_of_suffix (here ▸ List.suffix_append g rest)
  rw [same]
  exact Nat.le_trans left (Nat.le_of_eq (congrArg List.length there))

end Gap

theorem endsInScalar_takeTo (s : Scanner) (text : Text) (quoting : Quoting) (rest : Text) :
    (s.takeTo (.scalar text quoting) rest).EndsInScalar := by
  refine ⟨text, quoting, ?_⟩
  rw [takeTo, push, List.getLast?_concat]
  rfl

/-- Whether a plain scalar was read on over the gap behind it or not, the next tokens are the same. -/
theorem Crossed.gap {broke broke' : Bool} {rest rest' : Text} (x : Crossed s.atNext t.atNext)
    (behind : 0 < s.cursor.mark.index) (behind' : 0 < t.cursor.mark.index)
    (unkeyed : s.keyAllowed = false) (unkeyed' : t.keyAllowed = false)
    (spans : Plain.Spans broke s.cursor.rest rest) (spans' : Plain.Spans broke' t.cursor.rest rest')
    (scalar : s.EndsInScalar) :
    Crossed
      ({ s with cursor := s.cursor.reach rest, keyAllowed := broke } : Scanner).atNext
      ({ t with cursor := t.cursor.reach rest', keyAllowed := broke' } : Scanner).atNext := by
  have level : t.level = s.level := by simpa using x.level
  by_cases outside : s.level = 0
  · rw [atNext_gap_outside behind unkeyed spans outside,
      atNext_gap_outside behind' unkeyed' spans' (level.trans outside)]
    exact x
  · rw [atNext_gap_within behind spans outside,
      atNext_gap_within behind' spans' (by rw [level]; exact outside)]
    refine { x with allowed := .inr ⟨?_, ?_⟩ }
    · rwa [level_atNext]
    · obtain ⟨text, quoting, last⟩ := scalar
      exact ⟨text, quoting, by rw [queue_atNext]; exact last⟩

/-- A plain scalar in front of the place, read on over the gap behind it to a place behind. -/
theorem Facing.crossed_gap (h : Fork u post w w') (inside : v <:+ u) (f : Facing source v w w' s t)
    (early : s.Early) (behind : 0 < s.cursor.mark.index) (unkeyed : s.keyAllowed = false)
    (scalar : s.EndsInScalar) {broke broke' : Bool} {rest rest' : Text}
    (spans : Plain.Spans broke (v ++ w) rest) (spans' : Plain.Spans broke' (v ++ w') rest')
    (beyond : rest.length ≤ w.length) :
    Crossed
      ({ s with cursor := s.cursor.reach rest, keyAllowed := broke } : Scanner).atNext
      ({ t with cursor := t.cursor.reach rest', keyAllowed := broke' } : Scanner).atNext := by
  have meets := f.meets h inside early
  have spans : Plain.Spans broke s.cursor.rest rest := by rwa [f.rest]
  have spans' : Plain.Spans broke' t.cursor.rest rest' := by rwa [f.same]
  have behind' : 0 < t.cursor.mark.index := by rwa [f.same]
  have unkeyed' : t.keyAllowed = false := by rwa [f.same]
  cases meets with
  | crossed x => exact x.gap behind behind' unkeyed unkeyed' spans spans' scalar
  | facing _ f =>
    have left := length_atNext_gap behind spans
    rw [f.rest, List.length_append, List.length_cons] at left
    omega

section Tokens

variable {c : Char} (h : Fork u post w w') (inside : c :: v <:+ u)
  (f : Facing source (c :: v) w w' s t) (early : s.Early)
include h inside f early

theorem joined_fetchPlain {x : Scanner} (hx : s.fetchPlain = .ok x)
    (ends : w.length ≤ (Plain.read (s.level != 0) (s.indent + 1).toNat s.cursor.rest).stop.length)
    (taken : (Plain.read (s.level != 0) (s.indent + 1).toNat s.cursor.rest).stop.length <
      s.cursor.rest.length) :
    ∃ y, t.fetchPlain = .ok y ∧ Joined u source w w' x y := by
  rw [fetchPlain] at hx ⊢
  obtain ⟨a, added, hx⟩ := bind_eq_ok.mp hx
  obtain ⟨_, added', ⟨rest, rfl⟩, cursor⟩ := f.carries_addCandidate a added
  obtain ⟨early, level, indent⟩ := early.addCandidate added
  have faces : Facing source (c :: v) w w' a (a.onto source (c :: v ++ w')) := ⟨rest, rfl⟩
  cases hx
  refine ⟨_, bind_eq_ok.mpr ⟨_, added', rfl⟩, ?_⟩
  rw [← cursor, ← level, ← indent] at ends taken
  rw [rest] at ends taken ⊢
  dsimp only [cursor_onto, level_onto, indent_onto]
  have spans := Plain.spans_read (a.level != 0) (a.indent + 1).toNat (c :: v ++ w)
  have spans' := Plain.spans_read (a.level != 0) (a.indent + 1).toNat (c :: v ++ w')
  have halts := Plain.halts_read h (a.level != 0) (a.indent + 1).toNat inside ends
  generalize Plain.read (a.level != 0) (a.indent + 1).toNat (c :: v ++ w) = r at *
  generalize Plain.read (a.level != 0) (a.indent + 1).toNat (c :: v ++ w') = r' at *
  obtain ⟨text, stop, going⟩ := halts
  obtain ⟨z, suffix, stop, stop'⟩ := stop
  obtain ⟨text₁, stop₁, rest₁, broke⟩ := r
  obtain ⟨text₂, stop₂, rest₂, broke'⟩ := r'
  dsimp only at *
  subst text stop stop'
  have behind := (faces.allow false).takeTo h inside suffix (.scalar text₂ .plain)
  by_cases before : w.length < rest₁.length
  · obtain ⟨y, -, old, new, same⟩ := going before
    subst old new same
    obtain ⟨g, here, -⟩ := spans
    rw [← List.append_assoc] at here
    have further : y <:+ z := List.append_cancel_right here ▸ List.suffix_append g y
    exact .inl ⟨y, (further.trans suffix).trans inside,
      behind.goto h (suffix.trans inside) further broke'⟩
  · have keyed := early.takeTo (s := { a with keyAllowed := false }) (.scalar text₂ .plain) (z ++ w)
    refine .inr (behind.crossed_gap h (suffix.trans inside) keyed ?_ rfl
      (endsInScalar_takeTo _ _ _ _) spans spans' (Nat.le_of_not_lt before))
    show 0 < (a.cursor.reach (z ++ w)).mark.index
    rw [Cursor.index_reach, rest]
    omega

/-- The place is in the first line of a block scalar or behind the scalar. -/
theorem joined_fetchBlock {folds : Bool} {x : Scanner} (hx : s.fetchBlock folds = .ok x)
    (before : (∃ k ∈ v, isBreak k = true) →
      ∀ r, Block.read folds (s.indent + 1).toNat (v ++ w) = .ok r → Block.Before w r) :
    ∃ y, t.fetchBlock folds = .ok y ∧ Joined u source w w' x y := by
  rw [fetchBlock] at hx ⊢
  obtain ⟨a, dropped, hx⟩ := bind_eq_ok.mp hx
  obtain ⟨b, dropped', faces, cursor⟩ := (f.allow true).carries_dropCandidate a dropped
  obtain ⟨l, shape, sub, -⟩ := dropCandidate_eq_ok dropped
  have early : a.Early := by
    subst shape
    exact fun k hk => early k (sub.mem hk)
  have indent : a.indent = s.indent := by rw [shape]
  have indent' : b.indent = a.indent := by rw [faces.same]; rfl
  obtain ⟨drop, drop'⟩ := faces.drop_one
  have suffix := (List.suffix_cons c v).trans inside
  rw [drop] at hx
  rw [← indent] at before
  cases read : Block.read folds (a.indent + 1).toNat (v ++ w) with
  | error e =>
    rw [read] at hx
    cases hx
  | ok r =>
    rw [read] at hx
    cases hx
    obtain ⟨stops, ahead⟩ := Block.leaves_read read
    by_cases broken : ∃ k ∈ v, isBreak k = true
    · obtain ⟨r', read', text, ⟨z, further, stop, stop'⟩, y, -, rest, rest'⟩ :=
        Block.halts_read h suffix broken read (before broken r read)
      refine ⟨_, bind_eq_ok.mpr ⟨b, dropped', by rw [indent', drop', read']; rfl⟩, .inl ⟨y, ?_⟩⟩
      obtain ⟨g, gap⟩ := ahead.suffix
      rw [stop, rest, ← List.append_assoc] at gap
      have behind : y <:+ z := List.append_cancel_right gap ▸ List.suffix_append g y
      have within := further.trans (List.suffix_cons c v)
      rw [text, stop, stop', rest, rest']
      exact ⟨(behind.trans within).trans inside,
        (faces.takeTo h inside within _).move h (within.trans inside) behind⟩
    · have unbroken : ∀ k ∈ v, isBreak k = false := by simpa using broken
      obtain ⟨r', read', rfl, short⟩ := Block.carries_read_unbroken h unbroken _ r read
      refine ⟨_, bind_eq_ok.mpr ⟨b, dropped', by rw [indent', drop', read']; rfl⟩, .inr (Crossed.atNext ?_)⟩
      have next := (suffix_nextLine post).trans (h.suffix_post.1.trans (List.suffix_append v w))
      have line : r'.stop <:+ nextLine post := List.suffix_of_suffix_length_le stops next short
      have rejoined := (faces.rejoined h inside early line).reach r'.rest
      rw [faces.same] at rejoined ⊢
      exact ⟨rfl, rfl, rfl, rfl, by simp [takeTo, push], rfl, rfl, .inl rfl, rejoined⟩

theorem joined_fetchDirective {x : Scanner} (hx : s.fetchDirective = .ok x) :
    ∃ y, t.fetchDirective = .ok y ∧ Joined u source w w' x y := by
  rw [fetchDirective] at hx ⊢
  obtain ⟨a, dropped, hx⟩ := bind_eq_ok.mp hx
  obtain ⟨b, dropped', faces, cursor⟩ := (f.unwind (-1)).carries_dropCandidate a dropped
  obtain ⟨l, shape, sub, -⟩ := dropCandidate_unwind dropped
  have early : a.Early := by
    obtain ⟨q, i, o, unwound⟩ := unwind_shape { s with candidates := l } (-1)
    rw [shape, unwound]
    exact fun k hk => early k (sub.mem hk)
  obtain ⟨drop, drop'⟩ := faces.drop_one
  have suffix := (List.suffix_cons c v).trans inside
  rw [drop] at hx
  cases read : directive (v ++ w) with
  | error e =>
    rw [read] at hx
    cases hx
  | ok r =>
    rw [read] at hx
    cases hx
    obtain ⟨r', read', same, z, further, stop, stop', left⟩ := h.carries_directive suffix r read
    refine ⟨_, bind_eq_ok.mpr ⟨b, dropped', by rw [drop', read']; rfl⟩, ?_⟩
    have within := further.trans (List.suffix_cons c v)
    have behind := faces.takeTo h inside within (.directive r.directive)
    rw [same, stop, stop']
    rcases left with ⟨y, rest, old, new⟩ | ⟨old, new⟩
    · rw [old, new]
      exact .inl ⟨y, rest.trans (within.trans inside), behind.goto h (within.trans inside) rest false⟩
    · rw [old, new]
      refine .inr (Crossed.atNext (behind.crossed false ?_))
      exact behind.rejoined h (within.trans inside) (early.takeTo _ _) (List.suffix_refl _)

end Tokens

/-! ## At a token -/

/-- What stops in `u` leaves what follows `u`. -/
theorem length_le_of_index {c : Cursor} (place : c.In (u ++ w)) (le : c.mark.index ≤ u.length) :
    w.length ≤ c.rest.length := by
  rw [place.rest, List.length_drop, List.length_append]
  omega

theorem Facing.index (f : Facing source v w w' s t) (place : s.cursor.In (u ++ w)) :
    s.cursor.mark.index + v.length = u.length ∧ u.drop s.cursor.mark.index = v := by
  have rest := place.rest
  have bound := place.index
  have size := congrArg List.length rest
  rw [f.rest, List.length_append, List.length_drop, List.length_append] at size
  rw [List.length_append] at bound
  have index : s.cursor.mark.index + v.length = u.length := by omega
  refine ⟨index, ?_⟩
  rw [f.rest, List.drop_append_of_le_length (by omega)] at rest
  exact (List.append_cancel_right rest).symm

/-- A step of the first, behind whose token the place is, is one of the second, and they join. -/
def Joins (u source w w' : Text) (p q : Step) : Prop :=
  ∀ x, p = .ok x → (∀ k ∈ x.queue.getLast?, k.Clears u) → ∃ y, q = .ok y ∧ Joined u source w w' x y

theorem Joins.ite {c : Prop} [Decidable c] {p q p' q' : Step}
    (left : c → Joins u source w w' p q) (right : ¬ c → Joins u source w w' p' q') :
    Joins u source w w' (if c then p else p') (if c then q else q') := by
  split
  · next hc => exact left hc
  · next hc => exact right hc

theorem Joins.of_carries {p q : Step} (inside : v <:+ u) (carries : Carries (Stays source v w w') p q) :
    Joins u source w w' p q := by
  intro x hx _
  obtain ⟨y, hy, stays⟩ := carries x hx
  exact ⟨y, hy, stays.joined inside⟩

theorem Joins.error {q : Step} {e : ScanError} : Joins u source w w' (.error e) q := by
  rintro x ⟨⟩

section At

variable {c : Char} (h : Fork u post w w') (inside : c :: v <:+ u)
  (f : Facing source (c :: v) w w' s t) (early : s.Early) (place : s.cursor.In (u ++ w))

/-- The last token of a queue, from the scanner's place to a place behind it. -/
theorem last_takeTo (s : Scanner) (kind : Token.Kind) (rest : Text) :
    (s.takeTo kind rest).queue.getLast? = some ⟨kind, s.cursor.mark, (s.cursor.reach rest).mark⟩ := by
  rw [takeTo, push, List.getLast?_concat]

include f place in
/-- A token that was taken here clears the place. -/
theorem Facing.clears {k : Token} (clear : k.Clears u) (start : k.start = s.cursor.mark) :
    (k.stop.index ≤ u.length ∧
      (k.kind.isBlockScalar = true → ∃ d ∈ u.drop k.stop.index, d ≠ ' ')) ∨
    k.kind.isBlockScalar = true ∧ ∀ d ∈ c :: v, isBreak d = false := by
  obtain ⟨index, here⟩ := f.index place
  rw [List.length_cons] at index
  have cleared := clear (by rw [start]; omega)
  rwa [start, here] at cleared

include h inside f early place

theorem joins_fetchPlain (starts : startsPlain (s.level != 0) c (v ++ w) = true) :
    Joins u source w w' s.fetchPlain t.fetchPlain := by
  intro x hx clear
  refine joined_fetchPlain h inside f early hx ?_ ?_
  · rw [fetchPlain] at hx
    obtain ⟨a, added, hx⟩ := bind_eq_ok.mp hx
    obtain ⟨-, level, indent⟩ := early.addCandidate added
    have cursor := cursor_addCandidate added
    cases hx
    have cleared := f.clears place (clear _ (last_takeTo a _ _)) (congrArg Cursor.mark cursor)
    rw [level, indent, cursor] at cleared
    rcases cleared with ⟨stop, -⟩ | ⟨block, -⟩
    · have left := length_le_of_index (place.reach _) stop
      rwa [Cursor.rest_reach_of_suffix (Plain.leaves_read _ _ _).suffix] at left
    · cases block
  · rw [f.rest]
    obtain ⟨line, space, word⟩ := word_of_startsPlain starts
    have pair : isReturnOfPair c (v ++ w) = false := by
      simp only [isBreak, Bool.or_eq_false_iff] at line
      simp [isReturnOfPair, line.1.1.1.1]
    exact Plain.length_read_stop_lt pair line space word

omit early in
theorem joins_fetchQuoted (double : Bool) :
    Joins u source w w' (s.fetchQuoted double) (t.fetchQuoted double) := by
  intro x hx clear
  have ends : w.length ≤ x.cursor.rest.length := by
    have taken := hx
    rw [fetchQuoted] at taken
    obtain ⟨a, added, taken⟩ := bind_eq_ok.mp taken
    have cursor := cursor_addCandidate added
    split at taken
    · cases taken
    · next text rest read =>
      cases taken
      have cleared := f.clears place (clear _ (last_takeTo { a with keyAllowed := false } _ _))
        (congrArg Cursor.mark cursor)
      rcases cleared with ⟨stop, -⟩ | ⟨block, -⟩
      · have inside : (a.cursor.reach rest).In (u ++ w) := (cursor ▸ place).reach rest
        exact length_le_of_index inside stop
      · cases double <;> cases block
  obtain ⟨y, hy, stays⟩ := stays_fetchQuoted h inside f hx ends
  exact ⟨y, hy, stays.joined inside⟩

theorem joins_fetchBlock (folds : Bool) :
    Joins u source w w' (s.fetchBlock folds) (t.fetchBlock folds) := by
  intro x hx clear
  refine joined_fetchBlock h inside f early hx fun broken r read => ?_
  rw [fetchBlock] at hx
  obtain ⟨a, dropped, hx⟩ := bind_eq_ok.mp hx
  obtain ⟨l, shape, -⟩ := dropCandidate_eq_ok dropped
  have cursor : a.cursor = s.cursor := by rw [shape]
  have indent : a.indent = s.indent := by rw [shape]
  have drop : s.cursor.rest.drop 1 = v ++ w := by rw [f.rest]; rfl
  rw [indent, cursor, drop, read] at hx
  cases hx
  have cleared := f.clears place (clear _ (last_takeTo a _ _)) (congrArg Cursor.mark cursor)
  rcases cleared with ⟨stop, inked⟩ | ⟨-, unbroken⟩
  · have reached : (a.cursor.reach r.stop).In (u ++ w) := (cursor ▸ place).reach r.stop
    have rest : (a.cursor.reach r.stop).rest = r.stop := by
      refine Cursor.rest_reach_of_suffix ((Block.leaves_read read).suffix.trans ?_)
      rw [cursor, f.rest]
      exact List.suffix_cons c (v ++ w)
    refine ⟨rest ▸ length_le_of_index reached stop, ?_⟩
    rintro rfl
    obtain ⟨d, hd, other⟩ := inked (by cases folds <;> rfl)
    rw [List.append_nil] at reached
    exact ⟨d, by rwa [← rest, reached.rest], other⟩
  · obtain ⟨k, hk, stops⟩ := broken
    have inside := unbroken k (List.mem_cons_of_mem c hk)
    rw [stops] at inside
    cases inside

omit inside f early place in
theorem startsPlain_eq (flow : Bool) : startsPlain flow c (v ++ w') = startsPlain flow c (v ++ w) := by
  rw [startsPlain, startsPlain, h.atSpace_eq]

omit inside f early place in
/-- A mark between documents does not lie over the place. -/
theorem room_of_atSeparator (mark : atSeparator (c :: v ++ w) = true) : 3 ≤ (c :: v).length := by
  obtain ⟨still, -⟩ := h.still (p := fun c => c == '-' || c == '.') rfl
  rw [← Nat.not_lt]
  intro short
  have none := atSeparator_of_short short fun d hd => by simpa using still d hd
  rw [mark] at none
  cases none

/-- The token here, before it is known of which kind it is. -/
theorem joins_fetchAt :
    Joins u source w w' (s.fetchAt c (v ++ w)) (t.fetchAt c (v ++ w')) := by
  have separator : atSeparator (c :: (v ++ w')) = atSeparator (c :: (v ++ w)) :=
    h.atSeparator_eq (c :: v)
  have level : t.level = s.level := by rw [f.same]; rfl
  have column : t.cursor.mark.column = s.cursor.mark.column := by rw [f.same]; rfl
  have stays {p q : Step} (carries : Carries (Stays source (c :: v) w w') p q) :=
    Joins.of_carries inside carries
  have room {p q : Bool} (mark : (p && (q && atSeparator (c :: (v ++ w)))) = true) :
      3 ≤ (c :: v).length := by
    obtain ⟨-, margin⟩ := Bool.and_eq_true_iff.mp mark
    exact room_of_atSeparator h (Bool.and_eq_true_iff.mp margin).2
  rw [fetchAt, fetchAt, separator, level, column, h.atSpace_eq, startsPlain_eq h]
  refine .ite (fun _ => fun x hx _ => joined_fetchDirective h inside f early hx) fun _ => ?_
  refine .ite (fun mark => stays (carries_fetchSeparator h inside f _ (room mark))) fun _ => ?_
  refine .ite (fun mark => stays (carries_fetchSeparator h inside f _ (room mark))) fun _ => ?_
  refine .ite (fun _ => stays (carries_fetchOpening h inside f _)) fun _ => ?_
  refine .ite (fun _ => stays (carries_fetchOpening h inside f _)) fun _ => ?_
  refine .ite (fun _ => stays (carries_fetchClosing h inside f _)) fun _ => ?_
  refine .ite (fun _ => stays (carries_fetchClosing h inside f _)) fun _ => ?_
  refine .ite (fun _ => stays (carries_fetchFlowEntry h inside f)) fun _ => ?_
  refine .ite (fun _ => stays (carries_fetchBlockEntry h inside f)) fun _ => ?_
  refine .ite (fun _ => stays (carries_fetchKey h inside f)) fun _ => ?_
  refine .ite (fun _ => stays (carries_fetchValue h inside f)) fun _ => ?_
  refine .ite (fun _ => stays (carries_fetchName h inside f _ _)) fun _ => ?_
  refine .ite (fun _ => stays (carries_fetchName h inside f _ _)) fun _ => ?_
  refine .ite (fun _ => stays (carries_fetchTag h inside f)) fun _ => ?_
  refine .ite (fun _ => joins_fetchBlock h inside f early place _) fun _ => ?_
  refine .ite (fun _ => joins_fetchBlock h inside f early place _) fun _ => ?_
  refine .ite (fun _ => joins_fetchQuoted h inside f place _) fun _ => ?_
  refine .ite (fun _ => joins_fetchQuoted h inside f place _) fun _ => ?_
  exact .ite (joins_fetchPlain h inside f early place) fun _ => .error

omit h inside early place in
theorem Facing.carries_dropStale :
    Carries (fun a b => Facing source (c :: v) w w' a b ∧ ∃ l, a = { s with candidates := l } ∧
      l.Sublist s.candidates) s.dropStale t.dropStale := by
  obtain ⟨rest, rfl⟩ := f
  intro a ha
  obtain ⟨l, shape, sub, -⟩ := dropStale_eq_ok ha
  refine ⟨a.onto source (c :: v ++ w'), ?_, ⟨by rw [shape]; exact rest, rfl⟩, l, shape, sub⟩
  rw [dropStale] at ha ⊢
  have same : ((s.onto source (c :: v ++ w')).candidates.find? fun k =>
      (s.onto source (c :: v ++ w')).isStale k && k.required) =
        s.candidates.find? fun k => s.isStale k && k.required := rfl
  rw [same]
  cases stale : s.candidates.find? fun k => s.isStale k && k.required with
  | some k =>
    rw [stale] at ha
    cases ha
  | none =>
    rw [stale] at ha
    cases ha
    rfl

/-- Behind the way to the next token. -/
theorem joins_fetchFrom :
    Joins u source w w' (Shift.fetchFrom s) (Shift.fetchFrom t) := by
  intro x hx clear
  obtain ⟨a, dropped, hx⟩ := bind_eq_ok.mp hx
  obtain ⟨b, dropped', faces, l, shape, sub⟩ := f.carries_dropStale a dropped
  have cursor : a.cursor = s.cursor := by rw [shape]
  have column : b.cursor.mark.column = a.cursor.mark.column := by rw [faces.same]; rfl
  have unwound := faces.unwind a.cursor.mark.column
  have early : (a.unwind a.cursor.mark.column).Early := by
    obtain ⟨q, i, o, unwound⟩ := unwind_shape a a.cursor.mark.column
    rw [unwound, shape]
    exact fun k hk => early k (sub.mem hk)
  have place : (a.unwind a.cursor.mark.column).cursor.In (u ++ w) := by
    rw [cursor_unwind, cursor]
    exact place
  have rest := unwound.rest
  have rest' : (b.unwind a.cursor.mark.column).cursor.rest = c :: (v ++ w') := by
    rw [unwound.same]
    rfl
  dsimp only at hx
  rw [rest] at hx
  obtain ⟨y, hy, joined⟩ := joins_fetchAt h inside unwound early place x hx clear
  refine ⟨y, bind_eq_ok.mpr ⟨b, dropped', ?_⟩, joined⟩
  dsimp only
  rw [column, rest']
  exact hy

end At

end Scan.Scanner

end YamlEdit
