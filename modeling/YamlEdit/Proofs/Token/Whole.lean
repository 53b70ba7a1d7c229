import YamlEdit.Proofs.Token.Orderly

/-!
# A feed as a whole

A feed takes tokens off the queue as soon as it is known that they start no key. Cutting does not see
this: a candidate is found by its number, and the queue is only added to behind the tokens that were
taken. So a text is cut as if all its tokens stayed in the queue up to the end, and the tokens of a
feed without a fault are the queue that is there then.

Before a token is taken the candidates are checked at the place where the scanner is, and again at the
next token, which is never nearer. So the checks in between miss no colon that the fetches do not.
-/

namespace YamlEdit.Scan.Scanner

/-- The state with tokens back in the queue that were taken off it last. -/
def putBack (out : List Token) (s : Scanner) : Scanner :=
  { s with queue := out ++ s.queue, taken := s.taken - out.length }

/-- So many tokens were taken, and every candidate is behind them. -/
structure Took (out : List Token) (s : Scanner) : Prop where
  taken : out.length ≤ s.taken
  behind : ∀ k ∈ s.candidates, s.taken ≤ k.number

variable {out : List Token} {s t u : Scanner}

section Fields

variable (out : List Token) (s : Scanner)

@[simp] theorem cursor_putBack : (s.putBack out).cursor = s.cursor := rfl
@[simp] theorem level_putBack : (s.putBack out).level = s.level := rfl
@[simp] theorem indent_putBack : (s.putBack out).indent = s.indent := rfl
@[simp] theorem outer_putBack : (s.putBack out).outer = s.outer := rfl
@[simp] theorem keyAllowed_putBack : (s.putBack out).keyAllowed = s.keyAllowed := rfl
@[simp] theorem candidates_putBack : (s.putBack out).candidates = s.candidates := rfl
@[simp] theorem queue_putBack : (s.putBack out).queue = out ++ s.queue := rfl
@[simp] theorem ended_putBack : (s.putBack out).ended = s.ended := rfl

end Fields

theorem map_bind_putBack {x : Step} {f g : Scanner → Step}
    (h : ∀ s, x = .ok s → g (s.putBack out) = (f s).map (putBack out)) :
    (x.map (putBack out) >>= g) = (x >>= f).map (putBack out) := by
  cases x with
  | ok s => exact h s rfl
  | error e => rfl

theorem ite_putBack {c : Prop} [Decidable c] {x y x' y' : Step}
    (left : x' = x.map (putBack out)) (right : y' = y.map (putBack out)) :
    (if c then x' else y') = (if c then x else y).map (putBack out) := by
  split
  · exact left
  · exact right

/-! ## Steps of a fetch -/

section Parts

variable (out : List Token) (s : Scanner)

theorem push_putBack (kind : Token.Kind) (start stop : Mark) :
    (s.putBack out).push kind start stop = (s.push kind start stop).putBack out := by
  simp [push, putBack]

theorem pushHere_putBack (kind : Token.Kind) :
    (s.putBack out).pushHere kind = (s.pushHere kind).putBack out :=
  push_putBack out s kind _ _

theorem takeTo_putBack (kind : Token.Kind) (rest : Text) :
    (s.putBack out).takeTo kind rest = (s.takeTo kind rest).putBack out := by
  simp [takeTo, push, putBack]

theorem takeChars_putBack (kind : Token.Kind) (n : Nat) :
    (s.putBack out).takeChars kind n = (s.takeChars kind n).putBack out :=
  takeTo_putBack out s kind _

theorem dropCandidate_putBack :
    (s.putBack out).dropCandidate = s.dropCandidate.map (putBack out) := by
  have same : (s.putBack out).candidate? = s.candidate? := rfl
  rw [dropCandidate, dropCandidate, same]
  cases s.candidate? with
  | none => rfl
  | some k => exact ite_putBack rfl rfl

theorem dropStale_putBack : (s.putBack out).dropStale = s.dropStale.map (putBack out) := by
  have found : ((s.putBack out).candidates.find? fun k =>
      (s.putBack out).isStale k && k.required) =
        s.candidates.find? fun k => s.isStale k && k.required := rfl
  rw [dropStale, dropStale, found]
  cases s.candidates.find? fun k => s.isStale k && k.required <;> rfl

theorem endBlocks_putBack (column : Int) (outer : List Int) :
    (s.putBack out).endBlocks column outer = (s.endBlocks column outer).putBack out := by
  induction outer generalizing s with
  | nil => rfl
  | cons around outer ih =>
    rw [endBlocks, endBlocks, pushHere_putBack, indent_putBack]
    split
    · exact ih { s.pushHere .blockEnd with indent := around, outer := outer }
    · rfl

theorem unwind_putBack (column : Int) :
    (s.putBack out).unwind column = (s.unwind column).putBack out := by
  rw [unwind, unwind, endBlocks_putBack]
  show (if s.level == 0 then _ else _) = _
  split <;> rfl

theorem startBlock_putBack (kind : Token.Kind) :
    (s.putBack out).startBlock kind = (s.startBlock kind).putBack out := by
  have pushed := pushHere_putBack out (s.enter s.cursor.mark.column) kind
  rw [startBlock, startBlock]
  show (if s.opensBlock s.cursor.mark.column then _ else _) = _
  split
  · exact pushed
  · rfl

theorem toNextToken_putBack (steps : Nat) :
    toNextToken steps (s.putBack out) = (toNextToken steps s).putBack out := by
  induction steps generalizing s with
  | zero => rfl
  | succ steps ih =>
    simp only [toNextToken, cursor_putBack]
    split
    · rfl
    · next next _ =>
      exact ih { s with cursor := s.cursor.reach next, keyAllowed := s.keyAllowed || s.level == 0 }

theorem skipMark_putBack : (s.putBack out).skipMark = s.skipMark.putBack out := by
  rw [skipMark, skipMark, cursor_putBack]
  split
  · split <;> rfl
  · rfl

end Parts

theorem addCandidate_putBack (taken : out.length ≤ s.taken) :
    (s.putBack out).addCandidate = s.addCandidate.map (putBack out) := by
  rw [addCandidate, addCandidate, dropCandidate_putBack]
  refine ite_putBack (map_bind_putBack ?_) rfl
  intro u dropped
  obtain ⟨l, rfl, -⟩ := dropCandidate_eq_ok dropped
  have number : s.taken - out.length + (out.length + s.queue.length) = s.taken + s.queue.length := by
    omega
  simp [putBack, pure, Except.pure, Except.map, number]

theorem insertIdx_length_add {α : Type} (l m : List α) (n : Nat) (a : α) :
    (l ++ m).insertIdx (l.length + n) a = l ++ m.insertIdx n a := by
  induction l with
  | nil => simp
  | cons b l ih =>
    rw [List.cons_append, List.length_cons, Nat.add_right_comm, List.insertIdx_succ_cons, ih]
    rfl

theorem insertBefore_putBack {k : Candidate} (taken : out.length ≤ s.taken)
    (behind : s.taken ≤ k.number) (kind : Token.Kind) :
    (s.putBack out).insertBefore k kind = (s.insertBefore k kind).putBack out := by
  have place : k.number - (s.taken - out.length) = out.length + (k.number - s.taken) := by omega
  simp only [insertBefore, putBack, place, insertIdx_length_add]

/-! ## The tokens -/

section Fetch

variable (s : Scanner)

theorem fetchEnd_putBack : (s.putBack out).fetchEnd = s.fetchEnd.map (putBack out) := by
  rw [fetchEnd, unwind_putBack, dropCandidate_putBack]
  refine map_bind_putBack fun u _ => ?_
  have pushed := pushHere_putBack out { u with keyAllowed := false, candidates := [] } .streamEnd
  exact congrArg (fun v : Scanner => Except.ok { v with ended := true }) pushed

theorem fetchDirective_putBack :
    (s.putBack out).fetchDirective = s.fetchDirective.map (putBack out) := by
  rw [fetchDirective, unwind_putBack, dropCandidate_putBack]
  refine map_bind_putBack fun u _ => ?_
  rw [cursor_putBack]
  cases directive (u.cursor.rest.drop 1) with
  | error f => rfl
  | ok line =>
    dsimp only
    rw [takeTo_putBack]
    rfl

theorem fetchSeparator_putBack (kind : Token.Kind) :
    (s.putBack out).fetchSeparator kind = (s.fetchSeparator kind).map (putBack out) := by
  rw [fetchSeparator, unwind_putBack, dropCandidate_putBack]
  refine map_bind_putBack fun u _ => ?_
  exact congrArg Except.ok (takeChars_putBack out { u with keyAllowed := false } kind 3)

theorem fetchClosing_putBack (kind : Token.Kind) :
    (s.putBack out).fetchClosing kind = (s.fetchClosing kind).map (putBack out) := by
  rw [fetchClosing, dropCandidate_putBack]
  refine map_bind_putBack fun u _ => ?_
  exact congrArg Except.ok
    (takeChars_putBack out { u with level := u.level - 1, keyAllowed := false } kind 1)

theorem fetchFlowEntry_putBack :
    (s.putBack out).fetchFlowEntry = s.fetchFlowEntry.map (putBack out) := by
  have dropped := dropCandidate_putBack out { s with keyAllowed := true }
  rw [fetchFlowEntry]
  refine (congrArg (· >>= _) dropped).trans (map_bind_putBack fun u _ => ?_)
  exact congrArg Except.ok (takeChars_putBack out u .flowEntry 1)

/-- A token of one character that may start a block. -/
theorem startBlock_bind_putBack (kind block : Token.Kind) (a : Bool) :
    ({ (s.putBack out).startBlock block with keyAllowed := a }.dropCandidate >>= fun u =>
        pure (u.takeChars kind 1)) =
      ({ s.startBlock block with keyAllowed := a }.dropCandidate >>= fun u =>
        pure (u.takeChars kind 1) : Step).map (putBack out) := by
  have dropped := dropCandidate_putBack out { s.startBlock block with keyAllowed := a }
  rw [startBlock_putBack]
  refine (congrArg (· >>= _) dropped).trans (map_bind_putBack fun u _ => ?_)
  exact congrArg Except.ok (takeChars_putBack out u kind 1)

theorem fetchBlockEntry_putBack :
    (s.putBack out).fetchBlockEntry = s.fetchBlockEntry.map (putBack out) :=
  ite_putBack rfl (startBlock_bind_putBack s .blockEntry .blockSequenceStart true)

theorem fetchKey_putBack : (s.putBack out).fetchKey = s.fetchKey.map (putBack out) :=
  ite_putBack rfl (startBlock_bind_putBack s .key .blockMappingStart (s.level == 0))

theorem fetchBlock_putBack (folds : Bool) :
    (s.putBack out).fetchBlock folds = (s.fetchBlock folds).map (putBack out) := by
  have dropped := dropCandidate_putBack out { s with keyAllowed := true }
  rw [fetchBlock]
  refine (congrArg (· >>= _) dropped).trans (map_bind_putBack fun u _ => ?_)
  rw [cursor_putBack, indent_putBack]
  cases Block.read folds (u.indent + 1).toNat (u.cursor.rest.drop 1) with
  | error f => rfl
  | ok r =>
    dsimp only
    rw [takeTo_putBack]
    rfl

end Fetch

section Candidates

variable (took : Took out s)
include took

theorem fetchValue_putBack : (s.putBack out).fetchValue = s.fetchValue.map (putBack out) := by
  have same : (s.putBack out).candidate? = s.candidate? := rfl
  rw [fetchValue, fetchValue, same]
  cases found : s.candidate? with
  | some k =>
    have behind := took.behind k (List.mem_of_find?_eq_some found)
    have keyed : (s.putBack out).forget.insertBefore k .key =
        (s.forget.insertBefore k .key).putBack out :=
      insertBefore_putBack (s := s.forget) took.taken behind .key
    dsimp only
    rw [keyed]
    generalize made : s.forget.insertBefore k .key = u
    have taken : u.taken = s.taken := by
      rw [← made]
      rfl
    have room : out.length ≤ u.taken := by
      rw [taken]
      exact took.taken
    have opens : (u.putBack out).opensBlock k.mark.column = u.opensBlock k.mark.column := rfl
    have entered : (u.putBack out).enter k.mark.column = (u.enter k.mark.column).putBack out := rfl
    rw [opens, entered]
    split
    · rw [insertBefore_putBack (s := u.enter k.mark.column) room (by rw [← taken] at behind; exact behind)]
      exact congrArg Except.ok (takeChars_putBack out
        { (u.enter k.mark.column).insertBefore k .blockMappingStart with keyAllowed := false } _ 1)
    · exact congrArg Except.ok (takeChars_putBack out { u with keyAllowed := false } _ 1)
  | none =>
    exact ite_putBack rfl (startBlock_bind_putBack s .value .blockMappingStart (s.level == 0))

theorem addCandidate_bind_putBack {f : Scanner → Step}
    (next : ∀ u, f (u.putBack out) = (f u).map (putBack out)) :
    ((s.putBack out).addCandidate >>= f) = (s.addCandidate >>= f).map (putBack out) := by
  rw [addCandidate_putBack took.taken]
  exact map_bind_putBack fun u _ => next u

theorem fetchOpening_putBack (kind : Token.Kind) :
    (s.putBack out).fetchOpening kind = (s.fetchOpening kind).map (putBack out) := by
  refine addCandidate_bind_putBack took fun u => ?_
  exact congrArg Except.ok
    (takeChars_putBack out { u with level := u.level + 1, keyAllowed := true } kind 1)

theorem fetchName_putBack (of : ScanFault.Owner) (kind : Text → Token.Kind) :
    (s.putBack out).fetchName of kind = (s.fetchName of kind).map (putBack out) := by
  refine addCandidate_bind_putBack took fun u => ?_
  rw [cursor_putBack]
  cases anchorName of (u.cursor.rest.drop 1) with
  | error f => rfl
  | ok r => exact congrArg Except.ok (takeTo_putBack out { u with keyAllowed := false } _ r.2)

theorem fetchTag_putBack : (s.putBack out).fetchTag = s.fetchTag.map (putBack out) := by
  refine addCandidate_bind_putBack took fun u => ?_
  rw [cursor_putBack]
  cases tag (u.cursor.rest.drop 1) with
  | error f => rfl
  | ok r => exact congrArg Except.ok (takeTo_putBack out { u with keyAllowed := false } _ r.2)

theorem fetchQuoted_putBack (double : Bool) :
    (s.putBack out).fetchQuoted double = (s.fetchQuoted double).map (putBack out) := by
  refine addCandidate_bind_putBack took fun u => ?_
  rw [cursor_putBack]
  cases Quoted.read double (u.cursor.rest.drop 1) with
  | error f => rfl
  | ok r => exact congrArg Except.ok (takeTo_putBack out { u with keyAllowed := false } _ r.2)

theorem fetchPlain_putBack : (s.putBack out).fetchPlain = s.fetchPlain.map (putBack out) := by
  refine addCandidate_bind_putBack took fun u => ?_
  dsimp only [cursor_putBack, level_putBack, indent_putBack]
  rw [takeTo_putBack]
  rfl

theorem fetchAt_putBack (c : Char) (r : Text) :
    (s.putBack out).fetchAt c r = (s.fetchAt c r).map (putBack out) := by
  rw [fetchAt]
  refine ite_putBack (fetchDirective_putBack s) ?_
  refine ite_putBack (fetchSeparator_putBack s _) ?_
  refine ite_putBack (fetchSeparator_putBack s _) ?_
  refine ite_putBack (fetchOpening_putBack took _) ?_
  refine ite_putBack (fetchOpening_putBack took _) ?_
  refine ite_putBack (fetchClosing_putBack s _) ?_
  refine ite_putBack (fetchClosing_putBack s _) ?_
  refine ite_putBack (fetchFlowEntry_putBack s) ?_
  refine ite_putBack (fetchBlockEntry_putBack s) ?_
  refine ite_putBack (fetchKey_putBack s) ?_
  refine ite_putBack (fetchValue_putBack took) ?_
  refine ite_putBack (fetchName_putBack took _ _) ?_
  refine ite_putBack (fetchName_putBack took _ _) ?_
  refine ite_putBack (fetchTag_putBack took) ?_
  refine ite_putBack (fetchBlock_putBack s _) ?_
  refine ite_putBack (fetchBlock_putBack s _) ?_
  refine ite_putBack (fetchQuoted_putBack took _) ?_
  refine ite_putBack (fetchQuoted_putBack took _) ?_
  exact ite_putBack (fetchPlain_putBack took) rfl

end Candidates

theorem Took.of_shape (h : Took out s) (taken : t.taken = s.taken)
    (candidates : t.candidates.Sublist s.candidates) : Took out t := by
  refine ⟨by rw [taken]; exact h.taken, fun k hk => ?_⟩
  rw [taken]
  exact h.behind k (candidates.mem hk)

theorem toNextToken_shape (steps : Nat) (s : Scanner) : ∃ c a,
    toNextToken steps s = { s with cursor := c, keyAllowed := a } := by
  induction steps generalizing s with
  | zero => exact ⟨s.cursor, s.keyAllowed, rfl⟩
  | succ steps ih =>
    rw [toNextToken]
    split
    · exact ⟨_, s.keyAllowed, rfl⟩
    · exact ih { s with cursor := _, keyAllowed := _ }

theorem skipMark_shape (s : Scanner) : ∃ c, s.skipMark = { s with cursor := c } := by
  rw [skipMark]
  split
  · split
    · exact ⟨_, rfl⟩
    · exact ⟨s.cursor, rfl⟩
  · exact ⟨s.cursor, rfl⟩

/-- Behind the way to the next token. -/
theorem fetchFrom_putBack (took : Took out s) :
    Shift.fetchFrom (s.putBack out) = (Shift.fetchFrom s).map (putBack out) := by
  rw [Shift.fetchFrom, dropStale_putBack]
  refine map_bind_putBack fun u hu => ?_
  obtain ⟨l, rfl, sub, -⟩ := dropStale_eq_ok hu
  rw [cursor_putBack, unwind_putBack]
  generalize hv : ({ s with candidates := l } : Scanner).unwind s.cursor.mark.column = v
  have kept : Took out v := by
    obtain ⟨q, i, o, shape⟩ := unwind_shape { s with candidates := l } s.cursor.mark.column
    rw [shape] at hv
    rw [← hv]
    exact took.of_shape rfl sub
  dsimp only [cursor_putBack]
  cases v.cursor.rest with
  | nil => exact fetchEnd_putBack v
  | cons c r => exact fetchAt_putBack kept c r

/-- Where a fetch looks for its token. -/
def atNext (s : Scanner) : Scanner :=
  toNextToken (s.cursor.rest.length + 1) s.skipMark

theorem fetch_eq (s : Scanner) : s.fetch = Shift.fetchFrom s.atNext := rfl

theorem atNext_shape (s : Scanner) : ∃ c a, s.atNext = { s with cursor := c, keyAllowed := a } := by
  obtain ⟨c, skipped⟩ := skipMark_shape s
  obtain ⟨c', a, gone⟩ := toNextToken_shape (s.cursor.rest.length + 1) s.skipMark
  exact ⟨c', a, by rw [atNext, gone, skipped]⟩

theorem fetch_putBack (took : Took out s) :
    (s.putBack out).fetch = s.fetch.map (putBack out) := by
  have kept : Took out s.atNext := by
    obtain ⟨c, a, shape⟩ := atNext_shape s
    rw [shape]
    exact took.of_shape rfl (.refl _)
  rw [fetch_eq, fetch_eq, ← fetchFrom_putBack kept, atNext, skipMark_putBack, toNextToken_putBack]
  rfl

/-! ## Checks in between -/

variable {src : Text} {all : List Token} {columns : List Nat}

/-- What is too far back stays too far back. -/
theorem isStale_of_le {k : Candidate} (stale : s.isStale k = true)
    (seen : k.mark.line ≤ s.cursor.mark.line)
    (line : s.cursor.mark.line ≤ t.cursor.mark.line)
    (index : s.cursor.mark.index ≤ t.cursor.mark.index) : t.isStale k = true := by
  simp only [isStale, Bool.or_eq_true, bne_iff_ne, decide_eq_true_eq] at stale ⊢
  omega

theorem toNextToken_waiting (s : Scanner) (l : List Candidate) (q : List Token) (n steps : Nat) :
    toNextToken steps { s with candidates := l, queue := q, taken := n } =
      { toNextToken steps s with candidates := l, queue := q, taken := n } := by
  induction steps generalizing s with
  | zero => rfl
  | succ steps ih =>
    simp only [toNextToken]
    split
    · rfl
    · next next _ =>
      exact ih { s with cursor := s.cursor.reach next, keyAllowed := s.keyAllowed || s.level == 0 }

/-- On the way to the next token nothing that waits is looked at. -/
theorem atNext_waiting (s : Scanner) (l : List Candidate) (q : List Token) (n : Nat) :
    ({ s with candidates := l, queue := q, taken := n } : Scanner).atNext =
      { s.atNext with candidates := l, queue := q, taken := n } := by
  have skipped : ({ s with candidates := l, queue := q, taken := n } : Scanner).skipMark =
      { s.skipMark with candidates := l, queue := q, taken := n } := by
    simp only [skipMark]
    split
    · split <;> rfl
    · rfl
  rw [atNext, skipped, toNextToken_waiting]
  rfl

theorem atNext_candidates (s : Scanner) (l : List Candidate) :
    ({ s with candidates := l } : Scanner).atNext = { s.atNext with candidates := l } := by
  obtain ⟨c, a, shape⟩ := atNext_shape s
  have waiting := atNext_waiting s l s.queue s.taken
  rw [shape] at waiting ⊢
  exact waiting

theorem Trail.atNext (h : Trail src all columns s) (filled : Filled all s) :
    Trail src all columns s.atNext ∧ Filled all s.atNext := by
  obtain ⟨behind, filled, -⟩ := h.skipMark filled
  obtain ⟨there, filled, -⟩ := behind.toNextToken filled (s.cursor.rest.length + 1)
  exact ⟨there, filled⟩

section Fields

variable (s : Scanner)

@[simp] theorem candidates_atNext : s.atNext.candidates = s.candidates := by
  obtain ⟨c, a, shape⟩ := atNext_shape s
  rw [shape]

@[simp] theorem queue_atNext : s.atNext.queue = s.queue := by
  obtain ⟨c, a, shape⟩ := atNext_shape s
  rw [shape]

@[simp] theorem taken_atNext : s.atNext.taken = s.taken := by
  obtain ⟨c, a, shape⟩ := atNext_shape s
  rw [shape]

@[simp] theorem level_atNext : s.atNext.level = s.level := by
  obtain ⟨c, a, shape⟩ := atNext_shape s
  rw [shape]

@[simp] theorem ended_atNext : s.atNext.ended = s.ended := by
  obtain ⟨c, a, shape⟩ := atNext_shape s
  rw [shape]

end Fields

theorem line_le_advance (n : Nat) (c : Cursor) : c.mark.line ≤ (Cursor.advance n c).mark.line := by
  induction n generalizing c with
  | zero => exact Nat.le_refl _
  | succ n ih =>
    obtain ⟨rest, mark⟩ := c
    cases rest with
    | nil => exact Nat.le_refl _
    | cons ch r =>
      refine Nat.le_trans ?_ (ih ⟨r, mark.past ch r⟩)
      dsimp only
      rw [Mark.past]
      split
      · exact Nat.le_succ _
      · split <;> exact Nat.le_refl _

/-- A place further on is in the same line or in a later one. -/
theorem line_le_of_in {m n : Mark} (hm : m.In src) (hn : n.In src) (le : m.index ≤ n.index) :
    m.line ≤ n.line := by
  obtain ⟨j, step⟩ := Nat.exists_eq_add_of_le le
  rw [hm.place, hn.place, step, Cursor.behind, Cursor.behind, Cursor.advance_add]
  exact line_le_advance j _

theorem Trail.isStale_atNext (h : Trail src all columns s) (filled : Filled all s) {k : Candidate}
    (hk : k ∈ s.candidates) (stale : s.isStale k = true) : s.atNext.isStale k = true := by
  have waits := h.waits k hk
  have there := (h.atNext filled).1.cursor
  have index : s.cursor.mark.index ≤ s.atNext.cursor.mark.index := by
    have left := ((past_skipMark s).trans (past_toNextToken (s.cursor.rest.length + 1) _)).length_le
    have here := congrArg List.length h.cursor.rest
    have next := congrArg List.length there.rest
    have inside := h.cursor.index
    have bound := there.index
    rw [List.length_drop] at here next
    change s.atNext.cursor.rest.length ≤ _ at left
    omega
  exact isStale_of_le stale (line_le_of_in waits.mark h.cursor.mark waits.before)
    (line_le_of_in h.cursor.mark there.mark index) index

/-- Candidates that would be forgotten may be forgotten before. -/
theorem dropStale_filter {p : Candidate → Bool}
    (gone : ∀ k ∈ s.candidates, p k = false → s.isStale k = true ∧ k.required = false) :
    ({ s with candidates := s.candidates.filter p } : Scanner).dropStale = s.dropStale := by
  have found : (s.candidates.filter p).find? (fun k => s.isStale k && k.required) =
      s.candidates.find? fun k => s.isStale k && k.required := by
    rw [← List.head?_filter, ← List.head?_filter, List.filter_filter]
    refine congrArg _ (List.filter_congr fun k hk => ?_)
    cases kept : p k with
    | true => rw [Bool.and_true]
    | false => rw [(gone k hk kept).2, Bool.and_false, Bool.and_false]
  have left : (s.candidates.filter p).filter (fun k => !s.isStale k) =
      s.candidates.filter fun k => !s.isStale k := by
    rw [List.filter_filter]
    refine List.filter_congr fun k hk => ?_
    cases kept : p k with
    | true => rw [Bool.and_true]
    | false => rw [(gone k hk kept).1, Bool.and_false]; rfl
  generalize fewer : ({ s with candidates := s.candidates.filter p } : Scanner) = t
  have found' : (t.candidates.find? fun k => t.isStale k && k.required) =
      s.candidates.find? fun k => s.isStale k && k.required := by
    rw [← fewer, ← found]
    rfl
  rw [dropStale, dropStale, found']
  subst fewer
  cases s.candidates.find? fun k => s.isStale k && k.required with
  | some k => rfl
  | none => exact congrArg (fun l => Except.ok { s with candidates := l }) left

/-- A fetch finds no other token if the candidates are checked before it. -/
theorem Trail.fetch_dropStale (h : Trail src all columns s) (filled : Filled all s)
    (hu : s.dropStale = .ok u) : u.fetch = s.fetch := by
  rw [dropStale] at hu
  split at hu
  · cases hu
  · next none =>
    cases hu
    have missing := List.find?_eq_none.mp none
    have same := candidates_atNext s
    have checked := dropStale_filter (s := s.atNext) (p := fun k => !s.isStale k) <| by
      intro k hk stale
      rw [same] at hk
      have stale : s.isStale k = true := by simpa using stale
      exact ⟨h.isStale_atNext filled hk stale, by simpa [stale] using missing k hk⟩
    rw [same] at checked
    rw [fetch_eq, fetch_eq, atNext_candidates, Shift.fetchFrom, Shift.fetchFrom, checked]

theorem Trail.fetch_of_stale (h : Trail src all columns s) (filled : Filled all s) {e : ScanError}
    (he : s.dropStale = .error e) : ∃ e', s.fetch = .error e' := by
  rw [dropStale] at he
  split at he
  · next k found =>
    have hk := List.mem_of_find?_eq_some found
    have stale := List.find?_some found
    rw [Bool.and_eq_true] at stale
    have still := h.isStale_atNext filled hk stale.1
    rw [fetch_eq, Shift.fetchFrom, dropStale, candidates_atNext]
    split
    · exact ⟨_, rfl⟩
    · next none =>
      have other := List.find?_eq_none.mp none k hk
      rw [still, stale.2] at other
      exact absurd rfl other
  · cases he

/-! ## Whole texts -/

/-- Fetches up to the end; no token is taken off the queue. -/
def finish : (steps : Nat) → Scanner → Step
  | 0, s => .ok s
  | steps + 1, s => if s.ended then .ok s else s.fetch >>= finish steps

theorem finish_of_ended (steps : Nat) (ended : s.ended = true) : finish steps s = .ok s := by
  cases steps with
  | zero => rfl
  | succ steps => rw [finish, if_pos ended]

theorem Trail.took (h : Trail src all columns s) (taken : out.length ≤ s.taken) : Took out s :=
  ⟨taken, fun k hk => (h.waits k hk).taken⟩

theorem finish_putBack (steps : Nat) (h : Trail src all columns s) (filled : Filled all s)
    (taken : out.length ≤ s.taken) :
    finish steps (s.putBack out) = (finish steps s).map (putBack out) := by
  induction steps generalizing s all columns with
  | zero => rfl
  | succ steps ih =>
    rw [finish, finish, ended_putBack, fetch_putBack (h.took taken)]
    refine ite_putBack rfl (map_bind_putBack fun t ht => ?_)
    obtain ⟨all', columns', trail, filled', same, -⟩ := h.fetch filled ht
    exact ih trail filled' (by rw [same]; exact taken)

/-- What is taken off the queue was at its front. -/
theorem putBack_release (s : Scanner) (queue : List Token) :
    (s.release queue).1.putBack (s.release queue).2 = { s with queue } ∧
      (s.release queue).1.taken = s.taken + (s.release queue).2.length := by
  induction queue generalizing s with
  | nil => exact ⟨rfl, rfl⟩
  | cons t queue ih =>
    rw [release]
    split
    · exact ⟨rfl, rfl⟩
    · obtain ⟨back, taken⟩ := ih { s with taken := s.taken + 1 }
      generalize ({ s with taken := s.taken + 1 } : Scanner).release queue = r at back taken
      obtain ⟨u, released⟩ := r
      dsimp only at back taken ⊢
      have one : u.putBack (t :: released) = { u.putBack released with
          queue := t :: (u.putBack released).queue, taken := (u.putBack released).taken - 1 } := by
        simp [putBack, Nat.sub_sub]
      refine ⟨?_, by rw [taken, List.length_cons]; omega⟩
      rw [one, back]
      rfl

/-- What a feed does between two fetches: it goes on from a state in which the tokens that it takes off
are not in the queue. -/
theorem Trail.between (h : Trail src all columns s) (filled : Filled all s)
    (hu : (if s.queue.isEmpty then Except.ok s else s.dropStale) = .ok u) :
    ∃ all' columns', Trail src all' columns' (u.release u.queue).1 ∧
      Filled all' (u.release u.queue).1 ∧
      s.fetch = (u.release u.queue).1.fetch.map (putBack (u.release u.queue).2) ∧
      (u.release u.queue).2.length ≤ (u.release u.queue).1.taken := by
  have same : u.fetch = s.fetch ∧ ∃ l, u = { s with candidates := l } ∧ l.Sublist s.candidates := by
    split at hu
    · cases hu
      exact ⟨rfl, s.candidates, rfl, .refl _⟩
    · obtain ⟨l, shape, sub, -⟩ := dropStale_eq_ok hu
      exact ⟨h.fetch_dropStale filled hu, l, shape, sub⟩
  obtain ⟨fetched, l, rfl, sub⟩ := same
  have kept : Filled all { s with candidates := l } := fun k hk => filled k (sub.mem hk)
  obtain ⟨released, filled, -⟩ := (h.keep sub).release kept
  obtain ⟨back, taken⟩ := putBack_release { s with candidates := l } s.queue
  have room : (({ s with candidates := l } : Scanner).release s.queue).2.length ≤
      (({ s with candidates := l } : Scanner).release s.queue).1.taken := by
    rw [taken]
    exact Nat.le_add_left _ _
  refine ⟨all, columns, released, filled, ?_, room⟩
  rw [← fetched, ← fetch_putBack (released.took room)]
  exact congrArg Scanner.fetch back.symm

/-- A feed without a fault is the queue at the end. -/
theorem finish_of_feed (steps : Nat) (h : Trail src all columns s) (filled : Filled all s)
    (clean : (feed steps s).fault = none) :
    ∃ z, finish steps s = .ok z ∧ z.queue = (feed steps s).items := by
  induction steps generalizing s all columns with
  | zero => exact ⟨s, rfl, rfl⟩
  | succ steps ih =>
    rw [feed] at clean ⊢
    rw [finish]
    split at clean
    · next ended => exact ⟨s, by rw [if_pos ended], by rw [if_pos ended]⟩
    · next going =>
      rw [if_neg going, if_neg going]
      generalize checked : (if s.queue.isEmpty then Except.ok s else s.dropStale) = fresh at clean ⊢
      cases fresh with
      | error e => cases clean
      | ok u =>
        obtain ⟨all', columns', trail, filled', fetched, room⟩ := h.between filled checked
        rw [fetched]
        dsimp only at clean ⊢
        generalize u.release u.queue = r at *
        obtain ⟨v, released⟩ := r
        dsimp only at *
        cases next : v.fetch with
        | error e =>
          rw [next] at clean
          cases clean
        | ok t =>
          rw [next] at clean
          dsimp only at clean ⊢
          obtain ⟨all'', columns'', trail, filled, same, -⟩ := trail.fetch filled' next
          obtain ⟨z, done, queue⟩ := ih trail filled clean
          refine ⟨z.putBack released, ?_, by rw [queue_putBack, queue]⟩
          show finish steps (t.putBack released) = _
          rw [finish_putBack steps trail filled (by rw [same]; exact room), done]
          rfl

/-- What fetches come to at the end is the feed, and there is no fault. -/
theorem feed_of_finish (steps : Nat) (h : Trail src all columns s) (filled : Filled all s) {z : Scanner}
    (done : finish steps s = .ok z) : feed steps s = ⟨z.queue, none⟩ := by
  induction steps generalizing s all columns z with
  | zero => cases done; rfl
  | succ steps ih =>
    rw [feed]
    rw [finish] at done
    split at done
    · next ended =>
      cases done
      rw [if_pos ended]
    · next going =>
      rw [if_neg going]
      obtain ⟨t, fetched, done⟩ := bind_eq_ok.mp done
      cases checked : (if s.queue.isEmpty then Except.ok s else s.dropStale) with
      | error e =>
        split at checked
        · cases checked
        · obtain ⟨e', missed⟩ := h.fetch_of_stale filled checked
          rw [missed] at fetched
          cases fetched
      | ok u =>
        obtain ⟨all', columns', trail, filled', same, room⟩ := h.between filled checked
        rw [same] at fetched
        dsimp only
        generalize u.release u.queue = r at *
        obtain ⟨v, released⟩ := r
        dsimp only at *
        cases next : v.fetch with
        | error e =>
          rw [next] at fetched
          cases fetched
        | ok w =>
          rw [next] at fetched
          cases fetched
          obtain ⟨all'', columns'', trail, filled, same, -⟩ := trail.fetch filled' next
          rw [finish_putBack steps trail filled (by rw [same]; exact room)] at done
          cases rest : finish steps w with
          | error e =>
            rw [rest] at done
            cases done
          | ok y =>
            rw [rest] at done
            cases done
            dsimp only
            rw [ih trail filled rest]
            rfl

end YamlEdit.Scan.Scanner
