import YamlEdit.Proofs.Token.Readers

/-!
# Cutting into tokens moves on

A fetch takes at least one character off the text or ends it. So the bound on the number of fetches
that a feed is given never shows: any two bounds above the length of the text give the same feed.
-/

namespace YamlEdit

theorem Cursor.rest_reach (c : Cursor) (rest : Text) :
    (c.reach rest).rest = c.rest.drop (c.rest.length - rest.length) :=
  rest_advance _ c

namespace Scan.Scanner

/-! ## Steps that stay where they are -/

@[simp] theorem cursor_push (s : Scanner) (kind : Token.Kind) (start stop : Mark) :
    (s.push kind start stop).cursor = s.cursor := rfl

@[simp] theorem cursor_pushHere (s : Scanner) (kind : Token.Kind) :
    (s.pushHere kind).cursor = s.cursor := rfl

@[simp] theorem cursor_insertBefore (s : Scanner) (k : Candidate) (kind : Token.Kind) :
    (s.insertBefore k kind).cursor = s.cursor := rfl

@[simp] theorem cursor_forget (s : Scanner) : s.forget.cursor = s.cursor := rfl

@[simp] theorem cursor_enter (s : Scanner) (column : Nat) : (s.enter column).cursor = s.cursor := rfl

@[simp] theorem cursor_startBlock (s : Scanner) (kind : Token.Kind) :
    (s.startBlock kind).cursor = s.cursor := by
  rw [startBlock]
  split <;> rfl

@[simp] theorem cursor_endBlocks (s : Scanner) (column : Int) (outer : List Int) :
    (s.endBlocks column outer).cursor = s.cursor := by
  induction outer generalizing s with
  | nil => rfl
  | cons around outer ih =>
    rw [endBlocks]
    split
    · rw [ih]; rfl
    · rfl

@[simp] theorem cursor_unwind (s : Scanner) (column : Int) : (s.unwind column).cursor = s.cursor := by
  rw [unwind]
  split
  · exact cursor_endBlocks ..
  · rfl

theorem cursor_dropCandidate {s t : Scanner} (h : s.dropCandidate = .ok t) :
    t.cursor = s.cursor := by
  rw [dropCandidate] at h
  split at h
  · split at h
    · cases h
    · cases h; rfl
  · cases h; rfl

theorem cursor_dropStale {s t : Scanner} (h : s.dropStale = .ok t) : t.cursor = s.cursor := by
  rw [dropStale] at h
  split at h
  · cases h
  · cases h; rfl

theorem cursor_addCandidate {s t : Scanner} (h : s.addCandidate = .ok t) :
    t.cursor = s.cursor := by
  rw [addCandidate] at h
  split at h
  · obtain ⟨dropped, hd, h⟩ := bind_eq_ok.mp h
    cases h
    have same := cursor_dropCandidate hd
    exact same
  · cases h; rfl

theorem level_addCandidate {s t : Scanner} (h : s.addCandidate = .ok t) : t.level = s.level := by
  rw [addCandidate] at h
  split at h
  · obtain ⟨dropped, hd, h⟩ := bind_eq_ok.mp h
    cases h
    rw [dropCandidate] at hd
    split at hd
    · split at hd
      · cases hd
      · cases hd; rfl
    · cases hd; rfl
  · cases h; rfl

/-! ## Steps that move on -/

/-- At least `n` characters lie between two states. -/
def Past (n : Nat) (s t : Scanner) : Prop :=
  ∃ k, n ≤ k ∧ t.cursor.rest = s.cursor.rest.drop k

theorem Past.refl (s : Scanner) : Past 0 s s :=
  ⟨0, Nat.le_refl 0, rfl⟩

theorem Past.of_cursor {s t : Scanner} (h : t.cursor = s.cursor) : Past 0 s t :=
  ⟨0, Nat.le_refl 0, by rw [h, List.drop_zero]⟩

theorem Past.trans {m n : Nat} {s t u : Scanner} (first : Past m s t) (second : Past n t u) :
    Past (m + n) s u := by
  obtain ⟨j, hj, ht⟩ := first
  obtain ⟨k, hk, hu⟩ := second
  exact ⟨j + k, Nat.add_le_add hj hk, by rw [hu, ht, List.drop_drop]⟩

theorem Past.weaken {m n : Nat} {s t : Scanner} (h : Past n s t) (le : m ≤ n) : Past m s t := by
  obtain ⟨k, hk, ht⟩ := h
  exact ⟨k, Nat.le_trans le hk, ht⟩

theorem Past.length_le {n : Nat} {s t : Scanner} (h : Past n s t) :
    t.cursor.rest.length ≤ s.cursor.rest.length - n := by
  obtain ⟨k, hk, ht⟩ := h
  rw [ht, List.length_drop]
  omega

theorem Past.mem {n : Nat} {s t : Scanner} (h : Past n s t) {c : Char} (hc : c ∈ t.cursor.rest) :
    c ∈ s.cursor.rest := by
  obtain ⟨k, _, ht⟩ := h
  rw [ht] at hc
  exact List.mem_of_mem_drop hc

theorem past_takeTo {s u : Scanner} (same : u.cursor = s.cursor) (kind : Token.Kind) {rest : Text}
    (h : rest.length < s.cursor.rest.length) : Past 1 s (u.takeTo kind rest) := by
  refine ⟨s.cursor.rest.length - rest.length, by omega, ?_⟩
  rw [← same]
  exact Cursor.rest_reach ..

theorem past_takeChars {s u : Scanner} (same : u.cursor = s.cursor) (kind : Token.Kind) {n : Nat}
    (some : s.cursor.rest ≠ []) (h : 1 ≤ n) : Past 1 s (u.takeChars kind n) := by
  refine past_takeTo same kind ?_
  have := List.length_pos_iff.mpr some
  rw [same, List.length_drop]
  omega

theorem Past.of_reach {s t : Scanner} {rest : Text} (h : t.cursor = s.cursor.reach rest) :
    Past 0 s t :=
  ⟨_, Nat.zero_le _, by rw [h, Cursor.rest_reach]⟩

theorem past_toNextToken (steps : Nat) (s : Scanner) : Past 0 s (toNextToken steps s) := by
  induction steps generalizing s with
  | zero => exact .refl s
  | succ steps ih =>
    simp only [toNextToken]
    split
    · exact .of_reach rfl
    · exact Past.trans (.of_reach rfl) (ih _)

theorem past_skipMark (s : Scanner) : Past 0 s s.skipMark := by
  rw [skipMark]
  split
  · split
    · exact .of_reach rfl
    · exact .refl s
  · exact .refl s

/-! ## The tokens -/

/-- A plain scalar starts with a character of a word. -/
theorem word_of_startsPlain {flow : Bool} {c : Char} {r : Text}
    (h : startsPlain flow c r = true) :
    isBreak c = false ∧ c ≠ ' ' ∧ Plain.endsWord flow (c :: r) = false := by
  simp only [startsPlain, Bool.or_eq_true, Bool.not_eq_true', Bool.and_eq_true, beq_iff_eq] at h
  rcases h with h | ⟨hr, rfl | ⟨rfl, rfl | rfl⟩⟩
  · simp [atSpace, endOr] at h
    refine ⟨h.1.2, h.1.1.1, ?_⟩
    simp [Plain.endsWord]
    grind
  · cases flow <;> exact ⟨rfl, by decide, rfl⟩
  · exact ⟨rfl, by decide, rfl⟩
  · exact ⟨rfl, by decide, by simp [Plain.endsWord, hr, isBreak]⟩

section Fetch

variable {s t : Scanner} (more : s.cursor.rest ≠ [])
include more

/-- What a reader leaves of the text behind the first character. -/
theorem length_lt_of_le_drop {rest : Text} (h : rest.length ≤ (s.cursor.rest.drop 1).length) :
    rest.length < s.cursor.rest.length := by
  have := List.length_pos_iff.mpr more
  rw [List.length_drop] at h
  omega

theorem past_fetchDirective (h : s.fetchDirective = .ok t) : Past 1 s t := by
  rw [fetchDirective] at h
  obtain ⟨u, hu, h⟩ := bind_eq_ok.mp h
  have same := cursor_dropCandidate hu
  rw [cursor_unwind] at same
  split at h
  · cases h
  · next line hl =>
    have read := length_directive_stop_le hl
    rw [same] at read
    cases h
    exact (past_takeTo same _ (length_lt_of_le_drop more read)).trans (.of_reach rfl)

theorem past_fetchSeparator {kind : Token.Kind} (h : s.fetchSeparator kind = .ok t) :
    Past 1 s t := by
  rw [fetchSeparator] at h
  obtain ⟨u, hu, h⟩ := bind_eq_ok.mp h
  have same := cursor_dropCandidate hu
  rw [cursor_unwind] at same
  cases h
  exact past_takeChars (u := { u with keyAllowed := false }) same kind more (by omega)

theorem past_fetchOpening {kind : Token.Kind} (h : s.fetchOpening kind = .ok t) : Past 1 s t := by
  rw [fetchOpening] at h
  obtain ⟨u, hu, h⟩ := bind_eq_ok.mp h
  have same := cursor_addCandidate hu
  cases h
  exact past_takeChars (u := { u with level := u.level + 1, keyAllowed := true }) same kind more
    (Nat.le_refl 1)

theorem past_fetchClosing {kind : Token.Kind} (h : s.fetchClosing kind = .ok t) : Past 1 s t := by
  rw [fetchClosing] at h
  obtain ⟨u, hu, h⟩ := bind_eq_ok.mp h
  have same := cursor_dropCandidate hu
  cases h
  exact past_takeChars (u := { u with level := u.level - 1, keyAllowed := false }) same kind more
    (Nat.le_refl 1)

theorem past_fetchFlowEntry (h : s.fetchFlowEntry = .ok t) : Past 1 s t := by
  rw [fetchFlowEntry] at h
  obtain ⟨u, hu, h⟩ := bind_eq_ok.mp h
  have same := cursor_dropCandidate hu
  cases h
  exact past_takeChars same _ more (Nat.le_refl 1)

theorem past_fetchBlockEntry (h : s.fetchBlockEntry = .ok t) : Past 1 s t := by
  rw [fetchBlockEntry] at h
  obtain ⟨_, h⟩ := guard_eq_ok.mp h
  obtain ⟨u, hu, h⟩ := bind_eq_ok.mp h
  have same := (cursor_dropCandidate hu).trans (cursor_startBlock s _)
  cases h
  exact past_takeChars same _ more (Nat.le_refl 1)

theorem past_fetchKey (h : s.fetchKey = .ok t) : Past 1 s t := by
  rw [fetchKey] at h
  obtain ⟨_, h⟩ := guard_eq_ok.mp h
  obtain ⟨u, hu, h⟩ := bind_eq_ok.mp h
  have same := (cursor_dropCandidate hu).trans (cursor_startBlock s _)
  cases h
  exact past_takeChars same _ more (Nat.le_refl 1)

theorem past_fetchValue (h : s.fetchValue = .ok t) : Past 1 s t := by
  rw [fetchValue] at h
  split at h
  · next k _ =>
    dsimp only at h
    cases h
    refine past_takeChars ?_ _ more (Nat.le_refl 1)
    split <;> rfl
  · obtain ⟨_, h⟩ := guard_eq_ok.mp h
    obtain ⟨u, hu, h⟩ := bind_eq_ok.mp h
    have same := (cursor_dropCandidate hu).trans (cursor_startBlock s _)
    cases h
    exact past_takeChars same _ more (Nat.le_refl 1)

theorem past_fetchName {of : ScanFault.Owner} {kind : Text → Token.Kind}
    (h : s.fetchName of kind = .ok t) : Past 1 s t := by
  rw [fetchName] at h
  obtain ⟨u, hu, h⟩ := bind_eq_ok.mp h
  have same := cursor_addCandidate hu
  split at h
  · cases h
  · next name rest hn =>
    have read := length_anchorName_le hn
    rw [same] at read
    cases h
    exact past_takeTo (u := { u with keyAllowed := false }) same _ (length_lt_of_le_drop more read)

theorem past_fetchTag (h : s.fetchTag = .ok t) : Past 1 s t := by
  rw [fetchTag] at h
  obtain ⟨u, hu, h⟩ := bind_eq_ok.mp h
  have same := cursor_addCandidate hu
  split at h
  · cases h
  · next short name rest hn =>
    have read := length_tag_le hn
    rw [same] at read
    cases h
    exact past_takeTo (u := { u with keyAllowed := false }) same _ (length_lt_of_le_drop more read)

theorem past_fetchBlock {folds : Bool} (h : s.fetchBlock folds = .ok t) : Past 1 s t := by
  rw [fetchBlock] at h
  obtain ⟨u, hu, h⟩ := bind_eq_ok.mp h
  have same := cursor_dropCandidate hu
  dsimp only at same
  split at h
  · cases h
  · next r hr =>
    have read := Block.length_read_stop_le hr
    rw [same] at read
    cases h
    exact (past_takeTo same _ (length_lt_of_le_drop more read)).trans (.of_reach rfl)

theorem past_fetchQuoted {double : Bool} (h : s.fetchQuoted double = .ok t) : Past 1 s t := by
  rw [fetchQuoted] at h
  obtain ⟨u, hu, h⟩ := bind_eq_ok.mp h
  have same := cursor_addCandidate hu
  split at h
  · cases h
  · next text rest hn =>
    have read := Quoted.length_read_le hn
    rw [same] at read
    cases h
    exact past_takeTo (u := { u with keyAllowed := false }) same _ (length_lt_of_le_drop more read)

end Fetch

theorem past_fetchPlain {s t : Scanner} {c : Char} {r : Text} (here : s.cursor.rest = c :: r)
    (starts : startsPlain (s.level != 0) c r = true) (h : s.fetchPlain = .ok t) : Past 1 s t := by
  rw [fetchPlain] at h
  obtain ⟨u, hu, h⟩ := bind_eq_ok.mp h
  have same := cursor_addCandidate hu
  have level := level_addCandidate hu
  have read : (Plain.read (u.level != 0) (u.indent + 1).toNat u.cursor.rest).stop.length <
      s.cursor.rest.length := by
    rw [same, level, here]
    obtain ⟨line, space, word⟩ := word_of_startsPlain starts
    have pair : isReturnOfPair c r = false := by
      simp only [isBreak, Bool.or_eq_false_iff] at line
      simp [isReturnOfPair, line.1.1.1.1]
    exact Plain.length_read_stop_lt pair line space word
  cases h
  exact (past_takeTo same _ read).trans (.of_reach rfl)

/-- Every token takes a character. -/
theorem past_fetchAt {s t : Scanner} {c : Char} {r : Text} (here : s.cursor.rest = c :: r)
    (h : s.fetchAt c r = .ok t) : Past 1 s t := by
  have more : s.cursor.rest ≠ [] := here ▸ List.cons_ne_nil c r
  revert h
  rw [fetchAt]
  refine of_ite_eq (fun _ => past_fetchDirective more) fun _ => ?_
  refine of_ite_eq (fun _ => past_fetchSeparator more) fun _ => ?_
  refine of_ite_eq (fun _ => past_fetchSeparator more) fun _ => ?_
  refine of_ite_eq (fun _ => past_fetchOpening more) fun _ => ?_
  refine of_ite_eq (fun _ => past_fetchOpening more) fun _ => ?_
  refine of_ite_eq (fun _ => past_fetchClosing more) fun _ => ?_
  refine of_ite_eq (fun _ => past_fetchClosing more) fun _ => ?_
  refine of_ite_eq (fun _ => past_fetchFlowEntry more) fun _ => ?_
  refine of_ite_eq (fun _ => past_fetchBlockEntry more) fun _ => ?_
  refine of_ite_eq (fun _ => past_fetchKey more) fun _ => ?_
  refine of_ite_eq (fun _ => past_fetchValue more) fun _ => ?_
  refine of_ite_eq (fun _ => past_fetchName more) fun _ => ?_
  refine of_ite_eq (fun _ => past_fetchName more) fun _ => ?_
  refine of_ite_eq (fun _ => past_fetchTag more) fun _ => ?_
  refine of_ite_eq (fun _ => past_fetchBlock more) fun _ => ?_
  refine of_ite_eq (fun _ => past_fetchBlock more) fun _ => ?_
  refine of_ite_eq (fun _ => past_fetchQuoted more) fun _ => ?_
  refine of_ite_eq (fun _ => past_fetchQuoted more) fun _ => ?_
  refine of_ite_eq (past_fetchPlain here) ?_
  intro _ h
  cases h

/-- A fetch never goes back, and it ends the text or takes a character. -/
theorem past_fetch {s t : Scanner} (h : s.fetch = .ok t) :
    Past 0 s t ∧ (t.ended = true ∨ t.cursor.rest.length < s.cursor.rest.length) := by
  rw [fetch] at h
  obtain ⟨u, hu, h⟩ := bind_eq_ok.mp h
  have before : Past 0 s (u.unwind u.cursor.mark.column) :=
    ((past_skipMark s).trans (past_toNextToken _ _)).trans
      (.of_cursor ((cursor_unwind ..).trans (cursor_dropStale hu)))
  dsimp only at h
  split at h
  · rw [fetchEnd] at h
    obtain ⟨w, hw, h⟩ := bind_eq_ok.mp h
    have same := cursor_dropCandidate hw
    rw [cursor_unwind] at same
    cases h
    exact ⟨before.trans (.of_cursor same), .inl rfl⟩
  · next c r here =>
    have token := past_fetchAt here h
    refine ⟨(before.trans token).weaken (Nat.zero_le _), .inr ?_⟩
    have behind := token.length_le
    have ahead := before.length_le
    rw [here, List.length_cons] at behind ahead
    omega

/-! ## Bounds that never show -/

/-- Going to the next token takes a line break in every step but the last. -/
theorem toNextToken_steps {m n : Nat} {s : Scanner} (hm : s.cursor.rest.length < m)
    (hn : s.cursor.rest.length < n) : toNextToken m s = toNextToken n s := by
  induction m generalizing n s with
  | zero => omega
  | succ m ih =>
    cases n with
    | zero => omega
    | succ n =>
      simp only [toNextToken]
      split
      · rfl
      · next next hb =>
        have shorter : (s.cursor.reach next).rest.length < s.cursor.rest.length := by
          have line := length_afterBreak?_lt hb
          have comment := length_skipComment_le s.cursor.rest
          rw [Cursor.rest_reach, List.length_drop]
          omega
        exact ih (by dsimp only; omega) (by dsimp only; omega)

@[simp] theorem cursor_release (s : Scanner) (queue : List Token) :
    (s.release queue).1.cursor = s.cursor := by
  induction queue generalizing s with
  | nil => rfl
  | cons token queue ih =>
    rw [release]
    split
    · rfl
    · exact ih _

theorem feed_of_ended {s : Scanner} (steps : Nat) (ended : s.ended = true) :
    feed steps s = ⟨s.queue, none⟩ := by
  cases steps with
  | zero => rfl
  | succ steps => rw [feed, if_pos ended]

/-- Any two bounds above the length of the text give the same feed. -/
theorem feed_steps {m n : Nat} {s : Scanner} (hm : s.cursor.rest.length < m)
    (hn : s.cursor.rest.length < n) : feed m s = feed n s := by
  induction m generalizing n s with
  | zero => omega
  | succ m ih =>
    cases n with
    | zero => omega
    | succ n =>
      simp only [feed]
      split
      · rfl
      · generalize hc : (if s.queue.isEmpty then Except.ok s else s.dropStale) = checked
        cases checked with
        | error e => rfl
        | ok u =>
          have same : u.cursor = s.cursor := by
            split at hc
            · cases hc; rfl
            · exact cursor_dropStale hc
          dsimp only
          cases hf : (u.release u.queue).1.fetch with
          | error e => rfl
          | ok w =>
            dsimp only
            obtain ⟨-, ended | shorter⟩ := past_fetch hf
            · rw [feed_of_ended m ended, feed_of_ended n ended]
            · rw [cursor_release, same] at shorter
              rw [ih (n := n) (by omega) (by omega)]

end Scan.Scanner

end YamlEdit
