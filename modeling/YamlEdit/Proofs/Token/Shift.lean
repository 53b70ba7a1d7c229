import Mathlib.Data.List.InsertIdx
import YamlEdit.Proofs.Token.Progress

/-!
# A text further down

Cutting into tokens sees what is left of the text, columns and distances, and never how far down
the text stands. So a text that follows others is cut like one of its own: the scanner, its tokens
and its faults are the same, with all marks moved by the characters and lines before.

The one exception is the byte order mark, which is skipped at the start of a text only; the
statements about `fetch` and `feed` are for texts that have none.
-/

namespace YamlEdit

/-- The place of a text inside of another: the other text, and the characters and lines that come
before. -/
structure Shift where
  source : Text
  characters : Nat
  lines : Nat

namespace Shift

open Scan Scanner

variable (d : Shift)

/-- A mark of the inner text as one of the outer text. -/
def mark (m : Mark) : Mark :=
  ⟨m.index + d.characters, m.line + d.lines, m.column⟩

def cursor (c : Cursor) : Cursor :=
  ⟨c.rest, d.mark c.mark⟩

def token (t : Token) : Token :=
  ⟨t.kind, d.mark t.start, d.mark t.stop⟩

def candidate (k : Candidate) : Candidate :=
  { k with mark := d.mark k.mark }

def scanner (s : Scanner) : Scanner :=
  { s with
    source := d.source
    cursor := d.cursor s.cursor
    candidates := s.candidates.map d.candidate
    queue := s.queue.map d.token }

def error (e : ScanError) : ScanError :=
  ⟨e.cause, d.source, e.began.map d.mark, e.failed.map d.mark⟩

def step : Step → Step
  | .ok s => .ok (d.scanner s)
  | .error e => .error (d.error e)

/-! ## Marks and cursors -/

theorem mark_past (m : Mark) (c : Char) (r : Text) : d.mark (m.past c r) = (d.mark m).past c r := by
  unfold Mark.past mark
  split
  · simp [Nat.add_right_comm]
  · split <;> simp [Nat.add_right_comm]

@[simp] theorem rest_cursor (c : Cursor) : (d.cursor c).rest = c.rest := rfl

@[simp] theorem column_cursor (c : Cursor) : (d.cursor c).mark.column = c.mark.column := rfl

theorem cursor_advance (n : Nat) (c : Cursor) :
    d.cursor (Cursor.advance n c) = Cursor.advance n (d.cursor c) := by
  induction n generalizing c with
  | zero => rfl
  | succ n ih =>
    obtain ⟨rest, m⟩ := c
    cases rest with
    | nil => rfl
    | cons ch r =>
      simp only [Cursor.advance, cursor]
      rw [← cursor, ih]
      simp only [cursor, mark_past]

theorem cursor_reach (c : Cursor) (rest : Text) :
    (d.cursor c).reach rest = d.cursor (c.reach rest) :=
  (d.cursor_advance _ c).symm

/-! ## Scanners -/

section Fields

variable (s : Scanner)

@[simp] theorem cursor_scanner : (d.scanner s).cursor = d.cursor s.cursor := rfl
@[simp] theorem level_scanner : (d.scanner s).level = s.level := rfl
@[simp] theorem indent_scanner : (d.scanner s).indent = s.indent := rfl
@[simp] theorem outer_scanner : (d.scanner s).outer = s.outer := rfl
@[simp] theorem queue_scanner : (d.scanner s).queue = s.queue.map d.token := rfl
@[simp] theorem taken_scanner : (d.scanner s).taken = s.taken := rfl
@[simp] theorem ended_scanner : (d.scanner s).ended = s.ended := rfl
@[simp] theorem candidates_scanner :
    (d.scanner s).candidates = s.candidates.map d.candidate := rfl

end Fields

@[simp] theorem step_ok (s : Scanner) : d.step (.ok s) = .ok (d.scanner s) := rfl

theorem step_bind {x : Step} {f g : Scanner → Step} (h : ∀ s, g (d.scanner s) = d.step (f s)) :
    (d.step x >>= g) = d.step (x >>= f) := by
  cases x with
  | ok s => exact h s
  | error e => rfl

theorem step_ite {c : Prop} [Decidable c] {x y x' y' : Step} (left : x' = d.step x)
    (right : y' = d.step y) : (if c then x' else y') = d.step (if c then x else y) := by
  split
  · exact left
  · exact right

theorem faultAt_scanner (s : Scanner) (f : Failure) :
    (d.scanner s).faultAt f = d.error (s.faultAt f) := by
  simp only [faultAt, cursor_scanner, cursor_reach, error]
  rfl

theorem push_scanner (s : Scanner) (kind : Token.Kind) (start stop : Mark) :
    (d.scanner s).push kind (d.mark start) (d.mark stop) = d.scanner (s.push kind start stop) := by
  simp [push, scanner, token]

theorem pushHere_scanner (s : Scanner) (kind : Token.Kind) :
    (d.scanner s).pushHere kind = d.scanner (s.pushHere kind) :=
  d.push_scanner s kind _ _

theorem takeTo_scanner (s : Scanner) (kind : Token.Kind) (rest : Text) :
    (d.scanner s).takeTo kind rest = d.scanner (s.takeTo kind rest) := by
  simp only [takeTo, cursor_scanner, cursor_reach]
  have pushed := d.push_scanner s kind s.cursor.mark (s.cursor.reach rest).mark
  simp only [scanner, cursor] at pushed ⊢
  rw [pushed]

theorem takeChars_scanner (s : Scanner) (kind : Token.Kind) (n : Nat) :
    (d.scanner s).takeChars kind n = d.scanner (s.takeChars kind n) :=
  d.takeTo_scanner s kind _

theorem insertBefore_scanner (s : Scanner) (k : Candidate) (kind : Token.Kind) :
    (d.scanner s).insertBefore (d.candidate k) kind = d.scanner (s.insertBefore k kind) := by
  simp only [insertBefore, scanner, candidate, List.map_insertIdx]
  rfl

theorem candidate?_scanner (s : Scanner) :
    (d.scanner s).candidate? = s.candidate?.map d.candidate := by
  simp only [candidate?, candidates_scanner, List.find?_map]
  rfl

theorem forget_scanner (s : Scanner) : (d.scanner s).forget = d.scanner s.forget := by
  simp only [forget, scanner, List.filter_map]
  rfl

theorem dropCandidate_scanner (s : Scanner) :
    (d.scanner s).dropCandidate = d.step s.dropCandidate := by
  unfold dropCandidate
  rw [candidate?_scanner]
  cases s.candidate? with
  | none => rfl
  | some k =>
    simp only [Option.map_some, candidate]
    exact d.step_ite rfl (congrArg Except.ok (d.forget_scanner s))

theorem isStale_scanner (s : Scanner) (k : Candidate) :
    (d.scanner s).isStale (d.candidate k) = s.isStale k := by
  simp only [isStale, scanner, cursor, candidate, mark, Nat.add_sub_add_right]
  congr 1
  rw [Bool.eq_iff_iff]
  simp

theorem dropStale_scanner (s : Scanner) : (d.scanner s).dropStale = d.step s.dropStale := by
  have stale (k : Candidate) : (d.scanner s).isStale (d.candidate k) = s.isStale k :=
    d.isStale_scanner s k
  simp only [dropStale, candidates_scanner, List.find?_map, List.filter_map, Function.comp_def,
    stale]
  have required (k : Candidate) : (d.candidate k).required = k.required := rfl
  simp only [required]
  cases s.candidates.find? fun k => s.isStale k && k.required with
  | some k => rfl
  | none => rfl

theorem addCandidate_scanner (s : Scanner) :
    (d.scanner s).addCandidate = d.step s.addCandidate := by
  rw [addCandidate]
  refine d.step_ite ?_ rfl
  rw [dropCandidate_scanner]
  refine d.step_bind ?_
  intro u
  simp [scanner, candidate, cursor, pure, Except.pure, step, mark]

theorem endBlocks_scanner (s : Scanner) (column : Int) (outer : List Int) :
    (d.scanner s).endBlocks column outer = d.scanner (s.endBlocks column outer) := by
  induction outer generalizing s with
  | nil => rfl
  | cons around outer ih =>
    unfold endBlocks
    rw [indent_scanner, pushHere_scanner]
    split
    · exact ih { s.pushHere .blockEnd with indent := around, outer := outer }
    · rfl

theorem unwind_scanner (s : Scanner) (column : Int) :
    (d.scanner s).unwind column = d.scanner (s.unwind column) := by
  unfold unwind
  rw [level_scanner, outer_scanner, endBlocks_scanner]
  split <;> rfl

theorem enter_scanner (s : Scanner) (column : Nat) :
    (d.scanner s).enter column = d.scanner (s.enter column) := rfl

theorem startBlock_scanner (s : Scanner) (kind : Token.Kind) :
    (d.scanner s).startBlock kind = d.scanner (s.startBlock kind) := by
  unfold startBlock
  simp only [cursor_scanner, column_cursor, enter_scanner, pushHere_scanner]
  have opens : (d.scanner s).opensBlock s.cursor.mark.column =
    s.opensBlock s.cursor.mark.column := rfl
  rw [opens]
  split <;> rfl

theorem toNextToken_scanner (steps : Nat) (s : Scanner) :
    toNextToken steps (d.scanner s) = d.scanner (toNextToken steps s) := by
  induction steps generalizing s with
  | zero => rfl
  | succ steps ih =>
    simp only [toNextToken, cursor_scanner, rest_cursor, cursor_reach]
    cases afterBreak? (skipComment s.cursor.rest) with
    | none => rfl
    | some next =>
      exact ih
        { s with cursor := s.cursor.reach next, keyAllowed := s.keyAllowed || s.level == 0 }

/-! ## The tokens -/

theorem fetchEnd_scanner (s : Scanner) : (d.scanner s).fetchEnd = d.step s.fetchEnd := by
  rw [fetchEnd]
  rw [unwind_scanner, dropCandidate_scanner]
  refine d.step_bind ?_
  intro u
  simp [scanner, token, cursor, pure, Except.pure, step, pushHere, push]

theorem fetchDirective_scanner (s : Scanner) :
    (d.scanner s).fetchDirective = d.step s.fetchDirective := by
  rw [fetchDirective]
  rw [unwind_scanner, dropCandidate_scanner]
  refine d.step_bind ?_
  intro u
  rw [cursor_scanner, rest_cursor]
  cases directive (u.cursor.rest.drop 1) with
  | error f => exact congrArg Except.error (d.faultAt_scanner u f)
  | ok line =>
    dsimp only
    rw [takeTo_scanner, cursor_scanner, cursor_reach]
    rfl

theorem fetchSeparator_scanner (s : Scanner) (kind : Token.Kind) :
    (d.scanner s).fetchSeparator kind = d.step (s.fetchSeparator kind) := by
  rw [fetchSeparator]
  rw [unwind_scanner, dropCandidate_scanner]
  refine d.step_bind ?_
  intro u
  exact congrArg Except.ok (d.takeChars_scanner { u with keyAllowed := false } kind 3)

theorem fetchOpening_scanner (s : Scanner) (kind : Token.Kind) :
    (d.scanner s).fetchOpening kind = d.step (s.fetchOpening kind) := by
  rw [fetchOpening]
  rw [addCandidate_scanner]
  refine d.step_bind ?_
  intro u
  exact congrArg Except.ok
    (d.takeChars_scanner { u with level := u.level + 1, keyAllowed := true } kind 1)

theorem fetchClosing_scanner (s : Scanner) (kind : Token.Kind) :
    (d.scanner s).fetchClosing kind = d.step (s.fetchClosing kind) := by
  rw [fetchClosing]
  rw [dropCandidate_scanner]
  refine d.step_bind ?_
  intro u
  exact congrArg Except.ok
    (d.takeChars_scanner { u with level := u.level - 1, keyAllowed := false } kind 1)

theorem fetchFlowEntry_scanner (s : Scanner) :
    (d.scanner s).fetchFlowEntry = d.step s.fetchFlowEntry := by
  rw [fetchFlowEntry]
  have dropped := d.dropCandidate_scanner { s with keyAllowed := true }
  refine (congrArg (· >>= _) dropped).trans (d.step_bind fun u => ?_)
  exact congrArg Except.ok (d.takeChars_scanner u .flowEntry 1)

theorem fetchBlockEntry_scanner (s : Scanner) :
    (d.scanner s).fetchBlockEntry = d.step s.fetchBlockEntry := by
  rw [fetchBlockEntry]
  rw [startBlock_scanner]
  refine d.step_ite rfl ?_
  have dropped := d.dropCandidate_scanner { s.startBlock .blockSequenceStart with keyAllowed := true }
  refine (congrArg (· >>= _) dropped).trans (d.step_bind fun u => ?_)
  exact congrArg Except.ok (d.takeChars_scanner u .blockEntry 1)

theorem fetchKey_scanner (s : Scanner) : (d.scanner s).fetchKey = d.step s.fetchKey := by
  rw [fetchKey]
  rw [startBlock_scanner]
  refine d.step_ite rfl ?_
  have dropped := d.dropCandidate_scanner
    { s.startBlock .blockMappingStart with keyAllowed := s.level == 0 }
  refine (congrArg (· >>= _) dropped).trans (d.step_bind fun u => ?_)
  exact congrArg Except.ok (d.takeChars_scanner u .key 1)

theorem fetchValue_scanner (s : Scanner) : (d.scanner s).fetchValue = d.step s.fetchValue := by
  unfold fetchValue
  rw [candidate?_scanner]
  cases s.candidate? with
  | some k =>
    dsimp only [Option.map_some]
    rw [forget_scanner, insertBefore_scanner]
    generalize s.forget.insertBefore k .key = u
    have opens : (d.scanner u).opensBlock (d.candidate k).mark.column =
      u.opensBlock k.mark.column := rfl
    rw [opens]
    split
    · rw [enter_scanner, insertBefore_scanner]
      exact congrArg Except.ok (d.takeChars_scanner
        { (u.enter k.mark.column).insertBefore k .blockMappingStart with keyAllowed := false } _ 1)
    · exact congrArg Except.ok (d.takeChars_scanner { u with keyAllowed := false } _ 1)
  | none =>
    dsimp only [Option.map_none]
    rw [startBlock_scanner]
    refine d.step_ite rfl ?_
    have dropped := d.dropCandidate_scanner
      { s.startBlock .blockMappingStart with keyAllowed := s.level == 0 }
    refine (congrArg (· >>= _) dropped).trans (d.step_bind fun u => ?_)
    exact congrArg Except.ok (d.takeChars_scanner u .value 1)

theorem fetchName_scanner (s : Scanner) (of : ScanFault.Owner) (kind : Text → Token.Kind) :
    (d.scanner s).fetchName of kind = d.step (s.fetchName of kind) := by
  rw [fetchName]
  rw [addCandidate_scanner]
  refine d.step_bind ?_
  intro u
  rw [cursor_scanner, rest_cursor]
  cases anchorName of (u.cursor.rest.drop 1) with
  | error f => exact congrArg Except.error (d.faultAt_scanner u f)
  | ok r => exact congrArg Except.ok (d.takeTo_scanner { u with keyAllowed := false } _ r.2)

theorem fetchTag_scanner (s : Scanner) : (d.scanner s).fetchTag = d.step s.fetchTag := by
  rw [fetchTag]
  rw [addCandidate_scanner]
  refine d.step_bind ?_
  intro u
  rw [cursor_scanner, rest_cursor]
  cases tag (u.cursor.rest.drop 1) with
  | error f => exact congrArg Except.error (d.faultAt_scanner u f)
  | ok r => exact congrArg Except.ok (d.takeTo_scanner { u with keyAllowed := false } _ r.2)

theorem fetchBlock_scanner (s : Scanner) (folds : Bool) :
    (d.scanner s).fetchBlock folds = d.step (s.fetchBlock folds) := by
  rw [fetchBlock]
  have dropped := d.dropCandidate_scanner { s with keyAllowed := true }
  refine (congrArg (· >>= _) dropped).trans (d.step_bind fun u => ?_)
  rw [cursor_scanner, rest_cursor, indent_scanner]
  cases Block.read folds (u.indent + 1).toNat (u.cursor.rest.drop 1) with
  | error f => exact congrArg Except.error (d.faultAt_scanner u f)
  | ok r =>
    dsimp only
    rw [takeTo_scanner, cursor_scanner, cursor_reach]
    rfl

theorem fetchQuoted_scanner (s : Scanner) (double : Bool) :
    (d.scanner s).fetchQuoted double = d.step (s.fetchQuoted double) := by
  rw [fetchQuoted]
  rw [addCandidate_scanner]
  refine d.step_bind ?_
  intro u
  rw [cursor_scanner, rest_cursor]
  cases Quoted.read double (u.cursor.rest.drop 1) with
  | error f => exact congrArg Except.error (d.faultAt_scanner u f)
  | ok r => exact congrArg Except.ok (d.takeTo_scanner { u with keyAllowed := false } _ r.2)

theorem fetchPlain_scanner (s : Scanner) : (d.scanner s).fetchPlain = d.step s.fetchPlain := by
  rw [fetchPlain]
  rw [addCandidate_scanner]
  refine d.step_bind ?_
  intro u
  rw [cursor_scanner, rest_cursor, indent_scanner, level_scanner]
  dsimp only
  rw [takeTo_scanner, cursor_scanner, cursor_reach]
  rfl

theorem fetchAt_scanner (s : Scanner) (c : Char) (r : Text) :
    (d.scanner s).fetchAt c r = d.step (s.fetchAt c r) := by
  rw [fetchAt]
  rw [level_scanner, cursor_scanner, column_cursor]
  refine d.step_ite (d.fetchDirective_scanner s) ?_
  refine d.step_ite (d.fetchSeparator_scanner s _) ?_
  refine d.step_ite (d.fetchSeparator_scanner s _) ?_
  refine d.step_ite (d.fetchOpening_scanner s _) ?_
  refine d.step_ite (d.fetchOpening_scanner s _) ?_
  refine d.step_ite (d.fetchClosing_scanner s _) ?_
  refine d.step_ite (d.fetchClosing_scanner s _) ?_
  refine d.step_ite (d.fetchFlowEntry_scanner s) ?_
  refine d.step_ite (d.fetchBlockEntry_scanner s) ?_
  refine d.step_ite (d.fetchKey_scanner s) ?_
  refine d.step_ite (d.fetchValue_scanner s) ?_
  refine d.step_ite (d.fetchName_scanner s _ _) ?_
  refine d.step_ite (d.fetchName_scanner s _ _) ?_
  refine d.step_ite (d.fetchTag_scanner s) ?_
  refine d.step_ite (d.fetchBlock_scanner s _) ?_
  refine d.step_ite (d.fetchBlock_scanner s _) ?_
  refine d.step_ite (d.fetchQuoted_scanner s _) ?_
  refine d.step_ite (d.fetchQuoted_scanner s _) ?_
  exact d.step_ite (d.fetchPlain_scanner s) rfl

theorem skipMark_of_not_mem {s : Scanner} (h : '\uFEFF' ∉ s.cursor.rest) : s.skipMark = s := by
  rw [skipMark]
  cases hr : s.cursor.rest with
  | nil => rfl
  | cons c r =>
    rw [hr] at h
    have other : (c == '\uFEFF') = false := by
      simp only [beq_eq_false_iff_ne]
      exact fun same => h (same ▸ List.mem_cons_self)
    simp [other]

/-- What comes behind the way to the next token: all of a fetch but the byte order mark. -/
def fetchFrom (s : Scanner) : Step := do
  let s ← s.dropStale
  let s := s.unwind s.cursor.mark.column
  match s.cursor.rest with
  | [] => s.fetchEnd
  | c :: r => s.fetchAt c r

theorem fetchFrom_scanner (s : Scanner) : fetchFrom (d.scanner s) = d.step (fetchFrom s) := by
  rw [fetchFrom]
  rw [dropStale_scanner]
  refine d.step_bind ?_
  intro u
  rw [cursor_scanner, column_cursor, unwind_scanner]
  dsimp only [cursor_scanner, rest_cursor]
  cases (u.unwind u.cursor.mark.column).cursor.rest with
  | nil => exact d.fetchEnd_scanner _
  | cons c r => exact d.fetchAt_scanner _ c r

/-- A fetch from a text without a byte order mark. -/
theorem fetch_scanner {s : Scanner} (h : '\uFEFF' ∉ s.cursor.rest) :
    (d.scanner s).fetch = d.step s.fetch := by
  have first : (d.scanner s).skipMark = d.scanner s := skipMark_of_not_mem h
  have second : s.skipMark = s := skipMark_of_not_mem h
  have outer : (d.scanner s).fetch =
    fetchFrom (toNextToken (s.cursor.rest.length + 1) (d.scanner s).skipMark) := rfl
  have inner : s.fetch = fetchFrom (toNextToken (s.cursor.rest.length + 1) s.skipMark) := rfl
  rw [outer, inner, first, second, toNextToken_scanner, fetchFrom_scanner]

/-! ## Feeds -/

theorem release_scanner (s : Scanner) (queue : List Token) :
    (d.scanner s).release (queue.map d.token) =
      (d.scanner (s.release queue).1, (s.release queue).2.map d.token) := by
  induction queue generalizing s with
  | nil => rfl
  | cons t queue ih =>
    have head : (d.scanner s).headMayBeKey = s.headMayBeKey := by
      simp [headMayBeKey, Function.comp_def, candidate]
    simp only [List.map_cons, release, head]
    split
    · rfl
    · have rest := ih { s with taken := s.taken + 1 }
      simp only [scanner] at rest ⊢
      rw [rest]
      rfl

/-- The feed of a text without a byte order mark, further down. -/
theorem feed_scanner (steps : Nat) {s : Scanner} (h : '\uFEFF' ∉ s.cursor.rest) :
    feed steps (d.scanner s) =
      ⟨(feed steps s).items.map d.token, (feed steps s).fault.map d.error⟩ := by
  induction steps generalizing s with
  | zero => rfl
  | succ steps ih =>
    simp only [feed, ended_scanner, queue_scanner, List.isEmpty_map]
    split
    · rfl
    · have checked : (if s.queue.isEmpty then Except.ok (d.scanner s) else (d.scanner s).dropStale) =
          d.step (if s.queue.isEmpty then .ok s else s.dropStale) :=
        d.step_ite rfl (d.dropStale_scanner s)
      rw [checked]
      generalize hc : (if s.queue.isEmpty then Except.ok s else s.dropStale) = c
      cases c with
      | error e => rfl
      | ok u =>
        have same : u.cursor = s.cursor := by
          split at hc
          · cases hc; rfl
          · exact cursor_dropStale hc
        dsimp only [step_ok, queue_scanner]
        rw [release_scanner]
        dsimp only
        have free : '\uFEFF' ∉ (u.release u.queue).1.cursor.rest := by
          rw [cursor_release, same]
          exact h
        rw [d.fetch_scanner free]
        cases hf : (u.release u.queue).1.fetch with
        | error e => rfl
        | ok w =>
          have behind : '\uFEFF' ∉ w.cursor.rest := fun hw => free ((past_fetch hf).1.mem hw)
          dsimp only [step_ok]
          rw [ih behind, List.map_append]

end Shift

end YamlEdit
