import YamlEdit.Proofs.Inset.Feed
import YamlEdit.Proofs.Noted.Fetch
import YamlEdit.Proofs.Token.Grows

/-!
# Past another comment

Behind the line of the place the texts are the same, but the numbers of the characters before differ.
Every candidate is in an earlier line there, so it is forgotten at the next token, and what is fetched
from then on is what would be fetched without the tokens so far: in one text the same as in the
other, with all marks moved.

In brackets it may differ whether a key may start, behind a plain scalar. This shows only in tokens
that may start a key, and such a token cannot follow a scalar there.
-/

namespace YamlEdit

open Scan

namespace Scan.Scanner

variable {src : Text} {all : List Token} {columns : List Nat} {s t x : Scanner}

/-! ## Taking all tokens -/

/-- The state behind all tokens so far, none of which starts a key any more. -/
def cleared (s : Scanner) : Scanner :=
  { s with candidates := [], queue := [], taken := s.taken + s.queue.length }

theorem putBack_cleared (s : Scanner) :
    s.cleared.putBack s.queue = { s with candidates := [] } := by
  simp [cleared, putBack]

theorem Trail.cleared (h : Trail src all columns s) :
    Trail src all columns s.cleared ∧ Filled all s.cleared := by
  have room := h.room
  have size := congrArg List.length h.queue
  rw [List.length_drop] at size
  have whole : s.taken + s.queue.length = all.length := by omega
  refine ⟨⟨h.cursor, Nat.le_of_eq whole, ?_, h.lies, h.chain, h.last, h.indents, h.nest, nofun, .nil⟩,
    nofun⟩
  show [] = all.drop (s.taken + s.queue.length)
  rw [whole, List.drop_length]

theorem atNext_cleared (s : Scanner) :
    s.cleared.atNext =
      { s.atNext with candidates := [], queue := [], taken := s.taken + s.queue.length } :=
  atNext_waiting s [] [] _

section Stale

variable (stale : ∀ k ∈ s.candidates, s.atNext.isStale k = true)
include stale

/-- None of the candidates that are forgotten had to become a key. -/
theorem free_of_fetch (hx : s.fetch = .ok x) : ∀ k ∈ s.candidates, k.required = false := by
  intro k hk
  rw [fetch_eq, Shift.fetchFrom] at hx
  obtain ⟨a, dropped, -⟩ := bind_eq_ok.mp hx
  rw [dropStale, candidates_atNext] at dropped
  split at dropped
  · cases dropped
  · next none =>
    have missing := List.find?_eq_none.mp none k hk
    simpa [stale k hk] using missing

theorem fetch_cleared (free : ∀ k ∈ s.candidates, k.required = false) :
    s.fetch = s.cleared.fetch.map (putBack s.queue) := by
  have forgets := dropStale_filter (s := s.atNext) (p := fun _ => false) fun k hk _ => by
    rw [candidates_atNext] at hk
    exact ⟨stale k hk, free k hk⟩
  rw [List.filter_false, ← atNext_candidates, ← putBack_cleared] at forgets
  have took : Took s.queue s.cleared := ⟨Nat.le_add_left _ _, nofun⟩
  rw [← fetch_putBack took, fetch_eq, fetch_eq, Shift.fetchFrom, Shift.fetchFrom, forgets]

end Stale

/-! ## Texts with the same rest -/

theorem past_fetchFrom (ht : Shift.fetchFrom s = .ok t) : Past 0 s t := by
  rw [Shift.fetchFrom] at ht
  obtain ⟨u, hu, ht⟩ := bind_eq_ok.mp ht
  have before : Past 0 s (u.unwind u.cursor.mark.column) :=
    .of_cursor ((cursor_unwind ..).trans (cursor_dropStale hu))
  dsimp only at ht
  split at ht
  · rw [fetchEnd] at ht
    obtain ⟨w, hw, ht⟩ := bind_eq_ok.mp ht
    have same := cursor_dropCandidate hw
    rw [cursor_unwind] at same
    cases ht
    exact before.trans (.of_cursor same)
  · next c r here => exact (before.trans (past_fetchAt here ht)).weaken (Nat.zero_le _)

/-- Marks on the way never go back. -/
theorem Trail.index_le {all' : List Token} {columns' : List Nat} (hs : Trail src all columns s)
    (ht : Trail src all' columns' t) {n : Nat} (past : Past n s t) :
    s.cursor.mark.index ≤ t.cursor.mark.index := by
  have left := past.length_le
  have here := congrArg List.length hs.cursor.rest
  have there := congrArg List.length ht.cursor.rest
  have bound := hs.cursor.index
  have bound' := ht.cursor.index
  rw [List.length_drop] at here there
  omega

theorem fetch_scanner_of_behind (d : Shift) (behind : 0 < s.cursor.mark.index) :
    (d.scanner s).fetch = d.step s.fetch := by
  have further : 0 < (d.scanner s).cursor.mark.index := Nat.lt_of_lt_of_le behind (Nat.le_add_right _ _)
  rw [fetch_eq, fetch_eq, atNext, atNext, skipMark_of_behind further, skipMark_of_behind behind,
    ← Shift.fetchFrom_scanner, ← Shift.toNextToken_scanner]
  rfl

/-- The same fetches, with all marks moved. -/
theorem finish_scanner (d : Shift) (steps : Nat) (h : Trail src all columns s) (filled : Filled all s)
    (behind : 0 < s.cursor.mark.index) :
    finish steps (d.scanner s) = d.step (finish steps s) := by
  induction steps generalizing s all columns with
  | zero => rfl
  | succ steps ih =>
    rw [finish, finish, fetch_scanner_of_behind d behind]
    refine d.step_ite rfl ?_
    cases fetched : s.fetch with
    | error e => rfl
    | ok t =>
      obtain ⟨all', columns', trail, filled', -⟩ := h.fetch filled fetched
      exact ih trail filled' (Nat.lt_of_lt_of_le behind (h.index_le trail (past_fetch fetched).1))

/-- One state is the other with its marks moved. -/
def Moved (s t : Scanner) : Prop :=
  (∃ d : Shift, t = d.scanner s) ∨ ∃ d : Shift, s = d.scanner t

theorem moved_of_level (level : s.cursor.Level t.cursor) (free : s.candidates = []) (empty : s.queue = [])
    (same : t = { s with source := t.source, cursor := t.cursor }) : Moved s t := by
  obtain ⟨source, ⟨rest, m⟩, level, indent, outer, keyAllowed, candidates, queue, taken, ended⟩ := s
  obtain ⟨source', ⟨rest', n⟩, level', indent', outer', keyAllowed', candidates', queue', taken', ended'⟩ := t
  obtain ⟨index, line, column⟩ := m
  obtain ⟨index', line', column'⟩ := n
  obtain ⟨rests, lines, columns⟩ := level
  cases same
  dsimp only at free empty rests lines columns
  subst free empty rests lines columns
  rcases Nat.le_total index index' with le | le
  · obtain ⟨n, rfl⟩ := Nat.exists_eq_add_of_le le
    exact .inl ⟨⟨source', n, 0⟩, rfl⟩
  · obtain ⟨n, rfl⟩ := Nat.exists_eq_add_of_le le
    exact .inr ⟨⟨source, n, 0⟩, rfl⟩

theorem Moved.fetchFrom (m : Moved s t) (hx : Shift.fetchFrom s = .ok x) :
    ∃ y, Shift.fetchFrom t = .ok y ∧ Moved x y := by
  rcases m with ⟨d, rfl⟩ | ⟨d, rfl⟩
  · rw [Shift.fetchFrom_scanner, hx]
    exact ⟨_, rfl, .inl ⟨d, rfl⟩⟩
  · rw [Shift.fetchFrom_scanner] at hx
    cases fetched : Shift.fetchFrom t with
    | error e =>
      rw [fetched] at hx
      cases hx
    | ok y =>
      rw [fetched] at hx
      cases hx
      exact ⟨y, rfl, .inr ⟨d, rfl⟩⟩

theorem Moved.kinds (m : Moved s t) : t.queue.map (·.kind) = s.queue.map (·.kind) := by
  rcases m with ⟨d, rfl⟩ | ⟨d, rfl⟩ <;> simp [Shift.token, Function.comp_def]

/-- What is fetched up to the end is the same, too. -/
theorem Moved.finish {src' : Text} {all' : List Token} {columns' : List Nat} (m : Moved s t) (steps : Nat)
    (hs : Trail src all columns s) (fs : Filled all s) (ht : Trail src' all' columns' t)
    (ft : Filled all' t) (behind : 0 < s.cursor.mark.index) (behind' : 0 < t.cursor.mark.index)
    (done : finish steps s = .ok x) : ∃ y, Scanner.finish steps t = .ok y ∧ Moved x y := by
  rcases m with ⟨d, rfl⟩ | ⟨d, rfl⟩
  · rw [finish_scanner d steps hs fs behind, done]
    exact ⟨_, rfl, .inl ⟨d, rfl⟩⟩
  · rw [finish_scanner d steps ht ft behind'] at done
    cases finished : Scanner.finish steps t with
    | error e =>
      rw [finished] at done
      cases done
    | ok y =>
      rw [finished] at done
      cases done
      exact ⟨y, rfl, .inr ⟨d, rfl⟩⟩

/-! ## Whether a key may start, in brackets -/

theorem unwind_within (within : s.level ≠ 0) (column : Int) : s.unwind column = s := by
  rw [unwind, if_neg (by simpa using within)]

theorem startBlock_within (within : s.level ≠ 0) (kind : Token.Kind) : s.startBlock kind = s := by
  rw [startBlock, opensBlock, beq_eq_false_iff_ne.mpr within, Bool.false_and,
    if_neg Bool.false_ne_true]

theorem candidate?_of_free (free : s.candidates = []) : s.candidate? = none := by
  rw [candidate?, free]
  rfl

theorem dropCandidate_of_nil (free : s.candidates = []) : s.dropCandidate = .ok s := by
  rw [dropCandidate, candidate?_of_free free]

theorem dropStale_of_nil (free : s.candidates = []) : s.dropStale = .ok s := by
  rw [dropStale, free]
  show Except.ok { s with candidates := [] } = _
  rw [← free]

/-- The first token in the queue does not come behind an entry of brackets. -/
def Opens (s : Scanner) : Prop :=
  ∃ k ∈ s.queue.head?, k.kind.separates = false

theorem opens_takeTo (empty : s.queue = []) {kind : Token.Kind} (other : kind.separates = false)
    (rest : Text) : (s.takeTo kind rest).Opens := by
  refine ⟨⟨kind, s.cursor.mark, (s.cursor.reach rest).mark⟩, ?_, other⟩
  rw [takeTo, push, empty]
  rfl

section Within

variable (within : s.level ≠ 0) (free : s.candidates = []) (empty : s.queue = [])

section Asked

include empty

theorem opens_fetchOpening {kind : Token.Kind} (other : kind.separates = false)
    (hx : s.fetchOpening kind = .ok x) : x.Opens := by
  rw [fetchOpening] at hx
  obtain ⟨u, hu, hx⟩ := bind_eq_ok.mp hx
  cases hx
  exact opens_takeTo (s := { u with level := u.level + 1, keyAllowed := true })
    ((queue_addCandidate hu).trans empty) other _

theorem opens_fetchName {of : ScanFault.Owner} {kind : Text → Token.Kind}
    (other : ∀ name, (kind name).separates = false) (hx : s.fetchName of kind = .ok x) : x.Opens := by
  rw [fetchName] at hx
  obtain ⟨u, hu, hx⟩ := bind_eq_ok.mp hx
  split at hx
  · cases hx
  · cases hx
    exact opens_takeTo (s := { u with keyAllowed := false }) ((queue_addCandidate hu).trans empty)
      (other _) _

theorem opens_fetchTag (hx : s.fetchTag = .ok x) : x.Opens := by
  rw [fetchTag] at hx
  obtain ⟨u, hu, hx⟩ := bind_eq_ok.mp hx
  split at hx
  · cases hx
  · cases hx
    exact opens_takeTo (s := { u with keyAllowed := false }) ((queue_addCandidate hu).trans empty) rfl _

theorem opens_fetchQuoted {double : Bool} (hx : s.fetchQuoted double = .ok x) : x.Opens := by
  rw [fetchQuoted] at hx
  obtain ⟨u, hu, hx⟩ := bind_eq_ok.mp hx
  split at hx
  · cases hx
  · cases hx
    exact opens_takeTo (s := { u with keyAllowed := false }) ((queue_addCandidate hu).trans empty) rfl _

theorem opens_fetchPlain (hx : s.fetchPlain = .ok x) : x.Opens := by
  rw [fetchPlain] at hx
  obtain ⟨u, hu, hx⟩ := bind_eq_ok.mp hx
  cases hx
  exact opens_takeTo ((queue_addCandidate hu).trans empty) rfl _

theorem opens_fetchBlock {folds : Bool} (hx : s.fetchBlock folds = .ok x) : x.Opens := by
  rw [fetchBlock] at hx
  obtain ⟨u, hu, hx⟩ := bind_eq_ok.mp hx
  have same : u.queue = s.queue := (queue_dropCandidate hu :)
  split at hx
  · cases hx
  · cases hx
    exact opens_takeTo (same.trans empty) rfl _

include within

theorem opens_fetchDirective (hx : s.fetchDirective = .ok x) : x.Opens := by
  rw [fetchDirective, unwind_within within] at hx
  obtain ⟨u, hu, hx⟩ := bind_eq_ok.mp hx
  split at hx
  · cases hx
  · cases hx
    exact opens_takeTo ((queue_dropCandidate hu).trans empty) rfl _

theorem opens_fetchSeparator {kind : Token.Kind} (other : kind.separates = false)
    (hx : s.fetchSeparator kind = .ok x) : x.Opens := by
  rw [fetchSeparator, unwind_within within] at hx
  obtain ⟨u, hu, hx⟩ := bind_eq_ok.mp hx
  cases hx
  exact opens_takeTo (s := { u with keyAllowed := false }) ((queue_dropCandidate hu).trans empty) other _

theorem opens_fetchBlockEntry (hx : s.fetchBlockEntry = .ok x) : x.Opens := by
  rw [fetchBlockEntry, startBlock_within within] at hx
  obtain ⟨-, hx⟩ := guard_eq_ok.mp hx
  obtain ⟨u, hu, hx⟩ := bind_eq_ok.mp hx
  have same : u.queue = s.queue := (queue_dropCandidate hu :)
  cases hx
  exact opens_takeTo (same.trans empty) rfl _

theorem opens_fetchKey (hx : s.fetchKey = .ok x) : x.Opens := by
  rw [fetchKey, startBlock_within within] at hx
  obtain ⟨-, hx⟩ := guard_eq_ok.mp hx
  obtain ⟨u, hu, hx⟩ := bind_eq_ok.mp hx
  have same : u.queue = s.queue := (queue_dropCandidate hu :)
  cases hx
  exact opens_takeTo (same.trans empty) rfl _

end Asked

/-- A step that is the same whether a key may start, or adds a token that does not separate. -/
def Regardless (p q : Step) : Prop :=
  q = p ∨ ∀ x, p = .ok x → x.Opens

theorem Regardless.ite {c : Prop} [Decidable c] {p q p' q' : Step} (left : Regardless p q)
    (right : Regardless p' q') : Regardless (if c then p else p') (if c then q else q') := by
  split
  · exact left
  · exact right

section Unasked

include free

theorem fetchClosing_allow (kind : Token.Kind) (a : Bool) :
    ({ s with keyAllowed := a } : Scanner).fetchClosing kind = s.fetchClosing kind := by
  rw [fetchClosing, fetchClosing, dropCandidate_of_nil (s := { s with keyAllowed := a }) free,
    dropCandidate_of_nil free]
  rfl

include within

theorem fetchEnd_allow (a : Bool) : ({ s with keyAllowed := a } : Scanner).fetchEnd = s.fetchEnd := by
  rw [fetchEnd, fetchEnd, unwind_within (s := { s with keyAllowed := a }) within, unwind_within within,
    dropCandidate_of_nil (s := { s with keyAllowed := a }) free, dropCandidate_of_nil free]
  rfl

theorem fetchValue_allow (a : Bool) :
    ({ s with keyAllowed := a } : Scanner).fetchValue = s.fetchValue := by
  have outside : (s.level == 0) = false := beq_eq_false_iff_ne.mpr within
  rw [fetchValue, fetchValue, candidate?_of_free (s := { s with keyAllowed := a }) free,
    candidate?_of_free free]
  dsimp only
  rw [startBlock_within (s := { s with keyAllowed := a }) within, startBlock_within within, outside]
  rfl

include empty

theorem regardless_fetchAt (a : Bool) (c : Char) (r : Text) :
    Regardless (s.fetchAt c r) (({ s with keyAllowed := a } : Scanner).fetchAt c r) := by
  rw [fetchAt, fetchAt]
  refine .ite (.inr fun _ => opens_fetchDirective within empty) ?_
  refine .ite (.inr fun _ => opens_fetchSeparator within empty rfl) ?_
  refine .ite (.inr fun _ => opens_fetchSeparator within empty rfl) ?_
  refine .ite (.inr fun _ => opens_fetchOpening empty rfl) ?_
  refine .ite (.inr fun _ => opens_fetchOpening empty rfl) ?_
  refine .ite (.inl (fetchClosing_allow free _ a)) ?_
  refine .ite (.inl (fetchClosing_allow free _ a)) ?_
  refine .ite (.inl rfl) ?_
  refine .ite (.inr fun _ => opens_fetchBlockEntry within empty) ?_
  refine .ite (.inr fun _ => opens_fetchKey within empty) ?_
  refine .ite (.inl (fetchValue_allow within free a)) ?_
  refine .ite (.inr fun _ => opens_fetchName empty fun _ => rfl) ?_
  refine .ite (.inr fun _ => opens_fetchName empty fun _ => rfl) ?_
  refine .ite (.inr fun _ => opens_fetchTag empty) ?_
  refine .ite (.inr fun _ => opens_fetchBlock empty) ?_
  refine .ite (.inr fun _ => opens_fetchBlock empty) ?_
  refine .ite (.inr fun _ => opens_fetchQuoted empty) ?_
  refine .ite (.inr fun _ => opens_fetchQuoted empty) ?_
  exact .ite (.inr fun _ => opens_fetchPlain empty) (.inl rfl)

omit empty in
theorem fetchFrom_within :
    Shift.fetchFrom s = match s.cursor.rest with | [] => s.fetchEnd | c :: r => s.fetchAt c r := by
  rw [Shift.fetchFrom, dropStale_of_nil free]
  show (match (s.unwind _).cursor.rest with | [] => _ | c :: r => _) = _
  rw [unwind_within within]

theorem regardless_fetchFrom (a : Bool) :
    Regardless (Shift.fetchFrom s) (Shift.fetchFrom { s with keyAllowed := a }) := by
  rw [fetchFrom_within within free, fetchFrom_within (s := { s with keyAllowed := a }) within free]
  dsimp only
  cases s.cursor.rest with
  | nil => exact .inl (fetchEnd_allow within free a)
  | cons c r => exact regardless_fetchAt within free empty a c r

end Unasked

end Within

/-! ## At the end of the text -/

theorem required_of_dropCandidate (h : s.dropCandidate = .ok t) {k : Candidate}
    (found : s.candidate? = some k) : k.required = false := by
  rw [dropCandidate, found] at h
  dsimp only at h
  split at h
  · cases h
  · next optional => simpa using optional

/-- At the end of the text outside of brackets no candidate may be a required one. -/
theorem optional_of_end (none : s.cursor.rest = []) (outside : s.level = 0)
    (one : ∀ k ∈ s.candidates, s.candidates = [k] ∧ k.level = 0)
    (hx : Shift.fetchFrom s = .ok x) : ∀ k ∈ s.candidates, k.required = false := by
  intro k hk
  obtain ⟨single, level⟩ := one k hk
  rw [Shift.fetchFrom] at hx
  obtain ⟨a, dropped, hx⟩ := bind_eq_ok.mp hx
  rw [dropStale, single] at dropped
  split at dropped
  · cases dropped
  · next missing =>
    have missing := List.find?_eq_none.mp missing k (List.mem_singleton_self k)
    cases stale : s.isStale k with
    | true => simpa [stale] using missing
    | false =>
      cases dropped
      have kept : [k].filter (fun k => !s.isStale k) = [k] := by simp [stale]
      dsimp only at hx
      rw [kept, cursor_unwind, none] at hx
      dsimp only at hx
      rw [fetchEnd] at hx
      obtain ⟨u, dropped, -⟩ := bind_eq_ok.mp hx
      refine required_of_dropCandidate dropped ?_
      obtain ⟨q, i, o, shape⟩ := unwind_shape { s with candidates := [k] } s.cursor.mark.column
      rw [shape]
      obtain ⟨q, i, o, shape⟩ := unwind_shape
        { s with candidates := [k], queue := q, indent := i, outer := o } (-1)
      rw [shape, candidate?, List.find?_singleton]
      dsimp only
      rw [level, outside]
      rfl

/-- The state behind the end of the text. -/
def atEnd (s : Scanner) : Scanner :=
  { ({ s.unwind (-1) with candidates := [], keyAllowed := false } : Scanner).pushHere .streamEnd with
    ended := true }

theorem kinds_atEnd (s : Scanner) :
    s.atEnd.queue.map (·.kind) = (s.unwind (-1)).queue.map (·.kind) ++ [.streamEnd] := by
  simp [atEnd, pushHere, push]

/-- What is fetched at the end of the text. -/
theorem fetchFrom_end (none : s.cursor.rest = []) (optional : ∀ k ∈ s.candidates, k.required = false) :
    Shift.fetchFrom s = .ok s.atEnd := by
  have fewer (k : Candidate) (hk : k ∈ s.candidates.filter fun k => !s.isStale k) : k.required = false :=
    optional k (List.mem_of_mem_filter hk)
  rw [Shift.fetchFrom, dropStale_of_free optional]
  generalize s.candidates.filter (fun k => !s.isStale k) = l at fewer ⊢
  obtain ⟨l', dropped⟩ := dropCandidate_of_free (s := { s.unwind (-1) with candidates := l }) fewer
  show (match (({ s with candidates := l } : Scanner).unwind s.cursor.mark.column).cursor.rest with
    | [] => _ | c :: r => _) = _
  rw [cursor_unwind, none]
  dsimp only
  rw [fetchEnd, unwind_unwind _ (by omega), unwind_candidates, dropped]
  rfl

theorem level_fetchFrom_end (none : s.cursor.rest = []) (hx : Shift.fetchFrom s = .ok x) :
    x.level = s.level ∧ x.ended = true := by
  rw [Shift.fetchFrom] at hx
  obtain ⟨a, dropped, hx⟩ := bind_eq_ok.mp hx
  obtain ⟨l, rfl, -⟩ := dropStale_eq_ok dropped
  dsimp only at hx
  rw [cursor_unwind, none] at hx
  dsimp only at hx
  rw [fetchEnd, unwind_unwind _ (by omega)] at hx
  obtain ⟨u, dropped, hx⟩ := bind_eq_ok.mp hx
  obtain ⟨l', rfl, -⟩ := dropCandidate_unwind dropped
  obtain ⟨q, i, o, shape⟩ := unwind_shape { s with candidates := l' } (-1)
  rw [shape] at hx
  cases hx
  exact ⟨rfl, rfl⟩

theorem kinds_endBlocks (indent : t.indent = s.indent)
    (kinds : t.queue.map (·.kind) = s.queue.map (·.kind)) (column : Int) (outer : List Int) :
    (t.endBlocks column outer).queue.map (·.kind) = (s.endBlocks column outer).queue.map (·.kind) := by
  induction outer generalizing s t with
  | nil => exact kinds
  | cons around outer ih =>
    rw [endBlocks, endBlocks, indent]
    split
    · exact ih rfl (by simp [pushHere, push, kinds])
    · exact kinds

theorem Crossed.kinds_unwind (c : Crossed s t) (column : Int) :
    (t.unwind column).queue.map (·.kind) = (s.unwind column).queue.map (·.kind) := by
  rw [unwind, unwind, c.level, c.outer]
  split
  · exact kinds_endBlocks c.indent c.kinds column s.outer
  · exact c.kinds

/-! ## From there to the end -/

/-- Outside of brackets at most one candidate waits. -/
theorem Trail.single (h : Trail src all columns s) (outside : s.level = 0) {k : Candidate}
    (hk : k ∈ s.candidates) : s.candidates = [k] ∧ k.level = 0 := by
  have low (l : Candidate) (hl : l ∈ s.candidates) : l.level = 0 := by
    have level := (h.waits l hl).level
    omega
  refine ⟨?_, low k hk⟩
  have order := h.order
  cases waits : s.candidates with
  | nil =>
    rw [waits] at hk
    cases hk
  | cons l more =>
    rw [waits] at hk order low
    cases more with
    | nil => rw [List.mem_singleton.mp hk]
    | cons m more =>
      have apart := (List.rel_of_pairwise_cons order List.mem_cons_self).1
      have second := low m (by simp)
      omega

/-- Behind steps up to the end. -/
theorem Trail.finish (steps : Nat) (h : Trail src all columns s) (filled : Filled all s)
    (done : finish steps s = .ok x) :
    ∃ all' columns', Trail src all' columns' x ∧ x.taken = s.taken := by
  induction steps generalizing s all columns with
  | zero =>
    cases done
    exact ⟨all, columns, h, rfl⟩
  | succ steps ih =>
    rw [Scanner.finish] at done
    split at done
    · cases done
      exact ⟨all, columns, h, rfl⟩
    · obtain ⟨t, fetched, done⟩ := bind_eq_ok.mp done
      obtain ⟨all', columns', trail, filled', same, -⟩ := h.fetch filled fetched
      obtain ⟨all'', columns'', trail, taken⟩ := ih trail filled' done
      exact ⟨all'', columns'', trail, taken.trans same⟩

theorem Trail.queue_eq (h : Trail src all columns s) (taken : s.taken = 0) : s.queue = all := by
  rw [h.queue, taken, List.drop_zero]

/-- Fetching up to the end behind tokens that start no key any more. -/
theorem finish_cleared (hs : Trail src all columns s) (steps : Nat)
    (stale : ∀ k ∈ s.candidates, s.atNext.isStale k = true)
    (free : ∀ k ∈ s.candidates, k.required = false) :
    s.fetch >>= finish steps = (s.cleared.fetch >>= finish steps).map (putBack s.queue) := by
  obtain ⟨trail, filled⟩ := hs.cleared
  rw [fetch_cleared stale free]
  cases fetched : s.cleared.fetch with
  | error e => rfl
  | ok x =>
    obtain ⟨all', columns', trail, filled, same, -⟩ := trail.fetch filled fetched
    refine finish_putBack steps trail filled ?_
    rw [same]
    exact Nat.le_add_left _ _

/-- In brackets behind a scalar no token comes that may start a key. -/
theorem not_opens (hs : Trail src all columns s) (taken : s.taken = 0) (within : s.level ≠ 0)
    (scalar : s.EndsInScalar) {r : List Token} (delimited : Delimited (s.queue ++ r))
    (comes : Comes x.queue r) : ¬ x.Opens := by
  intro opens
  obtain ⟨next, hn, other⟩ := comes.head (p := fun kind => kind.separates = false)
    (fun kind key => by cases kind <;> first | rfl | cases key) opens
  obtain ⟨after, rfl⟩ := List.head?_eq_some_iff.mp hn
  obtain ⟨text, quoting, last⟩ := scalar
  obtain ⟨k, hk, kind⟩ := Option.map_eq_some_iff.mp last
  obtain ⟨before, here⟩ := List.getLast?_eq_some_iff.mp hk
  have nest := hs.nest
  rw [← hs.queue_eq taken, here] at nest
  rw [here, List.append_assoc] at delimited
  have separates := delimited.separated before k next after rfl ⟨text, quoting, kind⟩ _ nest within
  rw [other] at separates
  cases separates

section

variable {src' : Text} {all' : List Token} {columns' : List Nat} {z : Scanner} {steps : Nat}
  (hs : Trail src all columns s) (taken : s.taken = 0) (c : Crossed s.atNext t.atNext)
  (done : s.fetch >>= finish steps = .ok z) (delimited : Delimited z.queue)
include hs taken c done delimited

/-- Where both texts end. -/
theorem finish_of_end (fs : Filled all s) (none : s.atNext.cursor.rest = [])
    (none' : t.atNext.cursor.rest = []) :
    ∃ y, t.fetch >>= finish steps = .ok y ∧ y.queue.map (·.kind) = z.queue.map (·.kind) := by
  obtain ⟨x, fetched, done⟩ := bind_eq_ok.mp done
  obtain ⟨level, ended⟩ := level_fetchFrom_end none fetched
  rw [finish_of_ended steps ended] at done
  cases done
  obtain ⟨all'', columns'', trail, -, same, -⟩ := hs.fetch fs fetched
  have nest := trail.nest
  rw [← trail.queue_eq (same.trans taken)] at nest
  have outside : s.atNext.level = 0 := level.symm.trans (delimited.closed _ nest)
  have optional := optional_of_end none outside (fun k hk => (hs.atNext fs).1.single outside hk) fetched
  have here : z = s.atNext.atEnd := Except.ok.inj (fetched.symm.trans (fetchFrom_end none optional))
  rw [← c.candidates] at optional
  refine ⟨t.atNext.atEnd, bind_eq_ok.mpr ⟨_, fetchFrom_end none' optional, finish_of_ended steps rfl⟩, ?_⟩
  rw [here, kinds_atEnd, kinds_atEnd, c.kinds_unwind]

end

/-- Where a candidate is in an earlier line, it is too far back. -/
theorem isStale_of_earlier {k : Candidate} (earlier : k.mark.line < s.cursor.mark.line) :
    s.isStale k = true := by
  simp [isStale, Nat.ne_of_lt earlier]

/-- What is fetched behind the first character is behind it. -/
theorem Trail.fetch_cleared_behind (h : Trail src all columns s)
    (behind : 0 < s.atNext.cursor.mark.index) {x : Scanner} (fetched : s.cleared.fetch = .ok x) :
    ∃ all' columns', Trail src all' columns' x ∧ Filled all' x ∧ 0 < x.cursor.mark.index := by
  obtain ⟨trail, filled⟩ := h.cleared
  obtain ⟨all', columns', there, filled', -⟩ := trail.fetch filled fetched
  have further := (trail.atNext filled).1.index_le there (past_fetchFrom fetched)
  rw [atNext_cleared] at further
  exact ⟨all', columns', there, filled', Nat.lt_of_lt_of_le behind further⟩

section

variable {src' : Text} {all' : List Token} {columns' : List Nat} {steps : Nat}
  (hs : Trail src all columns s) (taken : s.taken = 0) (c : Crossed s.atNext t.atNext)
  (level : s.atNext.cursor.Level t.atNext.cursor)
include hs taken c level

/-- From places that are level the next token is the same, when no key can start before it. Whether one
may start with it is not asked in brackets behind a scalar, where something else has to come. -/
theorem moved_of_fetch {x : Scanner} {r : List Token} (fetched : s.cleared.fetch = .ok x)
    (comes : Comes x.queue r) (delimited : Delimited (s.queue ++ r)) :
    ∃ y, t.cleared.fetch = .ok y ∧ Moved x y := by
  have sizes : t.queue.length = s.queue.length := by simpa using congrArg List.length c.kinds
  have counts : t.taken = s.taken := by simpa using c.taken
  rw [fetch_eq, atNext_cleared] at fetched
  have allowed : Shift.fetchFrom { s.atNext with
      candidates := [], queue := [], taken := s.taken + s.queue.length
      keyAllowed := t.atNext.keyAllowed } = .ok x := by
    rcases c.allowed with same | ⟨within, text, quoting, last⟩
    · rw [same]
      exact fetched
    · rcases regardless_fetchFrom (s := { s.atNext with
        candidates := [], queue := [], taken := s.taken + s.queue.length }) within rfl rfl
        t.atNext.keyAllowed with unasked | opens
      · exact unasked.trans fetched
      · refine absurd (opens x fetched)
          (not_opens hs taken (by simpa using within) ?_ delimited comes)
        exact ⟨text, quoting, by simpa using last⟩
  have moved : Moved { s.atNext with
      candidates := [], queue := [], taken := s.taken + s.queue.length
      keyAllowed := t.atNext.keyAllowed } t.cleared.atNext := by
    rw [atNext_cleared]
    refine moved_of_level level rfl rfl ?_
    dsimp only
    rw [sizes, counts, c.level, c.indent, c.outer, c.ended]
  exact moved.fetchFrom allowed

/-- Where both go on behind the line of the place. -/
theorem finish_of_level {z : Scanner} (done : s.fetch >>= finish steps = .ok z)
    (delimited : Delimited z.queue) (ht : Trail src' all' columns' t)
    (behind : 0 < s.atNext.cursor.mark.index) (behind' : 0 < t.atNext.cursor.mark.index)
    (earlier : ∀ k ∈ s.atNext.candidates, k.mark.line < s.atNext.cursor.mark.line) :
    ∃ y, t.fetch >>= finish steps = .ok y ∧ y.queue.map (·.kind) = z.queue.map (·.kind) := by
  rw [candidates_atNext] at earlier
  have same : t.candidates = s.candidates := by simpa using c.candidates
  have stale (k : Candidate) (hk : k ∈ s.candidates) : s.atNext.isStale k = true :=
    isStale_of_earlier (earlier k hk)
  have stale' (k : Candidate) (hk : k ∈ t.candidates) : t.atNext.isStale k = true :=
    isStale_of_earlier (by rw [level.line]; exact earlier k (same ▸ hk))
  have free : ∀ k ∈ s.candidates, k.required = false := by
    obtain ⟨x, fetched, -⟩ := bind_eq_ok.mp done
    exact free_of_fetch stale fetched
  rw [finish_cleared hs steps stale free] at done
  rw [finish_cleared ht steps stale' (by rwa [same])]
  cases cleared : s.cleared.fetch >>= finish steps with
  | error e =>
    rw [cleared] at done
    cases done
  | ok z =>
    rw [cleared] at done
    cases done
    obtain ⟨x, fetched, done⟩ := bind_eq_ok.mp cleared
    obtain ⟨y, fetched', moved⟩ :=
      moved_of_fetch hs taken c level fetched (comes_finish steps done) delimited
    obtain ⟨all₁, columns₁, there, filled, further⟩ := hs.fetch_cleared_behind behind fetched
    obtain ⟨all₂, columns₂, there', filled', further'⟩ := ht.fetch_cleared_behind behind' fetched'
    obtain ⟨w, done', moved⟩ :=
      moved.finish steps there filled there' filled' further further' done
    have reached : t.cleared.fetch >>= finish steps = .ok w := bind_eq_ok.mpr ⟨y, fetched', done'⟩
    have before : t.queue.map (·.kind) = s.queue.map (·.kind) := by simpa using c.kinds
    refine ⟨w.putBack t.queue, by rw [reached]; rfl, ?_⟩
    rw [queue_putBack, queue_putBack, List.map_append, List.map_append, before, moved.kinds]

end

/-- From places that are level the texts have the same tokens up to their ends. -/
theorem finish_crossed {src' : Text} {all' : List Token} {columns' : List Nat} {z : Scanner}
    (steps : Nat) (hs : Trail src all columns s) (fs : Filled all s) (ht : Trail src' all' columns' t)
    (taken : s.taken = 0) (c : Crossed s.atNext t.atNext)
    (done : finish steps s = .ok z) (delimited : Delimited z.queue) :
    ∃ y, finish steps t = .ok y ∧ y.queue.map (·.kind) = z.queue.map (·.kind) := by
  have kinds : t.queue.map (·.kind) = s.queue.map (·.kind) := by simpa using c.kinds
  have ended : t.ended = s.ended := by simpa using c.ended
  cases steps with
  | zero =>
    cases done
    exact ⟨t, rfl, kinds⟩
  | succ steps =>
    rw [finish] at done ⊢
    rw [ended]
    split at done
    · next stopped =>
      cases done
      rw [if_pos stopped]
      exact ⟨t, rfl, kinds⟩
    · next going =>
      rw [if_neg going]
      rcases c.rejoined with ⟨none, none'⟩ | ⟨level, behind, behind', earlier⟩
      · exact finish_of_end hs taken c done delimited fs none none'
      · exact finish_of_level hs taken c level done delimited ht behind behind' earlier

end Scan.Scanner

end YamlEdit
