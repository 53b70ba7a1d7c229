import Mathlib.Data.List.InsertIdx
import YamlEdit.Proofs.Token.Margin

/-!
# The start of a feed

The first token of every text is the start of the stream. If the second is the end of the stream,
the text is a margin, perhaps behind a byte order mark: a token that was put into the queue first is
taken first, and the end of the stream is put in only where the text ends. And a margin before a
text changes its feed by marks only.

What a step puts into the queue is known by its kind, so the anchors of a feed are seen to be names
on the way.
-/

namespace YamlEdit

namespace Scan.Scanner

/-! ## What leads the queue -/

/-- A queue that does not start with the end of the stream. -/
def Led (q : List Token) : Prop :=
  ∀ t ∈ q.head?, t.kind ≠ .streamEnd

theorem led_nil : Led [] := by
  intro t ht
  cases ht

/-- A kind of token that is an anchor of a name, or none. -/
def IsNamed (kind : Token.Kind) : Prop :=
  ∀ name, kind = .anchor name → IsName name

/-- Whether a kind of token is an anchor. -/
def isAnchor : Token.Kind → Bool
  | .anchor _ => true
  | _ => false

theorem IsNamed.of_not_isAnchor {kind : Token.Kind} (h : isAnchor kind = false) :
    IsNamed kind := by
  rintro name rfl
  cases h

/-- Tokens whose anchors are names. -/
def Named (q : List Token) : Prop :=
  ∀ t ∈ q, IsNamed t.kind

theorem Named.append {q r : List Token} (h : Named q) (h' : Named r) : Named (q ++ r) :=
  fun t ht => (List.mem_append.mp ht).elim (h t) (h' t)

/-- A kind of token that steps put in before the text ends. -/
structure Inner (kind : Token.Kind) : Prop where
  goes : kind ≠ .streamEnd
  named : IsNamed kind

theorem Inner.of_bare {kind : Token.Kind} (h : (kind != .streamEnd && !isAnchor kind) = true) :
    Inner kind := by
  obtain ⟨goes, bare⟩ := Bool.and_eq_true_iff.mp h
  exact ⟨bne_iff_ne.mp goes, .of_not_isAnchor (by simpa using bare)⟩

/-- What a step does to the queue if it leaves it led and does not empty it. -/
structure Keeps (q r : List Token) : Prop where
  led : Led q → Led r
  waiting : q ≠ [] → r ≠ []
  named : Named q → Named r

/-- What a step does to the queue if it also puts a token into it. -/
structure Gains (q r : List Token) : Prop where
  led : Led q → Led r
  waiting : r ≠ []
  named : Named q → Named r

theorem Keeps.refl (q : List Token) : Keeps q q :=
  ⟨id, id, id⟩

theorem Gains.to_keeps {q r : List Token} (h : Gains q r) : Keeps q r :=
  ⟨h.led, fun _ => h.waiting, h.named⟩

theorem Keeps.trans {q r t : List Token} (first : Keeps q r) (second : Keeps r t) : Keeps q t :=
  ⟨second.led ∘ first.led, second.waiting ∘ first.waiting, second.named ∘ first.named⟩

theorem Keeps.gains {q r t : List Token} (first : Keeps q r) (second : Gains r t) : Gains q t :=
  ⟨second.led ∘ first.led, second.waiting, second.named ∘ first.named⟩

theorem named_append (q : List Token) {t : Token} (h : IsNamed t.kind) :
    Named q → Named (q ++ [t]) :=
  fun named => named.append fun _ hu => List.mem_singleton.mp hu ▸ h

theorem led_append {q r : List Token} (waiting : q ≠ []) (led : Led q) : Led (q ++ r) := by
  obtain ⟨first, q, rfl⟩ := List.exists_cons_of_ne_nil waiting
  exact led

theorem gains_append (q : List Token) {t : Token} (h : Inner t.kind) : Gains q (q ++ [t]) := by
  refine ⟨fun led => ?_, by simp, named_append q h.named⟩
  cases q with
  | nil => exact fun u hu => Option.some.inj hu ▸ h.goes
  | cons first r => exact led_append (List.cons_ne_nil _ _) led

theorem gains_takeTo (s : Scanner) {kind : Token.Kind} (rest : Text) (h : Inner kind) :
    Gains s.queue (s.takeTo kind rest).queue :=
  gains_append _ h

theorem gains_takeChars (s : Scanner) {kind : Token.Kind} (n : Nat) (h : Inner kind) :
    Gains s.queue (s.takeChars kind n).queue :=
  gains_append _ h

theorem keeps_insertBefore (s : Scanner) (k : Candidate) {kind : Token.Kind} (h : Inner kind) :
    Keeps s.queue (s.insertBefore k kind).queue := by
  simp only [insertBefore]
  generalize k.number - s.taken = i
  refine ⟨?_, ?_, ?_⟩
  · intro led t ht
    cases i with
    | zero =>
      simp only [List.insertIdx_zero, List.head?_cons, Option.mem_def, Option.some.injEq] at ht
      subst ht
      exact h.goes
    | succ i =>
      refine led t ?_
      cases hq : s.queue with
      | nil => simp [hq] at ht
      | cons first r => simpa [hq] using ht
  · intro waiting none
    have size := congrArg List.length none
    rw [List.length_insertIdx, List.length_nil] at size
    have := List.length_pos_iff.mpr waiting
    split at size <;> omega
  · intro named t ht
    rcases List.eq_or_mem_of_mem_insertIdx ht with rfl | ht
    · exact h.named
    · exact named t ht

theorem queue_dropCandidate {s t : Scanner} (h : s.dropCandidate = .ok t) : t.queue = s.queue := by
  rw [dropCandidate] at h
  split at h
  · split at h
    · cases h
    · cases h; rfl
  · cases h; rfl

theorem queue_dropStale {s t : Scanner} (h : s.dropStale = .ok t) : t.queue = s.queue := by
  rw [dropStale] at h
  split at h
  · cases h
  · cases h; rfl

theorem queue_addCandidate {s t : Scanner} (h : s.addCandidate = .ok t) : t.queue = s.queue := by
  rw [addCandidate] at h
  split at h
  · obtain ⟨dropped, hd, h⟩ := bind_eq_ok.mp h
    cases h
    exact (queue_dropCandidate hd :)
  · cases h; rfl

theorem keeps_endBlocks (s : Scanner) (column : Int) (outer : List Int) :
    Keeps s.queue (s.endBlocks column outer).queue := by
  induction outer generalizing s with
  | nil => exact .refl _
  | cons around outer ih =>
    rw [endBlocks]
    split
    · exact (gains_append s.queue (t := ⟨.blockEnd, s.cursor.mark, s.cursor.mark⟩)
        (.of_bare rfl)).to_keeps.trans
        (ih { s.pushHere .blockEnd with indent := around, outer := outer })
    · exact .refl _

theorem keeps_unwind (s : Scanner) (column : Int) : Keeps s.queue (s.unwind column).queue := by
  rw [unwind]
  split
  · exact keeps_endBlocks s column _
  · exact .refl _

theorem keeps_startBlock (s : Scanner) (kind : Token.Kind) (h : Inner kind) :
    Keeps s.queue (s.startBlock kind).queue := by
  rw [startBlock]
  split
  · exact (gains_append _ h).to_keeps
  · exact .refl _

@[simp] theorem queue_toNextToken (steps : Nat) (s : Scanner) :
    (toNextToken steps s).queue = s.queue := by
  induction steps generalizing s with
  | zero => rfl
  | succ steps ih =>
    simp only [toNextToken]
    split
    · rfl
    · rw [ih]

@[simp] theorem queue_skipMark (s : Scanner) : s.skipMark.queue = s.queue := by
  rw [skipMark]
  split
  · split <;> rfl
  · rfl

section Fetch

variable {s t : Scanner}

theorem gains_fetchDirective (h : s.fetchDirective = .ok t) : Gains s.queue t.queue := by
  rw [fetchDirective] at h
  obtain ⟨u, hu, h⟩ := bind_eq_ok.mp h
  refine (keeps_unwind s (-1)).gains ?_
  rw [← queue_dropCandidate hu]
  split at h
  · cases h
  · cases h
    exact gains_takeTo u _ (.of_bare rfl)

theorem gains_fetchSeparator {kind : Token.Kind} (inner : Inner kind)
    (h : s.fetchSeparator kind = .ok t) : Gains s.queue t.queue := by
  rw [fetchSeparator] at h
  obtain ⟨u, hu, h⟩ := bind_eq_ok.mp h
  refine (keeps_unwind s (-1)).gains ?_
  rw [← queue_dropCandidate hu]
  cases h
  exact gains_takeChars { u with keyAllowed := false } 3 inner

theorem gains_fetchOpening {kind : Token.Kind} (inner : Inner kind)
    (h : s.fetchOpening kind = .ok t) : Gains s.queue t.queue := by
  rw [fetchOpening] at h
  obtain ⟨u, hu, h⟩ := bind_eq_ok.mp h
  rw [← queue_addCandidate hu]
  cases h
  exact gains_takeChars { u with level := u.level + 1, keyAllowed := true } 1 inner

theorem gains_fetchClosing {kind : Token.Kind} (inner : Inner kind)
    (h : s.fetchClosing kind = .ok t) : Gains s.queue t.queue := by
  rw [fetchClosing] at h
  obtain ⟨u, hu, h⟩ := bind_eq_ok.mp h
  rw [← queue_dropCandidate hu]
  cases h
  exact gains_takeChars { u with level := u.level - 1, keyAllowed := false } 1 inner

theorem gains_fetchFlowEntry (h : s.fetchFlowEntry = .ok t) : Gains s.queue t.queue := by
  rw [fetchFlowEntry] at h
  obtain ⟨u, hu, h⟩ := bind_eq_ok.mp h
  have same : u.queue = s.queue := (queue_dropCandidate hu :)
  rw [← same]
  cases h
  exact gains_takeChars u 1 (.of_bare rfl)

theorem gains_fetchBlockEntry (h : s.fetchBlockEntry = .ok t) : Gains s.queue t.queue := by
  rw [fetchBlockEntry] at h
  obtain ⟨-, h⟩ := guard_eq_ok.mp h
  obtain ⟨u, hu, h⟩ := bind_eq_ok.mp h
  have same : u.queue = (s.startBlock .blockSequenceStart).queue := (queue_dropCandidate hu :)
  refine (keeps_startBlock s .blockSequenceStart (.of_bare rfl)).gains ?_
  rw [← same]
  cases h
  exact gains_takeChars u 1 (.of_bare rfl)

theorem gains_fetchKey (h : s.fetchKey = .ok t) : Gains s.queue t.queue := by
  rw [fetchKey] at h
  obtain ⟨-, h⟩ := guard_eq_ok.mp h
  obtain ⟨u, hu, h⟩ := bind_eq_ok.mp h
  have same : u.queue = (s.startBlock .blockMappingStart).queue := (queue_dropCandidate hu :)
  refine (keeps_startBlock s .blockMappingStart (.of_bare rfl)).gains ?_
  rw [← same]
  cases h
  exact gains_takeChars u 1 (.of_bare rfl)

theorem gains_fetchValue (h : s.fetchValue = .ok t) : Gains s.queue t.queue := by
  rw [fetchValue] at h
  split at h
  · next k _ =>
    dsimp only at h
    cases h
    have key : Keeps s.queue (s.forget.insertBefore k .key).queue :=
      keeps_insertBefore s.forget k (.of_bare rfl)
    refine key.gains ?_
    generalize s.forget.insertBefore k .key = u
    split
    · have start : Keeps u.queue ((u.enter k.mark.column).insertBefore k .blockMappingStart).queue :=
        keeps_insertBefore (u.enter k.mark.column) k (.of_bare rfl)
      refine start.gains ?_
      exact gains_takeChars
        { (u.enter k.mark.column).insertBefore k .blockMappingStart with keyAllowed := false } 1
        (.of_bare rfl)
    · exact gains_takeChars { u with keyAllowed := false } 1 (.of_bare rfl)
  · obtain ⟨-, h⟩ := guard_eq_ok.mp h
    obtain ⟨u, hu, h⟩ := bind_eq_ok.mp h
    have same : u.queue = (s.startBlock .blockMappingStart).queue := (queue_dropCandidate hu :)
    refine (keeps_startBlock s .blockMappingStart (.of_bare rfl)).gains ?_
    rw [← same]
    cases h
    exact gains_takeChars u 1 (.of_bare rfl)

theorem gains_fetchName {of : ScanFault.Owner} {kind : Text → Token.Kind}
    (inner : ∀ name, IsName name → Inner (kind name))
    (h : s.fetchName of kind = .ok t) : Gains s.queue t.queue := by
  rw [fetchName] at h
  obtain ⟨u, hu, h⟩ := bind_eq_ok.mp h
  rw [← queue_addCandidate hu]
  split at h
  · cases h
  · next reads =>
    cases h
    exact gains_takeTo { u with keyAllowed := false } _ (inner _ (isName_of_anchorName reads))

theorem gains_fetchTag (h : s.fetchTag = .ok t) : Gains s.queue t.queue := by
  rw [fetchTag] at h
  obtain ⟨u, hu, h⟩ := bind_eq_ok.mp h
  rw [← queue_addCandidate hu]
  split at h
  · cases h
  · cases h
    exact gains_append u.queue (.of_bare rfl)

theorem gains_fetchBlock {folds : Bool} (h : s.fetchBlock folds = .ok t) :
    Gains s.queue t.queue := by
  rw [fetchBlock] at h
  obtain ⟨u, hu, h⟩ := bind_eq_ok.mp h
  have same : u.queue = s.queue := (queue_dropCandidate hu :)
  rw [← same]
  split at h
  · cases h
  · cases h
    exact gains_takeTo u _ (.of_bare rfl)

theorem gains_fetchQuoted {double : Bool} (h : s.fetchQuoted double = .ok t) :
    Gains s.queue t.queue := by
  rw [fetchQuoted] at h
  obtain ⟨u, hu, h⟩ := bind_eq_ok.mp h
  rw [← queue_addCandidate hu]
  split at h
  · cases h
  · cases h
    exact gains_append u.queue (.of_bare rfl)

theorem gains_fetchPlain (h : s.fetchPlain = .ok t) : Gains s.queue t.queue := by
  rw [fetchPlain] at h
  obtain ⟨u, hu, h⟩ := bind_eq_ok.mp h
  rw [← queue_addCandidate hu]
  cases h
  exact gains_takeTo u _ (.of_bare rfl)

theorem gains_fetchAt {c : Char} {r : Text} : s.fetchAt c r = .ok t → Gains s.queue t.queue := by
  rw [fetchAt]
  refine of_ite_eq (fun _ => gains_fetchDirective) fun _ => ?_
  refine of_ite_eq (fun _ => gains_fetchSeparator (.of_bare rfl)) fun _ => ?_
  refine of_ite_eq (fun _ => gains_fetchSeparator (.of_bare rfl)) fun _ => ?_
  refine of_ite_eq (fun _ => gains_fetchOpening (.of_bare rfl)) fun _ => ?_
  refine of_ite_eq (fun _ => gains_fetchOpening (.of_bare rfl)) fun _ => ?_
  refine of_ite_eq (fun _ => gains_fetchClosing (.of_bare rfl)) fun _ => ?_
  refine of_ite_eq (fun _ => gains_fetchClosing (.of_bare rfl)) fun _ => ?_
  refine of_ite_eq (fun _ => gains_fetchFlowEntry) fun _ => ?_
  refine of_ite_eq (fun _ => gains_fetchBlockEntry) fun _ => ?_
  refine of_ite_eq (fun _ => gains_fetchKey) fun _ => ?_
  refine of_ite_eq (fun _ => gains_fetchValue) fun _ => ?_
  refine of_ite_eq (fun _ => gains_fetchName fun _ _ => .of_bare rfl) fun _ => ?_
  refine of_ite_eq (fun _ => gains_fetchName fun name letters => ⟨by simp, ?_⟩) fun _ => ?_
  · rintro _ ⟨⟩
    exact letters
  refine of_ite_eq (fun _ => gains_fetchTag) fun _ => ?_
  refine of_ite_eq (fun _ => gains_fetchBlock) fun _ => ?_
  refine of_ite_eq (fun _ => gains_fetchBlock) fun _ => ?_
  refine of_ite_eq (fun _ => gains_fetchQuoted) fun _ => ?_
  refine of_ite_eq (fun _ => gains_fetchQuoted) fun _ => ?_
  refine of_ite_eq (fun _ => gains_fetchPlain) ?_
  intro _ h
  cases h

end Fetch

/-- What a fetch does to the queue: the end of the text comes behind tokens that wait. -/
theorem gains_fetch {s t : Scanner} (h : s.fetch = .ok t) :
    (Named s.queue → Named t.queue) ∧ (s.queue ≠ [] → Gains s.queue t.queue) := by
  rw [fetch] at h
  obtain ⟨u, hu, h⟩ := bind_eq_ok.mp h
  have before : Keeps s.queue (u.unwind u.cursor.mark.column).queue := by
    have unwound := keeps_unwind u u.cursor.mark.column
    rwa [queue_dropStale hu, queue_toNextToken, queue_skipMark] at unwound
  dsimp only at h
  split at h
  · rw [fetchEnd] at h
    obtain ⟨w, hw, h⟩ := bind_eq_ok.mp h
    have ends := before.trans (keeps_unwind (u.unwind u.cursor.mark.column) (-1))
    rw [← queue_dropCandidate hw] at ends
    cases h
    have named := named_append w.queue (t := ⟨.streamEnd, w.cursor.mark, w.cursor.mark⟩)
      (.of_not_isAnchor rfl)
    refine ⟨named ∘ ends.named, fun waiting => ⟨fun led => ?_, by simp [pushHere, push], ?_⟩⟩
    · exact led_append (ends.waiting waiting) (ends.led led)
    · exact named ∘ ends.named
  · have gains := before.gains (gains_fetchAt h)
    exact ⟨gains.named, fun _ => gains⟩

theorem release_cons (s : Scanner) (t : Token) (queue : List Token) :
    ((s.release (t :: queue)).2 = [] ∧ (s.release (t :: queue)).1.queue = t :: queue) ∨
      (s.release (t :: queue)).2.head? = some t := by
  rw [release]
  split
  · exact .inl ⟨rfl, rfl⟩
  · exact .inr rfl

/-- A feed from a led queue that has tokens starts with one, which is not the end of the stream,
unless there is a fault first. -/
theorem led_feed (steps : Nat) {s : Scanner} (led : Led s.queue) (waiting : s.queue ≠ []) :
    Led (feed steps s).items ∧ ((feed steps s).items ≠ [] ∨ (feed steps s).fault ≠ none) := by
  induction steps generalizing s with
  | zero => exact ⟨led, .inl waiting⟩
  | succ steps ih =>
    simp only [feed]
    split
    · exact ⟨led, .inl waiting⟩
    · generalize hc : (if s.queue.isEmpty then Except.ok s else s.dropStale) = checked
      cases checked with
      | error e => exact ⟨led_nil, .inr (by simp)⟩
      | ok u =>
        have same : u.queue = s.queue := by
          split at hc
          · cases hc; rfl
          · exact queue_dropStale hc
        dsimp only
        rw [← same] at led waiting
        obtain ⟨t, queue, hq⟩ := List.exists_cons_of_ne_nil waiting
        rw [hq] at led ⊢
        rcases release_cons u t queue with ⟨none, kept⟩ | first
        · rw [none]
          cases hf : (u.release (t :: queue)).1.fetch with
          | error e => exact ⟨led_nil, .inr (by simp)⟩
          | ok w =>
            have gains := (gains_fetch hf).2 (by simp [kept])
            rw [kept] at gains
            exact ih (gains.led led) gains.waiting
        · have head (more : List Token) : Led ((u.release (t :: queue)).2 ++ more) := by
            intro x hx
            rw [List.head?_append, first] at hx
            exact led x hx
          have nonempty : (u.release (t :: queue)).2 ≠ [] := by
            intro none
            rw [none] at first
            cases first
          cases (u.release (t :: queue)).1.fetch with
          | error e => exact ⟨by simpa using head [], .inl nonempty⟩
          | ok w => exact ⟨head _, .inl (by simp [nonempty])⟩

theorem named_release (s : Scanner) {queue : List Token} (named : Named queue) :
    Named (s.release queue).1.queue ∧ Named (s.release queue).2 := by
  induction queue generalizing s with
  | nil => exact ⟨List.forall_mem_nil _, List.forall_mem_nil _⟩
  | cons t queue ih =>
    obtain ⟨first, rest⟩ := List.forall_mem_cons.mp named
    rw [release]
    split
    · exact ⟨named, List.forall_mem_nil _⟩
    · obtain ⟨kept, released⟩ := ih { s with taken := s.taken + 1 } rest
      exact ⟨kept, List.forall_mem_cons.mpr ⟨first, released⟩⟩

theorem named_feed (steps : Nat) {s : Scanner} (named : Named s.queue) :
    Named (feed steps s).items := by
  induction steps generalizing s with
  | zero => exact named
  | succ steps ih =>
    simp only [feed]
    split
    · exact named
    · generalize hc : (if s.queue.isEmpty then Except.ok s else s.dropStale) = checked
      cases checked with
      | error e => exact List.forall_mem_nil _
      | ok u =>
        have same : u.queue = s.queue := by
          split at hc
          · cases hc; rfl
          · exact queue_dropStale hc
        dsimp only
        rw [← same] at named
        obtain ⟨kept, released⟩ := named_release u named
        cases hf : (u.release u.queue).1.fetch with
        | error e => exact released
        | ok w => exact released.append (ih ((gains_fetch hf).1 kept))

/-- The state behind the first token. -/
def first (s : Text) : Scanner :=
  { source := s, cursor := .start s, taken := 1 }

end Scan.Scanner

namespace TokenFeed

open Scan

/-- The token that every text starts with. -/
def start : Token :=
  ⟨.streamStart, .zero, .zero⟩

/-- The feed of a text is its first token and what is fetched behind. -/
theorem ofText_eq (s : Text) :
    ofText s =
      match (Scanner.first s).fetch with
      | .error e => ⟨[start], some e⟩
      | .ok t =>
        ⟨start :: (t.feed (s.length + 2)).items, (t.feed (s.length + 2)).fault⟩ :=
  rfl

/-- A text, perhaps behind a byte order mark. -/
def Marked (h s : Text) : Prop :=
  s = h ∨ s = '\uFEFF' :: h

/-- A text whose second token is the end of the stream has nothing but blank lines and comments. -/
theorem isMarginFrom_of_streamEnd {s : Text} {more : List Token}
    (h : (ofText s).items = start :: more) (sound : more = [] → (ofText s).fault = none)
    (ends : ∀ t ∈ more.head?, t.kind = .streamEnd) :
    ∃ r, Marked r s ∧ isMarginFrom false r = true := by
  have skipped : Marked (Scanner.first s).skipMark.cursor.rest s := by
    rw [Scanner.skipMark]
    cases s with
    | nil => exact .inl rfl
    | cons c r =>
      simp only [Scanner.first, Cursor.start, Mark.zero, beq_self_eq_true, Bool.true_and]
      split
      · next mark =>
        refine .inr ?_
        dsimp only
        rw [Cursor.rest_reach_of_suffix (List.suffix_cons c r), eq_of_beq mark]
      · exact .inl rfl
  refine ⟨_, skipped, ?_⟩
  rw [ofText_eq] at h sound
  cases hf : (Scanner.first s).fetch with
  | error e =>
    rw [hf] at h sound
    cases h
    cases sound rfl
  | ok u =>
    rw [hf] at h sound
    simp only [List.cons.injEq, true_and] at h
    dsimp only at sound
    rw [Scanner.fetch] at hf
    obtain ⟨v, hv, hf⟩ := bind_eq_ok.mp hf
    dsimp only at hf
    split at hf
    · next here =>
      rw [Scanner.cursor_unwind, Scanner.cursor_dropStale hv] at here
      exact Margin.isMarginFrom_of_toNextToken here
    · have gains := Scanner.gains_fetchAt hf
      have empty : v.queue = [] := by
        rw [Scanner.queue_dropStale hv, Scanner.queue_toNextToken, Scanner.queue_skipMark]
        rfl
      have led : Scanner.Led (v.unwind v.cursor.mark.column).queue := by
        refine (Scanner.keeps_unwind v _).led ?_
        rw [empty]
        exact Scanner.led_nil
      obtain ⟨head, nonempty⟩ := Scanner.led_feed (s.length + 2) (gains.led led) gains.waiting
      rw [h] at head nonempty
      cases more with
      | nil => exact absurd (sound rfl) (nonempty.resolve_left fun some => some rfl)
      | cons t r => exact absurd (ends t rfl) (head t rfl)

theorem reach_tail (c : Char) (r : Text) (m : Mark) :
    Cursor.reach ⟨c :: r, m⟩ r = ⟨r, m.past c r⟩ := by
  have one : (c :: r).length - r.length = 1 := by simp
  rw [Cursor.reach, one]
  rfl

theorem head?_ne_mark {m t : Text} (margin : Margin m) (free : '\uFEFF' ∉ t) :
    (m ++ t).head? ≠ some '\uFEFF' := by
  cases m with
  | nil =>
    intro head
    exact free (List.mem_of_head? head)
  | cons c r =>
    rintro head
    cases head
    have lines := margin.lines
    simp [isMarginFrom, Scan.isBreak] at lines

/-- In front of the margin the scanner is in the first column, also behind a byte order mark. -/
theorem skipMark_first {m t s : Text} (marked : Marked (m ++ t) s) (margin : Margin m)
    (free : '\uFEFF' ∉ t) :
    ∃ c : Cursor, (Scanner.first s).skipMark = { Scanner.first s with cursor := c } ∧
      c.rest = m ++ t ∧ c.mark.column = 0 := by
  rcases marked with rfl | rfl
  · refine ⟨.start (m ++ t), ?_, rfl, rfl⟩
    have head := head?_ne_mark margin free
    rw [Scanner.skipMark]
    split
    · next c r here =>
      have whole : m ++ t = c :: r := here
      rw [whole, List.head?_cons] at head
      have other : (c == '\uFEFF') = false := by simpa using head
      simp only [other, Bool.and_false, Bool.false_eq_true, if_false]
      rfl
    · rfl
  · refine ⟨_, rfl, ?_, ?_⟩
    · simp only [Scanner.first, Cursor.start, reach_tail]
    · simp only [Scanner.first, Cursor.start, reach_tail]
      rfl

/-- What is fetched first behind a margin is what is fetched first without it, further down. -/
theorem fetch_first_append {m t s : Text} (marked : Marked (m ++ t) s) (margin : Margin m)
    (apart : t.head? ≠ some '\n') (free : '\uFEFF' ∉ t) :
    ∃ d : Shift, (Scanner.first s).fetch = d.step (Scanner.first t).fetch := by
  obtain ⟨c, skipped, rest, column⟩ := skipMark_first marked margin free
  obtain ⟨b, hb, bcolumn, way⟩ := margin.toNextToken_append apart
    (s := { Scanner.first s with cursor := c }) rest rfl rfl column
  have down : { Scanner.first s with cursor := b } =
      (⟨s, b.mark.index, b.mark.line⟩ : Shift).scanner (Scanner.first t) := by
    obtain ⟨rest, index, line, column⟩ := b
    dsimp only at hb bcolumn
    subst hb bcolumn
    simp [Shift.scanner, Scanner.first, Shift.cursor, Cursor.start, Shift.mark, Mark.zero]
  refine ⟨⟨s, b.mark.index, b.mark.line⟩, ?_⟩
  have inner : (Scanner.first t).skipMark = Scanner.first t := Shift.skipMark_of_not_mem free
  have longer : c.rest.length ≤ s.length := by
    rcases marked with rfl | rfl <;> simp [rest]
  have outer : (Scanner.first s).fetch = Shift.fetchFrom
      (Scanner.toNextToken (s.length + 1) { Scanner.first s with cursor := b }) := by
    rw [← way (s.length + 1) (by dsimp only; omega), ← skipped]
    rfl
  have own : (Scanner.first t).fetch =
      Shift.fetchFrom (Scanner.toNextToken (s.length + 1) (Scanner.first t)) := by
    rw [Scanner.toNextToken_steps (n := t.length + 1)]
    · exact congrArg (fun u => Shift.fetchFrom (Scanner.toNextToken (t.length + 1) u)) inner
    · have : t.length ≤ c.rest.length := by simp [rest]
      simp only [Scanner.first, Cursor.start]
      omega
    · exact Nat.lt_succ_self _
  rw [outer, own, down, Shift.toNextToken_scanner, Shift.fetchFrom_scanner]

/-- The anchors of a text are names. -/
theorem named_ofText (s : Text) : Scanner.Named (ofText s).items :=
  Scanner.named_feed _ fun _ ht => List.mem_singleton.mp ht ▸ .of_not_isAnchor rfl

/-- The kinds of the tokens of a feed. -/
def kinds (f : TokenFeed) : List Token.Kind :=
  f.items.map (·.kind)

/-- A margin in front of a text changes no token but for its marks. -/
theorem ofText_append {m t s : Text} (marked : Marked (m ++ t) s) (margin : Margin m)
    (apart : t.head? ≠ some '\n') (free : '\uFEFF' ∉ t) :
    (ofText s).kinds = (ofText t).kinds ∧
      (ofText s).fault.isNone = (ofText t).fault.isNone := by
  obtain ⟨d, fetched⟩ := fetch_first_append marked margin apart free
  rw [ofText_eq, ofText_eq, fetched]
  cases hf : (Scanner.first t).fetch with
  | error e => exact ⟨rfl, rfl⟩
  | ok u =>
    have past := Scanner.past_fetch hf
    have rest : u.cursor.rest.length ≤ t.length := past.1.length_le
    have none : '\uFEFF' ∉ u.cursor.rest := fun h => free (past.1.mem h)
    have longer : t.length ≤ s.length := by
      rcases marked with rfl | rfl
      · simp
      · simp; omega
    have steps : u.feed (t.length + 2) = u.feed (s.length + 2) :=
      Scanner.feed_steps (by omega) (by omega)
    dsimp only [Shift.step]
    rw [steps]
    simp [d.feed_scanner (s.length + 2) none, kinds, Shift.token]

end TokenFeed

end YamlEdit
