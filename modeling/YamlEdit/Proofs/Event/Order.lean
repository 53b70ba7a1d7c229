import YamlEdit.Proofs.Event.Entries
import YamlEdit.Proofs.Token.Written
import YamlEdit.Proofs.Tree.Extent

/-!
# Events lie in order

An event has its marks from tokens: it starts at or behind the end of the one before it, and what
opens a collection, or is a node of its own, stops with the token that says so (`Event.Tells`).

A walker looks at its next token and takes it, so the next token starts behind all events so far. The
exception is a state for the first part of a collection: its event stops with the token that opens
the collection, which is taken only then (`Pending`). The end of the stream stays until the last
event, so there always is a next token.
-/

namespace YamlEdit

/-- Whether a kind of token is an anchor or a tag. -/
def Token.Kind.isProperty : Token.Kind → Bool
  | .anchor _ | .tag .. => true
  | _ => false

/-- A kind of token that a scalar may end with: a plain one without text with its anchor or tag. -/
def Token.Kind.EndsScalar (kind : Token.Kind) (quoting : Quoting) : Prop :=
  (∃ text, kind = .scalar text quoting) ∨ quoting = .plain ∧ kind.isProperty = true

/-- Some token of a kind stops where an event does, and does not start before it. -/
def Event.StopsWith (tokens : List Token) (e : Event) (kind : Token.Kind → Prop) : Prop :=
  ∃ t ∈ tokens, kind t.kind ∧ e.start.index ≤ t.start.index ∧ e.stop = t.stop

/-- An event stops where some token of a kind starts. -/
def Event.StopsBefore (tokens : List Token) (e : Event) (kind : Token.Kind) : Prop :=
  ∃ t ∈ tokens, t.kind = kind ∧ e.start.index ≤ t.start.index ∧ e.stop = t.start

/-- An event over the key of a pair in brackets, right behind the bracket or a comma. -/
def Event.OverKey (tokens : List Token) (e : Event) : Prop :=
  ∃ front sign t rest, tokens = front ++ sign :: t :: rest ∧
    (sign.kind = .flowSequenceStart ∨ sign.kind = .flowEntry) ∧ t.kind = .key ∧ e.start = t.start ∧
    e.stop = t.stop

/-- What an event tells of the tokens. For each collection that is open before and behind it, innermost
first, it is kept whether the collection is closed by a bracket or brace of its own; a pair inside of
brackets is not. -/
def Event.Tells (tokens : List Token) (e : Event) (before after : List Bool) : Prop :=
  match e.kind with
  | .aliasOf name => after = before ∧ e.StopsWith tokens (· = .aliasOf name)
  | .scalar _ _ _ quoting =>
    after = before ∧ (e.StopsWith tokens (·.EndsScalar quoting) ∨ quoting = .plain ∧ e.start = e.stop)
  | .sequenceStart _ _ .flow => after = true :: before ∧ e.StopsWith tokens (· = .flowSequenceStart)
  | .mappingStart _ _ .flow =>
    after = true :: before ∧ e.StopsWith tokens (· = .flowMappingStart) ∨
      before.head? = some true ∧ after = false :: before ∧ e.OverKey tokens
  | .sequenceStart _ _ .bare => after = false :: before ∧ e.StopsWith tokens (· = .blockEntry)
  | .sequenceStart _ _ .block => after = false :: before ∧ e.StopsBefore tokens .blockSequenceStart
  | .mappingStart .. => after = false :: before ∧ e.StopsBefore tokens .blockMappingStart
  | .sequenceEnd | .mappingEnd =>
    ∃ closed, before = closed :: after ∧
      (closed = true → e.StopsWith tokens fun k => k = .flowSequenceEnd ∨ k = .flowMappingEnd)
  | _ => after = before

/-- An event behind a position, with marks of its text. -/
structure Event.Lies (src : Text) (position : Nat) (e : Event) : Prop where
  start : e.start.In src
  stop : e.stop.In src
  begins : position ≤ e.start.index
  le : e.start.index ≤ e.stop.index

/-- Events that lie one behind another, with what they tell. -/
inductive Event.Lined (src : Text) (tokens : List Token) : Nat → List Bool → List Event → Prop
  | nil {position : Nat} {before : List Bool} : Lined src tokens position before []
  | cons {position : Nat} {before after : List Bool} {e : Event} {rest : List Event}
      (lies : e.Lies src position) (tells : e.Tells tokens before after)
      (further : Lined src tokens e.stop.index after rest) :
      Lined src tokens position before (e :: rest)

namespace Walk

/-- The collections that a state is about, and whether each has a bracket or brace of its own. -/
def State.closers : State → List Bool
  | blockSequenceFirst | blockSequenceEntry | bareSequenceEntry | blockMappingFirst
  | blockMappingKey | blockMappingValue => [false]
  | flowSequenceFirst | flowSequenceEntry | flowMappingFirst | flowMappingKey | flowMappingValue
  | flowMappingNoValue => [true]
  | pairKey | pairValue | pairEnd => [false, true]
  | _ => []

/-- How the collections on a stack are closed. -/
def closers (stack : List State) : List Bool :=
  stack.flatMap State.closers

/-- Whether a state may wait on a stack: it does not start with a token that was seen before. -/
def State.waits : State → Bool
  | stream => false
  | state => !state.takes

/-- A walker with tokens left up to the end of the stream, the next of which starts at or behind a
position. -/
structure Walker.Along (tokens : List Token) (position : Nat) (w : Walker) : Prop where
  suffix : w.tokens <:+ tokens
  ends : w.fault = none → ∃ t ∈ w.tokens.getLast?, t.kind = .streamEnd
  begins : ∀ t ∈ w.tokens.head?, position ≤ t.start.index
  waits : ∀ state ∈ w.stack, state.waits = true

/-- A walker with a token before it that it has seen: the last event stops with the token at the
latest. -/
def Walker.Pending (tokens : List Token) (position : Nat) (kind : Token.Kind) (w : Walker) : Prop :=
  w.Along tokens 0 ∧ ∃ t ∈ w.tokens.head?, t.kind = kind ∧ position ≤ t.stop.index

/-- A walker right behind a token of a kind. -/
def Walker.Behind (tokens : List Token) (kind : Token.Kind) (w : Walker) : Prop :=
  ∃ front t, tokens = front ++ t :: w.tokens ∧ t.kind = kind

/-- Where a walker is behind an event that stops at a position. -/
def Walker.Onward (tokens : List Token) (position : Nat) (w : Walker) : Prop :=
  match w.state with
  | .finished => True
  | .stream => w.Along tokens position ∧ ∃ t ∈ w.tokens.head?, t.kind = .streamStart
  | .blockSequenceFirst => w.Pending tokens position .blockSequenceStart
  | .blockMappingFirst => w.Pending tokens position .blockMappingStart
  | .flowSequenceFirst => w.Pending tokens position .flowSequenceStart
  | .flowMappingFirst => w.Pending tokens position .flowMappingStart
  | .pairKey => w.Pending tokens position .key
  | .bareSequenceEntry => w.Along tokens position ∨ w.Pending tokens position .blockEntry
  | _ => w.Along tokens position

/-- What a step comes to. -/
structure Goes (src : Text) (tokens : List Token) (position : Nat) (before : List Bool) (e : Event)
    (u : Walker) : Prop where
  lies : e.Lies src position
  tells : e.Tells tokens before (closers (u.state :: u.stack))
  onward : u.Onward tokens e.stop.index

section

variable {src : Text} {tokens : List Token} {p q : Nat} {w u : Walker} {before : List Bool}

theorem Walker.Along.mono (h : w.Along tokens q) (le : p ≤ q) : w.Along tokens p :=
  { h with begins := fun t ht => Nat.le_trans le (h.begins t ht) }

theorem Walker.Along.onward (h : w.Along tokens p) (waits : w.state.waits = true) :
    w.Onward tokens p := by
  rw [Walker.Onward]
  generalize w.state = state at waits
  cases state <;> first | exact h | exact .inl h | trivial

theorem Walker.Along.mem (h : w.Along tokens p) {t : Token} (ht : w.tokens.head? = some t) :
    t ∈ tokens :=
  h.suffix.mem (List.mem_of_mem_head? ht)

/-- There always is a next token. -/
theorem Walker.Along.peek (h : w.Along tokens p) {Q : Token → Walker → Prop}
    (next : ∀ t, w.tokens.head? = some t → p ≤ t.start.index → Q t w) : Meets Q peek w := by
  refine ⟨?_⟩
  intro t u hu
  obtain ⟨source, rest, fault, state, stack, begun, handles⟩ := w
  cases rest with
  | cons t r =>
    cases hu
    exact next t rfl (h.begins t rfl)
  | nil =>
    cases fault with
    | some e => cases hu
    | none =>
      obtain ⟨t, ht, -⟩ := h.ends rfl
      cases ht

theorem Walker.Along.next (h : w.Along tokens p) {P : Token.Kind → Bool} {Q : Bool → Walker → Prop}
    (further : ∀ t, w.tokens.head? = some t → Q (P t.kind) w) : Meets Q (next P) w :=
  .bind (h.peek fun t ht _ => .of_pure (further t ht))

/-- Taking the next token. -/
theorem takes_take {t : Token} (ht : w.tokens.head? = some t) {Q : Token → Walker → Prop}
    (next : Q t { w with tokens := w.tokens.drop 1 }) : Meets Q take w := by
  refine ⟨?_⟩
  intro x u hu
  obtain ⟨source, rest, fault, state, stack, begun, handles⟩ := w
  cases rest with
  | nil => cases ht
  | cons y r =>
    cases ht
    cases hu
    exact next

theorem Walker.Along.take (orderly : Orderly src tokens) (h : w.Along tokens p) {t : Token}
    (ht : w.tokens.head? = some t) (more : t.kind ≠ .streamEnd) :
    Walker.Along tokens t.stop.index { w with tokens := w.tokens.drop 1 } := by
  obtain ⟨r, hr⟩ := List.head?_eq_some_iff.mp ht
  obtain ⟨front, cut⟩ := h.suffix
  rw [hr] at cut
  refine ⟨?_, fun sound => ?_, fun u hu => ?_, h.waits⟩
  · rw [hr]
    exact (List.suffix_cons t r).trans ⟨front, cut⟩
  · obtain ⟨last, hl, kind⟩ := h.ends sound
    rw [hr] at hl ⊢
    cases r with
    | nil =>
      cases hl
      exact absurd kind more
    | cons u r =>
      rw [List.getLast?_cons_cons] at hl
      exact ⟨last, hl, kind⟩
  · rw [hr] at hu
    obtain ⟨r', rfl⟩ := List.head?_eq_some_iff.mp (show r.head? = some u from hu)
    have chain := orderly.chain
    rw [← cut] at chain
    have leads := (List.isChain_append.mp chain).2.1
    rw [List.isChain_cons_cons] at leads
    exact leads.1.le

theorem Walker.Along.behind (h : w.Along tokens p) {t : Token} (ht : w.tokens.head? = some t) :
    Walker.Behind tokens t.kind { w with tokens := w.tokens.drop 1 } := by
  obtain ⟨r, hr⟩ := List.head?_eq_some_iff.mp ht
  obtain ⟨front, cut⟩ := h.suffix
  refine ⟨front, t, ?_, rfl⟩
  rw [← cut, hr]
  rfl

theorem Walker.Along.stacked (h : w.Along tokens p) (state : State) (waits : state.waits = true) :
    Walker.Along tokens p { w with stack := state :: w.stack } :=
  ⟨h.suffix, h.ends, h.begins, List.forall_mem_cons.mpr ⟨waits, h.waits⟩⟩

/-- Leaving for the state on the stack. -/
theorem Walker.Along.left (h : w.Along tokens p) :
    Walker.Onward tokens p
      { w with state := w.stack.headD .finished, stack := w.stack.drop 1 } := by
  obtain ⟨source, rest, fault, state, stack, begun, handles⟩ := w
  cases stack with
  | nil => trivial
  | cons state stack =>
    obtain ⟨waits, below⟩ := List.forall_mem_cons.mp h.waits
    exact Walker.Along.onward ⟨h.suffix, h.ends, h.begins, below⟩ waits

theorem closers_left (w : Walker) :
    closers (w.stack.headD .finished :: w.stack.drop 1) = closers w.stack := by
  cases w.stack <;> rfl

/-! ## Nodes -/

/-- What properties come to: there are none, or the first and the last one of them are tokens. -/
structure Dressed (tokens : List Token) (p : Nat) (w : Walker) (props : Properties) (u : Walker) :
    Prop where
  stack : u.stack = w.stack
  held : props = {} ∧ u.Along tokens p ∨
    ∃ first ∈ tokens, ∃ last ∈ tokens, props.start = some first.start ∧ props.stop = some last.stop ∧
      last.kind.isProperty = true ∧ p ≤ first.start.index ∧ first.start.index ≤ last.start.index ∧
      u.Along tokens last.stop.index

theorem dressed_take (orderly : Orderly src tokens) {props props' : Properties} {t : Token}
    (h : Dressed tokens p w props u) (ht : u.tokens.head? = some t)
    (property : t.kind.isProperty = true) (start : props'.start = props.start.or (some t.start))
    (stop : props'.stop = some t.stop) :
    Dressed tokens p w props' { u with tokens := u.tokens.drop 1 } := by
  have more : t.kind ≠ .streamEnd := by
    intro kind
    rw [kind] at property
    cases property
  refine ⟨h.stack, .inr ?_⟩
  rcases h.held with ⟨rfl, along⟩ | ⟨first, hf, last, hl, start', stop', -, begins, le, along⟩
  · exact ⟨t, along.mem ht, t, along.mem ht, start, stop, property, along.begins t ht, Nat.le_refl _,
      along.take orderly ht more⟩
  · refine ⟨first, hf, t, along.mem ht, by rw [start, start']; rfl, stop, property, begins, ?_,
      along.take orderly ht more⟩
    have between := (orderly.lies last hl).le
    have behind := along.begins t ht
    omega

theorem dressed_peek {props : Properties} (h : Dressed tokens p w props u)
    {Q : Token → Walker → Prop} (next : ∀ t, u.tokens.head? = some t → Q t u) : Meets Q peek u := by
  rcases h.held with ⟨_, along⟩ | ⟨_, _, _, _, _, _, _, _, _, along⟩
  · exact along.peek fun t ht _ => next t ht
  · exact along.peek fun t ht _ => next t ht

theorem dressed_takeAnchor (orderly : Orderly src tokens) {props : Properties}
    (h : Dressed tokens p w props u) : Meets (Dressed tokens p w) (takeAnchor props) u := by
  refine .bind (dressed_peek h fun t ht => ?_)
  split
  · next name kind =>
    refine .bind (takes_take ht (.of_pure ?_))
    exact dressed_take orderly h ht (by rw [kind]; rfl) rfl rfl
  · exact .of_pure h

theorem dressed_takeTag (orderly : Orderly src tokens) {props : Properties}
    (h : Dressed tokens p w props u) : Meets (Dressed tokens p w) (takeTag props) u := by
  refine .bind (dressed_peek h fun t ht => ?_)
  split
  · next handle rest kind =>
    refine .bind (takes_take ht (.of_pure ?_))
    exact dressed_take orderly h ht (by rw [kind]; rfl) rfl rfl
  · exact .of_pure h

theorem dressed_properties (orderly : Orderly src tokens) (h : w.Along tokens p) :
    Meets (Dressed tokens p w) properties w := by
  have none : Dressed tokens p w {} w := ⟨rfl, .inl ⟨rfl, h⟩⟩
  refine .bind (h.next fun t _ => .ite (fun _ => .bind ?_) fun _ => .bind ?_)
  · exact (dressed_takeTag orderly none).mono fun _ u h => dressed_takeAnchor orderly h
  · exact (dressed_takeAnchor orderly none).mono fun _ u h =>
      .ite (fun _ => dressed_takeTag orderly h) fun _ => .of_pure h

/-- A node with properties starts with them, or at its next token. -/
theorem Dressed.starts (orderly : Orderly src tokens) {props : Properties}
    (h : Dressed tokens p w props u) {t : Token} (ht : u.tokens.head? = some t) :
    t ∈ tokens ∧ (props.start.getD t.start).In src ∧ p ≤ (props.start.getD t.start).index ∧
      (props.start.getD t.start).index ≤ t.start.index ∧ u.Along tokens t.start.index := by
  rcases h.held with ⟨rfl, along⟩ | ⟨first, hf, last, hl, start, -, -, begins, le, along⟩
  · have mem := along.mem ht
    refine ⟨mem, (orderly.lies t mem).start, along.begins t ht, Nat.le_refl _, ?_⟩
    exact { along with begins := fun x hx => by cases ht.symm.trans hx; exact Nat.le_refl _ }
  · have between := (orderly.lies last hl).le
    have behind := along.begins t ht
    rw [start, Option.getD_some]
    refine ⟨along.mem ht, (orderly.lies first hf).start, begins, by omega, ?_⟩
    exact { along with begins := fun x hx => by cases ht.symm.trans hx; exact Nat.le_refl _ }

/-- A node that is over with its last token. -/
theorem goes_leave {v : Walker} {k : Event.Kind} {start stop : Mark}
    (lies : Event.Lies src p ⟨k, start, stop⟩) (along : v.Along tokens stop.index)
    (tells : Event.Tells tokens ⟨k, start, stop⟩ before (closers v.stack)) :
    Meets (Goes src tokens p before) (do leave; return ⟨k, start, stop⟩) v := by
  refine .bind (.of_modify (.of_pure ⟨lies, ?_, along.left⟩))
  rw [closers_left]
  exact tells

theorem goes_content (orderly : Orderly src tokens) {props : Properties}
    (h : Dressed tokens p w props u) (t : Token) (block : Bool) (name : Option Text) :
    Meets (Goes src tokens p (closers w.stack))
      (node.content block props name t (props.start.getD t.start) (props.stop.getD t.start)) u := by
  refine .ite (fun some_ => ?_) fun _ => meets_fail
  rcases h.held with ⟨rfl, -⟩ | ⟨first, hf, last, hl, start, stop, property, begins, le, along⟩
  · cases some_
  · rw [start, stop, Option.getD_some, Option.getD_some]
    have between := (orderly.lies last hl).le
    refine goes_leave ⟨(orderly.lies first hf).start, (orderly.lies last hl).stop, begins,
      Nat.le_trans le between⟩ along ⟨congrArg closers h.stack, .inl ?_⟩
    exact ⟨last, hl, .inr ⟨rfl, property⟩, le, rfl⟩

theorem goes_goto {v : Walker} {state : State} {k : Event.Kind} {start stop : Mark}
    (lies : Event.Lies src p ⟨k, start, stop⟩)
    (tells : Event.Tells tokens ⟨k, start, stop⟩ before (closers (state :: v.stack)))
    (onward : Walker.Onward tokens stop.index { v with state }) :
    Meets (Goes src tokens p before) (do goto state; return ⟨k, start, stop⟩) v :=
  .bind (.of_modify (.of_pure ⟨lies, tells, onward⟩))

theorem Walker.Along.pending (h : w.Along tokens q) {t : Token} (ht : w.tokens.head? = some t)
    {kind : Token.Kind} (same : t.kind = kind) (le : p ≤ t.stop.index) (state : State) :
    Walker.Pending tokens p kind { w with state } :=
  ⟨⟨h.suffix, h.ends, fun _ _ => Nat.zero_le _, h.waits⟩, t, ht, same, le⟩

theorem goes_node (orderly : Orderly src tokens) (h : w.Along tokens p) (block bare : Bool) :
    Meets (Goes src tokens p (closers w.stack)) (node block bare) w := by
  refine .bind (h.peek fun t ht begins => ?_)
  split
  · next name kind =>
    have lies := orderly.lies t (h.mem ht)
    refine .bind (takes_take ht ?_)
    refine goes_leave ⟨lies.start, lies.stop, begins, lies.le⟩
      (h.take orderly ht (by rw [kind]; exact nofun)) ⟨rfl, t, h.mem ht, kind, Nat.le_refl _, rfl⟩
  · refine .bind ((dressed_properties orderly h).mono fun props u dressed =>
      .bind ((stays_fullName props).mono ?_))
    rintro name v rfl
    refine .bind (dressed_peek dressed fun t ht => ?_)
    obtain ⟨mem, inside, begins, le, along⟩ := dressed.starts orderly ht
    have lies := orderly.lies t mem
    -- Where a node stops with its next token, and where it stops before it.
    have behind (k : Event.Kind) : Event.Lies src p ⟨k, props.start.getD t.start, t.stop⟩ :=
      ⟨inside, lies.stop, begins, Nat.le_trans le lies.le⟩
    have before_ (k : Event.Kind) : Event.Lies src p ⟨k, props.start.getD t.start, t.start⟩ :=
      ⟨inside, lies.start, begins, le⟩
    have same : closers v.stack = closers w.stack := congrArg closers dressed.stack
    have opened (state : State) : closers (state :: v.stack) = state.closers ++ closers w.stack :=
      congrArg (state.closers ++ ·) same
    dsimp only
    split
    · next kind =>
      refine .ite (fun _ => ?_) fun _ => goes_content orderly dressed t block name
      exact goes_goto (behind _) ⟨opened .bareSequenceEntry, t, mem, kind, le, rfl⟩
        (.inr (along.pending ht kind (Nat.le_refl _) _))
    · next text quoting kind =>
      refine .bind (takes_take ht ?_)
      exact goes_leave (behind _) (along.take orderly ht (by rw [kind]; exact nofun))
        ⟨same, .inl ⟨t, mem, .inl ⟨text, kind⟩, le, rfl⟩⟩
    · next kind =>
      exact goes_goto (behind _) ⟨opened .flowSequenceFirst, t, mem, kind, le, rfl⟩
        (along.pending ht kind (Nat.le_refl _) _)
    · next kind =>
      exact goes_goto (behind _) (.inl ⟨opened .flowMappingFirst, t, mem, kind, le, rfl⟩)
        (along.pending ht kind (Nat.le_refl _) _)
    · next kind =>
      refine .ite (fun _ => ?_) fun _ => goes_content orderly dressed t block name
      exact goes_goto (before_ _) ⟨opened .blockSequenceFirst, t, mem, kind, le, rfl⟩
        (along.pending ht kind lies.le _)
    · next kind =>
      refine .ite (fun _ => ?_) fun _ => goes_content orderly dressed t block name
      exact goes_goto (before_ _) ⟨opened .blockMappingFirst, t, mem, kind, le, rfl⟩
        (along.pending ht kind lies.le _)
    · exact goes_content orderly dressed t block name

/-- A node that may be left out, followed by a state, behind a mark. -/
theorem goes_nodeOrEmpty (orderly : Orderly src tokens) {m : Mark} (inside : m.In src)
    (le : p ≤ m.index) (h : w.Along tokens m.index) {after : State} (waits : after.waits = true)
    (ends : Token.Kind → Bool) (bare block : Bool) :
    Meets (Goes src tokens p (closers (after :: w.stack))) (nodeOrEmpty ends bare block after m)
      w := by
  refine .bind (h.peek fun t ht _ => .ite (fun _ => ?_) fun _ => ?_)
  · refine .bind (.of_modify (.of_pure ⟨⟨inside, inside, le, Nat.le_refl _⟩,
      ⟨rfl, .inr ⟨rfl, rfl⟩⟩, ?_⟩))
    exact Walker.Along.onward ⟨h.suffix, h.ends, h.begins, h.waits⟩ waits
  · refine .bind (.of_modify ?_)
    exact goes_node (w := { w with stack := after :: w.stack }) orderly
      ((h.mono le).stacked after waits) block bare

/-- A part of a collection behind its first token. -/
theorem goes_part (after : State) (orderly : Orderly src tokens) (h : w.Along tokens q) {t : Token}
    (ht : w.tokens.head? = some t) (more : t.kind ≠ .streamEnd) (le : p ≤ t.stop.index)
    (waits : after.waits = true) (ends : Token.Kind → Bool) (bare block : Bool) :
    Meets (Goes src tokens p (closers (after :: w.stack)))
      (nodeOrEmpty ends bare block after t.stop) { w with tokens := w.tokens.drop 1 } :=
  goes_nodeOrEmpty orderly (orderly.lies t (h.mem ht)).stop le (h.take orderly ht more) waits ends bare
    block

/-! ## Documents -/

theorem along_skipEnds (orderly : Orderly src tokens) (steps : Nat) (h : w.Along tokens p) :
    Meets (fun _ u => u.Along tokens p ∧ u.stack = w.stack) (skipEnds steps) w := by
  induction steps generalizing w with
  | zero => exact .of_pure ⟨h, rfl⟩
  | succ steps ih =>
    refine .bind (h.next fun t ht => .ite (fun ends => .bind (takes_take ht ?_))
      fun _ => .of_pure ⟨h, rfl⟩)
    have kind : t.kind = .documentEnd := by simpa using ends
    have begins := h.begins t ht
    have lies := orderly.lies t (h.mem ht)
    exact ih ((h.take orderly ht (by rw [kind]; exact nofun)).mono (Nat.le_trans begins lies.le))

theorem along_directives (orderly : Orderly src tokens) (steps : Nat) (versioned : Bool)
    (handles : List (Text × Text)) (h : w.Along tokens p) :
    Meets (fun _ u => u.Along tokens p ∧ u.stack = w.stack) (directives steps versioned handles)
      w := by
  induction steps generalizing w versioned handles with
  | zero => exact .of_pure ⟨h, rfl⟩
  | succ steps ih =>
    refine .bind (h.peek fun t ht begins => ?_)
    split
    · next d kind =>
      refine .bind (takes_take ht ?_)
      have lies := orderly.lies t (h.mem ht)
      have rest : ∀ versioned handles, Meets (fun _ u => u.Along tokens p ∧ u.stack = w.stack)
          (directives steps versioned handles) { w with tokens := w.tokens.drop 1 } :=
        fun versioned handles => ih versioned handles
          ((h.take orderly ht (by rw [kind]; exact nofun)).mono (Nat.le_trans begins lies.le))
      split
      · exact .ite (fun _ => .bind meets_fail) fun _ =>
          .ite (fun _ => .bind meets_fail) fun _ => rest ..
      · exact .ite (fun _ => .bind meets_fail) fun _ => rest ..
      · exact rest ..
    · exact .of_pure ⟨h, rfl⟩

/-- An event at the start of the next token. -/
theorem Walker.Along.at_ (orderly : Orderly src tokens) (h : w.Along tokens p) {t : Token}
    (ht : w.tokens.head? = some t) (k : Event.Kind) :
    Event.Lies src p ⟨k, t.start, t.start⟩ ∧ w.Along tokens t.start.index := by
  refine ⟨⟨(orderly.lies t (h.mem ht)).start, (orderly.lies t (h.mem ht)).start, h.begins t ht,
    Nat.le_refl _⟩, { h with begins := fun u hu => ?_ }⟩
  cases ht.symm.trans hu
  exact Nat.le_refl _

/-- An event over the next token. -/
theorem Walker.Along.over (orderly : Orderly src tokens) (h : w.Along tokens p) {t : Token}
    (ht : w.tokens.head? = some t) (k : Event.Kind) : Event.Lies src p ⟨k, t.start, t.stop⟩ :=
  have lies := orderly.lies t (h.mem ht)
  ⟨lies.start, lies.stop, h.begins t ht, lies.le⟩

theorem goes_nextDocument (orderly : Orderly src tokens) (h : w.Along tokens p) :
    Meets (Goes src tokens p (closers w.stack)) nextDocument w := by
  refine .bind (.of_get (.bind ((along_skipEnds orderly _ h).mono ?_)))
  rintro _ u ⟨h, stack⟩
  rw [← stack]
  refine .bind (h.peek fun t ht begins => .ite (fun _ => ?_) fun _ => ?_)
  · refine .bind (takes_take ht ?_)
    exact goes_goto (h.over orderly ht _) rfl trivial
  · have there := (h.at_ orderly ht .streamEnd).2
    refine .bind (.of_get (.bind ((along_directives orderly _ _ _ there).mono ?_)))
    rintro handles v ⟨along, stack'⟩
    refine .bind (along.peek fun mark hm behind => .ite (fun _ => .bind meets_fail) fun opens => ?_)
    have kind : mark.kind = .documentStart := by simpa using opens
    have lies := orderly.lies mark (along.mem hm)
    have after := (along.take orderly hm (by rw [kind]; exact nofun)).stacked .documentEnd rfl
    refine .bind (takes_take hm (.bind (.of_modify (.bind (.of_modify ?_)))))
    refine goes_goto
      ⟨(orderly.lies t (h.mem ht)).start, lies.stop, begins, Nat.le_trans behind lies.le⟩ ?_ ?_
    · exact (show closers v.stack = closers u.stack from congrArg closers stack')
    · exact Walker.Along.onward ⟨after.suffix, after.ends, after.begins, after.waits⟩ rfl

theorem goes_firstDocument (orderly : Orderly src tokens) (h : w.Along tokens p) :
    Meets (Goes src tokens p (closers w.stack)) firstDocument w := by
  refine .bind (h.peek fun t ht _ => .ite (fun _ => goes_nextDocument orderly h) fun _ => ?_)
  obtain ⟨lies, along⟩ := h.at_ orderly ht .documentStart
  have after := along.stacked .documentEnd rfl
  refine .bind (.of_modify (.bind (.of_modify ?_)))
  exact goes_goto lies rfl
    (Walker.Along.onward ⟨after.suffix, after.ends, after.begins, after.waits⟩ rfl)

theorem goes_documentEnd (orderly : Orderly src tokens) (h : w.Along tokens p) :
    Meets (Goes src tokens p (closers w.stack)) documentEnd w := by
  refine .bind (h.peek fun t ht _ => .bind (.of_modify ?_))
  refine .ite (fun ends => ?_) fun _ => .of_pure ?_
  · have kind : t.kind = .documentEnd := by simpa using ends
    have after := h.take orderly ht (by rw [kind]; exact nofun)
    refine .bind (takes_take (w := { w with state := .nextDocument }) ht ?_)
    refine .of_pure ⟨h.over orderly ht _, rfl, ?_⟩
    exact Walker.Along.onward ⟨after.suffix, after.ends, after.begins, after.waits⟩ rfl
  · obtain ⟨lies, along⟩ := h.at_ orderly ht .documentEnd
    exact ⟨lies, rfl, Walker.Along.onward ⟨along.suffix, along.ends, along.begins, along.waits⟩ rfl⟩

theorem goes_documentContent (orderly : Orderly src tokens) (h : w.Along tokens p) :
    Meets (Goes src tokens p (closers w.stack)) documentContent w := by
  refine .bind (h.peek fun t ht _ => ?_)
  obtain ⟨lies, along⟩ := h.at_ orderly ht (.scalar none .null [] .plain)
  have left : Meets (Goes src tokens p (closers w.stack)) (do leave; return empty t.start) w :=
    goes_leave lies along ⟨rfl, .inr ⟨rfl, rfl⟩⟩
  split
  all_goals first
    | exact left
    | exact goes_node orderly h true false

/-! ## Collections -/

/-- The end of a collection with its last token. -/
theorem goes_end (orderly : Orderly src tokens) (h : w.Along tokens p) {t : Token}
    (ht : w.tokens.head? = some t) (more : t.kind ≠ .streamEnd) (closed : Bool)
    (closes : closed = true → t.kind = .flowSequenceEnd ∨ t.kind = .flowMappingEnd) {k : Event.Kind}
    (ends : k = .sequenceEnd ∨ k = .mappingEnd) :
    Meets (Goes src tokens p (closed :: closers w.stack))
      (do leaveCollection; return ⟨k, t.start, t.stop⟩) { w with tokens := w.tokens.drop 1 } := by
  have after := h.take orderly ht more
  have lies := h.over orderly ht k
  have told : ∃ closed', closed :: closers w.stack = closed' :: closers w.stack ∧
      (closed' = true → Event.StopsWith tokens ⟨k, t.start, t.stop⟩ fun k =>
        k = .flowSequenceEnd ∨ k = .flowMappingEnd) :=
    ⟨closed, rfl, fun some_ => ⟨t, h.mem ht, closes some_, Nat.le_refl _, rfl⟩⟩
  refine .bind (.bind (.of_modify (.of_modify (.of_pure ⟨lies, ?_, ?_⟩))))
  · rw [closers_left]
    rcases ends with rfl | rfl <;> exact told
  · exact Walker.Along.left (w := { w with tokens := w.tokens.drop 1, begun := w.begun.drop 1 })
      ⟨after.suffix, after.ends, after.begins, after.waits⟩

theorem goes_blockSequenceEntry (orderly : Orderly src tokens) (h : w.Along tokens p) :
    Meets (Goes src tokens p (false :: closers w.stack)) blockSequenceEntry w := by
  refine .bind (h.peek fun t ht begins => ?_)
  have lies := orderly.lies t (h.mem ht)
  split
  · next kind =>
    exact .bind (takes_take ht (goes_part .blockSequenceEntry orderly h ht
      (by rw [kind]; exact nofun) (Nat.le_trans begins lies.le) rfl _ _ _))
  · next kind =>
    exact .bind (takes_take ht (goes_end orderly h ht (by rw [kind]; exact nofun) false nofun (.inl rfl)))
  · exact .bind (.bind (.of_get (.of_pure meets_fail)))

theorem goes_bareSequenceEntry (orderly : Orderly src tokens)
    (h : w.Along tokens p ∨ w.Pending tokens p .blockEntry) :
    Meets (Goes src tokens p (false :: closers w.stack)) bareSequenceEntry w := by
  have there : w.Along tokens 0 := h.elim (fun h => h.mono (Nat.zero_le p)) And.left
  refine .bind (there.peek fun t ht _ => ?_)
  have lies := orderly.lies t (there.mem ht)
  have room : p ≤ t.stop.index := by
    rcases h with h | ⟨-, x, hx, -, le⟩
    · exact Nat.le_trans (h.begins t ht) lies.le
    · cases ht.symm.trans hx
      exact le
  split
  · next kind =>
    exact .bind (takes_take ht (goes_part .bareSequenceEntry orderly there ht
      (by rw [kind]; exact nofun) room rfl _ _ _))
  · next other =>
    rcases h with h | ⟨-, x, hx, kind, -⟩
    · obtain ⟨lies, along⟩ := h.at_ orderly ht .sequenceEnd
      exact goes_leave lies along ⟨false, rfl, nofun⟩
    · cases ht.symm.trans hx
      exact absurd kind other

theorem goes_blockMappingKey (orderly : Orderly src tokens) (h : w.Along tokens p) :
    Meets (Goes src tokens p (false :: closers w.stack)) blockMappingKey w := by
  refine .bind (h.peek fun t ht begins => ?_)
  have lies := orderly.lies t (h.mem ht)
  split
  · next kind =>
    exact .bind (takes_take ht (goes_part .blockMappingValue orderly h ht
      (by rw [kind]; exact nofun) (Nat.le_trans begins lies.le) rfl _ _ _))
  · next kind =>
    exact .bind (takes_take ht (goes_end orderly h ht (by rw [kind]; exact nofun) false nofun (.inr rfl)))
  · exact .bind (.bind (.of_get (.of_pure meets_fail)))

/-- A part that is left out. -/
theorem goes_empty (orderly : Orderly src tokens) (h : w.Along tokens p) {t : Token}
    (ht : w.tokens.head? = some t) {state : State} (waits : state.waits = true) :
    Meets (Goes src tokens p (closers (state :: w.stack))) (do goto state; return empty t.start)
      w := by
  obtain ⟨lies, along⟩ := h.at_ orderly ht (.scalar none .null [] .plain)
  exact goes_goto lies ⟨rfl, .inr ⟨rfl, rfl⟩⟩
    (Walker.Along.onward ⟨along.suffix, along.ends, along.begins, along.waits⟩ waits)

/-- A part with its first token, or left out. -/
theorem goes_valueOr (next : State) (orderly : Orderly src tokens) (h : w.Along tokens p)
    (waits : next.waits = true) {ends : Token.Kind → Bool} {bare block : Bool} :
    Meets (Goes src tokens p (closers (next :: w.stack)))
      (do
        let t ← peek
        match t.kind with
        | .value =>
          let _ ← take
          nodeOrEmpty ends bare block next t.stop
        | _ =>
          goto next
          return empty t.start) w := by
  refine .bind (h.peek fun t ht begins => ?_)
  have lies := orderly.lies t (h.mem ht)
  split
  · next kind =>
    exact .bind (takes_take ht (goes_part next orderly h ht (by rw [kind]; exact nofun)
      (Nat.le_trans begins lies.le) waits _ _ _))
  · exact goes_empty orderly h ht waits

/-- The first entry has no comma before it. -/
theorem along_takeComma (orderly : Orderly src tokens) (h : w.Along tokens p) (first : Bool)
    (cause : Token.Kind → ParseFault) :
    Meets (fun _ u => u.Along tokens p ∧ u.stack = w.stack ∧
      (first = true ∧ u = w ∨ u.Behind tokens .flowEntry)) (takeComma first cause) w := by
  refine .ite (fun first => .of_pure ⟨h, rfl, .inl ⟨first, rfl⟩⟩) fun _ =>
    .bind (h.peek fun t ht begins => ?_)
  have lies := orderly.lies t (h.mem ht)
  split
  · next kind =>
    exact .bind (takes_take ht (.of_pure ⟨(h.take orderly ht (by rw [kind]; exact nofun)).mono
      (Nat.le_trans begins lies.le), rfl, .inr (kind ▸ h.behind ht)⟩))
  · exact .bind (.bind (.of_get (.of_pure meets_fail)))

/-- The end of a flow collection, at its bracket or brace. -/
theorem goes_flowEnd (orderly : Orderly src tokens) (h : w.Along tokens p) {t : Token}
    (ht : w.tokens.head? = some t) (closes : t.kind = .flowSequenceEnd ∨ t.kind = .flowMappingEnd)
    {k : Event.Kind} (ends : k = .sequenceEnd ∨ k = .mappingEnd) :
    Meets (Goes src tokens p (true :: closers w.stack)) (flowEnd k) w := by
  refine .bind (takes_take ht (goes_end orderly h ht ?_ true (fun _ => closes) ends))
  rcases closes with kind | kind <;> (rw [kind]; exact nofun)

theorem goes_flowNode (after : State) (orderly : Orderly src tokens) (h : w.Along tokens p)
    (waits : after.waits = true) :
    Meets (Goes src tokens p (closers (after :: w.stack))) (do thenTo after; node false false) w :=
  .bind (.of_modify
    (goes_node (w := { w with stack := after :: w.stack }) orderly (h.stacked after waits) false false))

theorem goes_flowSequenceEntry (orderly : Orderly src tokens) (h : w.Along tokens p) (first : Bool)
    (opened : first = true → w.Behind tokens .flowSequenceStart) :
    Meets (Goes src tokens p (true :: closers w.stack)) (flowSequenceEntry first) w := by
  refine .bind (h.next fun t ht => .ite (fun ends => ?_) fun _ => .bind ?_)
  · exact goes_flowEnd orderly h ht (.inl (by simpa using ends)) (.inl rfl)
  · refine (along_takeComma orderly h first _).mono ?_
    rintro _ u ⟨h, stack, behind⟩
    rw [← stack]
    refine .bind (h.peek fun t ht begins => ?_)
    split
    · next kind =>
      have sign : ∃ sign, u.Behind tokens sign ∧ (sign = .flowSequenceStart ∨ sign = .flowEntry) := by
        rcases behind with ⟨first, rfl⟩ | comma
        · exact ⟨_, opened first, .inl rfl⟩
        · exact ⟨_, comma, .inr rfl⟩
      obtain ⟨_, ⟨front, sign, cut, rfl⟩, before⟩ := sign
      obtain ⟨rest, next⟩ := List.head?_eq_some_iff.mp ht
      rw [next] at cut
      refine goes_goto (h.over orderly ht _)
        (.inr ⟨rfl, rfl, front, sign, t, rest, cut, before, kind, rfl, rfl⟩) ?_
      exact h.pending ht kind (Nat.le_refl _) _
    · next kind => exact goes_flowEnd orderly h ht (.inl kind) (.inl rfl)
    · exact goes_flowNode .flowSequenceEntry orderly h rfl

theorem goes_flowMappingKey (orderly : Orderly src tokens) (h : w.Along tokens p) (first : Bool) :
    Meets (Goes src tokens p (true :: closers w.stack)) (flowMappingKey first) w := by
  refine .bind (h.next fun t ht => .ite (fun ends => ?_) fun _ => .bind ?_)
  · exact goes_flowEnd orderly h ht (.inr (by simpa using ends)) (.inr rfl)
  · refine (along_takeComma orderly h first _).mono ?_
    rintro _ u ⟨h, stack, -⟩
    rw [← stack]
    refine .bind (h.peek fun t ht begins => ?_)
    have lies := orderly.lies t (h.mem ht)
    split
    · next kind =>
      exact .bind (takes_take ht (goes_part .flowMappingValue orderly h ht
        (by rw [kind]; exact nofun) (Nat.le_trans begins lies.le) rfl _ _ _))
    · next kind => exact goes_flowEnd orderly h ht (.inr kind) (.inr rfl)
    · exact goes_flowNode .flowMappingNoValue orderly h rfl

theorem goes_pairKey (orderly : Orderly src tokens) (h : w.Pending tokens p .key) :
    Meets (Goes src tokens p (closers (.pairKey :: w.stack))) pairKey w := by
  obtain ⟨along, t, ht, kind, le⟩ := h
  exact .bind (takes_take ht (goes_part .pairValue orderly along ht
    (by rw [kind]; exact nofun) le rfl _ _ _))

theorem goes_pairEnd (orderly : Orderly src tokens) (h : w.Along tokens p) :
    Meets (Goes src tokens p (closers (.pairEnd :: w.stack))) pairEnd w := by
  refine .bind (h.peek fun t ht _ => ?_)
  obtain ⟨lies, along⟩ := h.at_ orderly ht .mappingEnd
  exact goes_goto lies ⟨false, rfl, nofun⟩
    (Walker.Along.onward ⟨along.suffix, along.ends, along.begins, along.waits⟩ rfl)

/-- The first part of a collection, behind the token that opens it. -/
theorem goes_opening (orderly : Orderly src tokens) {kind : Token.Kind}
    (h : w.Pending tokens p kind) (more : kind ≠ .streamEnd) {x : Step Event}
    (next : ∀ u : Walker, u.Along tokens p → u.Behind tokens kind → u.stack = w.stack →
      Meets (Goes src tokens p before) x u) :
    Meets (Goes src tokens p before) (do opening; x) w := by
  obtain ⟨along, t, ht, same, le⟩ := h
  have after := (along.take orderly ht (same ▸ more)).mono le
  have behind : Walker.Behind tokens kind { w with tokens := w.tokens.drop 1 } := same ▸ along.behind ht
  refine .bind (.bind (takes_take ht (.of_modify (next _ ?_ behind rfl))))
  exact ⟨after.suffix, after.ends, after.begins, after.waits⟩

/-! ## The whole walk -/

/-- A step goes on from where the last one came to. -/
theorem goes_step (orderly : Orderly src tokens) (h : w.Onward tokens p)
    (more : w.state ≠ .finished) :
    Meets (Goes src tokens p (closers (w.state :: w.stack))) step w := by
  obtain ⟨source, rest, fault, state, stack, begun, handles⟩ := w
  refine .bind (.of_get ?_)
  cases state with
  | stream =>
    obtain ⟨along, t, ht, kind⟩ := h
    have after := along.take orderly ht (by rw [kind]; exact nofun)
    refine .bind (takes_take ht (goes_goto (along.over orderly ht _) rfl ?_))
    exact Walker.Along.onward ⟨after.suffix, after.ends, after.begins, after.waits⟩ rfl
  | firstDocument => exact goes_firstDocument orderly h
  | nextDocument => exact goes_nextDocument orderly h
  | documentContent => exact goes_documentContent orderly h
  | documentEnd => exact goes_documentEnd orderly h
  | blockNode => exact goes_node orderly h true false
  | blockSequenceFirst =>
    refine goes_opening orderly h nofun fun u along _ same => ?_
    rw [show stack = u.stack from same.symm]
    exact goes_blockSequenceEntry orderly along
  | blockSequenceEntry => exact goes_blockSequenceEntry orderly h
  | bareSequenceEntry => exact goes_bareSequenceEntry orderly h
  | blockMappingFirst =>
    refine goes_opening orderly h nofun fun u along _ same => ?_
    rw [show stack = u.stack from same.symm]
    exact goes_blockMappingKey orderly along
  | blockMappingKey => exact goes_blockMappingKey orderly h
  | blockMappingValue => exact goes_valueOr .blockMappingKey orderly h rfl
  | flowSequenceFirst =>
    refine goes_opening orderly h nofun fun u along behind same => ?_
    rw [show stack = u.stack from same.symm]
    exact goes_flowSequenceEntry orderly along true fun _ => behind
  | flowSequenceEntry => exact goes_flowSequenceEntry orderly h false nofun
  | pairKey => exact goes_pairKey orderly h
  | pairValue => exact goes_valueOr .pairEnd orderly h rfl
  | pairEnd => exact goes_pairEnd orderly h
  | flowMappingFirst =>
    refine goes_opening orderly h nofun fun u along _ same => ?_
    rw [show stack = u.stack from same.symm]
    exact goes_flowMappingKey orderly along true
  | flowMappingKey => exact goes_flowMappingKey orderly h false
  | flowMappingValue => exact goes_valueOr .flowMappingKey orderly h rfl
  | flowMappingNoValue =>
    have along : Walker.Along tokens p ⟨source, rest, fault, .flowMappingKey, stack, begun, handles⟩ :=
      ⟨h.suffix, h.ends, h.begins, h.waits⟩
    refine .bind (.of_modify (.bind (along.peek fun t ht _ => .of_pure ?_)))
    obtain ⟨lies, along⟩ := along.at_ orderly ht (.scalar none .null [] .plain)
    exact ⟨lies, ⟨rfl, .inr ⟨rfl, rfl⟩⟩, along.onward rfl⟩
  | finished => exact absurd rfl more

theorem lined_events (orderly : Orderly src tokens) (steps : Nat) (h : w.Onward tokens p) :
    Event.Lined src tokens p (closers (w.state :: w.stack)) (events steps w).items := by
  induction steps generalizing w p with
  | zero => exact .nil
  | succ steps ih =>
    rw [events]
    split
    · exact .nil
    · next running =>
      cases run : step.run w with
      | error e => exact .nil
      | ok out =>
        obtain ⟨e, u⟩ := out
        have goes := (goes_step orderly h running).run e u run
        exact .cons goes.lies goes.tells (ih goes.onward)

end

end Walk

/-- The events of every text lie one behind another. -/
theorem EventFeed.lined_ofText (s : Text) :
    Event.Lined s (TokenFeed.ofText s).items 0 [] (EventFeed.ofText s).items := by
  obtain ⟨more, items⟩ := TokenFeed.items_ofText s
  refine Walk.lined_events (w := ⟨s, _, _, .stream, [], [], []⟩) (TokenFeed.orderly_ofText s) _
    ⟨⟨List.suffix_refl _, (TokenFeed.shown_ofText s).2, fun _ _ => Nat.zero_le _, nofun⟩, ?_⟩
  exact ⟨TokenFeed.start, by rw [items]; rfl, rfl⟩

/-- Events that lie one behind another are in order. -/
theorem Event.Lined.inOrder {src : Text} {tokens : List Token} {position : Nat} {before : List Bool}
    {events : List Event} (h : Event.Lined src tokens position before events) :
    Event.InOrder events ∧ ∀ e ∈ events.head?, position ≤ e.start.index := by
  induction h with
  | nil => exact ⟨⟨nofun, .nil⟩, nofun⟩
  | cons lies _ further ih =>
    obtain ⟨⟨range, apart⟩, begins⟩ := ih
    refine ⟨⟨List.forall_mem_cons.mpr ⟨lies.le, range⟩, List.isChain_cons.mpr ⟨begins, apart⟩⟩, ?_⟩
    rintro _ ⟨⟩
    exact lies.begins

/-- The events of every text are in order. -/
theorem EventFeed.inOrder_ofText (s : Text) : Event.InOrder (EventFeed.ofText s).items :=
  (lined_ofText s).inOrder.1

end YamlEdit
