import YamlEdit.Proofs.Event.First
import YamlEdit.Proofs.Token.Orderly

/-!
# Entries and their dashes

In a sequence outside of brackets every entry has a dash of its own. The dash is in the column of the
sequence, and the entry starts at the token behind it or is empty right there.

What a walker has taken leaves brackets and blocks open, and its stack says the same in states: for
every block there is a state, only a sequence without indentation of its own shares the column of the
mapping around it. So the innermost block, which the next dash stands in, belongs to the sequence
that the walker takes the dash for.
-/

namespace YamlEdit

/-- A start of an entry behind a dash in a column. -/
def HasDash (tokens : List Token) (column : Nat) (start : Mark) : Prop :=
  ∃ before dash after, tokens = before ++ dash :: after ∧ dash.kind = .blockEntry ∧
    dash.start.column = column ∧ (start = dash.stop ∨ ∃ t ∈ after.head?, t.start = start)

namespace Event

/-- The column of the dashes of the sequence that an event opens. One without indentation of its own
opens behind its first dash. -/
def dashes? (e : Event) : Option Nat :=
  match e.kind with
  | .sequenceStart _ _ .block => some e.stop.column
  | .sequenceStart _ _ .bare => some (e.stop.column - 1)
  | _ => none

/-- The columns of dashes, for every collection that is open behind an event, innermost first. -/
def columns (e : Event) (columns : List (Option Nat)) : List (Option Nat) :=
  match e.kind with
  | .sequenceStart .. | .mappingStart .. => e.dashes? :: columns
  | .sequenceEnd | .mappingEnd => columns.tail
  | _ => columns

/-- An event that opens a sequence outside of brackets stops at a token for that. -/
def Opens (tokens : List Token) (e : Event) : Prop :=
  match e.kind with
  | .sequenceStart _ _ .block => ∃ t ∈ tokens, t.kind = .blockSequenceStart ∧ e.stop = t.start
  | .sequenceStart _ _ .bare => ∃ t ∈ tokens, t.kind = .blockEntry ∧ e.stop = t.stop
  | _ => True

/-- An event behind which collections with columns of dashes are open: an entry has its dash. -/
structure Fits (tokens : List Token) (columns : List (Option Nat)) (e : Event) : Prop where
  entry : e.kind.isNode = true → ∀ c, columns.head? = some (some c) → HasDash tokens c e.start
  opens : e.Opens tokens

/-- Events that fit, one after another. -/
def AllFit (tokens : List Token) : List (Option Nat) → List Event → Prop
  | _, [] => True
  | columns, e :: r => e.Fits tokens columns ∧ AllFit tokens (e.columns columns) r

end Event

namespace Walk

/-! ## Stacks and what is open -/

/-- The state that waits behind the token that a state starts with. -/
def State.opened : State → State
  | blockSequenceFirst => blockSequenceEntry
  | blockMappingFirst => blockMappingKey
  | flowSequenceFirst => flowSequenceEntry
  | flowMappingFirst => flowMappingKey
  | pairKey => pairValue
  | state => state

/-- Whether a state is about one collection inside of brackets or braces. -/
def State.isFlow : State → Bool
  | flowSequenceEntry | flowMappingKey | flowMappingValue | flowMappingNoValue => true
  | _ => false

/-- States on a stack, what the tokens have left open for them, and the columns of their dashes. -/
inductive Frames : List State → Nest → List (Option Nat) → Prop
  | document : Frames [.documentEnd] {} []
  | blockSequence {stack : List State} {c : Nat} {open_ : List Nat} {columns : List (Option Nat)} :
      Frames stack ⟨0, open_⟩ columns →
        Frames (.blockSequenceEntry :: stack) ⟨0, c :: open_⟩ (some c :: columns)
  | bareSequence {stack : List State} {c : Nat} {open_ : List Nat} {columns : List (Option Nat)} :
      Frames stack ⟨0, c :: open_⟩ columns →
        Frames (.bareSequenceEntry :: stack) ⟨0, c :: open_⟩ (some c :: columns)
  | blockMapping {state : State} {stack : List State} {c : Nat} {open_ : List Nat}
      {columns : List (Option Nat)} (part : state = .blockMappingKey ∨ state = .blockMappingValue) :
      Frames stack ⟨0, open_⟩ columns → Frames (state :: stack) ⟨0, c :: open_⟩ (none :: columns)
  | flow {state : State} {stack : List State} {depth : Nat} {open_ : List Nat}
      {columns : List (Option Nat)} (part : state.isFlow = true) :
      Frames stack ⟨depth, open_⟩ columns →
        Frames (state :: stack) ⟨depth + 1, open_⟩ (none :: columns)
  | pair {state : State} {stack : List State} {depth : Nat} {open_ : List Nat}
      {columns : List (Option Nat)} (part : state = .pairValue ∨ state = .pairEnd) :
      Frames stack ⟨depth, open_⟩ columns →
        Frames (state :: stack) ⟨depth + 1, open_⟩ (none :: none :: columns)

/-- What a state and the stack below it say of what is open. A state that starts by taking a token
speaks of what is open behind that. -/
def State.Framed (state : State) (stack : List State) (tokens : List Token) (n : Nest)
    (columns : List (Option Nat)) : Prop :=
  match state with
  | .stream =>
    stack = [] ∧ n = {} ∧ columns = [] ∧ ∀ t ∈ tokens.head?, t.kind.isInert = true
  | .firstDocument | .nextDocument => stack = [] ∧ n = {} ∧ columns = []
  | .documentContent | .blockNode => stack = [.documentEnd] ∧ n = {} ∧ columns = []
  | .finished => True
  | .blockSequenceFirst | .blockMappingFirst | .flowSequenceFirst | .flowMappingFirst | .pairKey =>
    ∃ t ∈ tokens.head?, ∃ m, n.take? t = some m ∧ Frames (state.opened :: stack) m columns
  | state => Frames (state :: stack) n columns

/-- What a walker has taken of some tokens leaves something open. -/
def Walker.Seen (tokens : List Token) (w : Walker) (n : Nest) : Prop :=
  ∃ before, tokens = before ++ w.tokens ∧ Nest.run {} before = some n

/-- A walker whose state and stack say what the tokens it has taken leave open. -/
def Walker.Framed (tokens : List Token) (w : Walker) (columns : List (Option Nat)) : Prop :=
  ∃ n, w.Seen tokens n ∧ w.state.Framed w.stack w.tokens n columns

/-- What a step comes to: an event that fits, and a walker that knows what is open behind it. -/
structure Turn (tokens : List Token) (columns : List (Option Nat)) (e : Event) (u : Walker) :
    Prop where
  fits : e.Fits tokens columns
  framed : u.Framed tokens (e.columns columns)

section

variable {src : Text} {tokens : List Token} {n : Nest} {w u : Walker}
  {columns : List (Option Nat)}

theorem Frames.framed {state : State} {stack : List State} (h : Frames (state :: stack) n columns)
    (tokens : List Token) : state.Framed stack tokens n columns := by
  cases h with
  | document => exact .document
  | blockSequence h => exact .blockSequence h
  | bareSequence h => exact .bareSequence h
  | blockMapping part h => rcases part with rfl | rfl <;> exact .blockMapping (by simp) h
  | flow part h => cases state <;> first | exact .flow rfl h | cases part
  | pair part h => rcases part with rfl | rfl <;> exact .pair (by simp) h

theorem framed_goto (seen : w.Seen tokens n) {state : State}
    (frames : Frames (state :: w.stack) n columns) :
    Walker.Framed tokens { w with state } columns :=
  ⟨n, seen, frames.framed _⟩

theorem framed_leave (seen : w.Seen tokens n) (frames : Frames w.stack n columns) :
    Walker.Framed tokens
      { w with state := w.stack.headD .finished, stack := w.stack.drop 1 } columns := by
  obtain ⟨source, rest, fault, state, stack, begun, handles⟩ := w
  cases stack with
  | nil => cases frames
  | cons state stack => exact ⟨n, seen, frames.framed _⟩

/-! ## Tokens -/

/-- What a walker sees: its next token, or the end of the stream behind the last one. -/
def Walker.Peeks (w : Walker) (t : Token) : Prop :=
  w.tokens.head? = some t ∨ w.tokens = [] ∧ t = ⟨.streamEnd, .zero, .zero⟩

theorem Walker.Peeks.head {t : Token} (h : w.Peeks t) {k : Token.Kind} (kind : t.kind = k)
    (more : (k != .streamEnd) = true) : w.tokens.head? = some t := by
  rcases h with h | ⟨-, rfl⟩
  · exact h
  · exact absurd kind.symm (bne_iff_ne.mp more)

theorem peeks_peek {Q : Token → Walker → Prop} (h : ∀ t, w.Peeks t → Q t w) : Meets Q peek w := by
  refine ⟨?_⟩
  intro t u hu
  obtain ⟨source, rest, fault, state, stack, begun, handles⟩ := w
  cases rest with
  | cons t r =>
    cases hu
    exact h _ (.inl rfl)
  | nil =>
    cases fault with
    | some e => cases hu
    | none =>
      cases hu
      exact h _ (.inr ⟨rfl, rfl⟩)

theorem peeks_next {Q : Bool → Walker → Prop} {p : Token.Kind → Bool}
    (h : ∀ t, w.Peeks t → Q (p t.kind) w) : Meets Q (next p) w :=
  .bind (peeks_peek fun t peeks => .of_pure (h t peeks))

theorem Walker.Seen.mem (h : w.Seen tokens n) {t : Token} (ht : w.tokens.head? = some t) :
    t ∈ tokens := by
  obtain ⟨before, rfl, -⟩ := h
  exact List.mem_append_right _ (List.mem_of_mem_head? ht)

/-- Taking the next token: it leads from what is open to what is open behind it. -/
theorem Walker.Seen.take (orderly : Orderly src tokens) (h : w.Seen tokens n) {t : Token}
    (ht : w.tokens.head? = some t) :
    ∃ m, n.take? t = some m ∧ Walker.Seen tokens { w with tokens := w.tokens.drop 1 } m := by
  obtain ⟨before, cut, run⟩ := h
  obtain ⟨r, hr⟩ := List.head?_eq_some_iff.mp ht
  have cut : tokens = (before ++ [t]) ++ r := by rw [cut, hr, List.append_cons]
  have nested := (cut ▸ orderly).of_append.nested
  rw [Nest.run_append, run, Option.bind_some, Nest.run_singleton] at nested
  obtain ⟨m, took⟩ := Option.isSome_iff_exists.mp nested
  refine ⟨m, took, before ++ [t], ?_, ?_⟩
  · rw [cut, hr]
    rfl
  · rw [Nest.run_append, run, Option.bind_some, Nest.run_singleton, took]

theorem Walker.Seen.takeInert (orderly : Orderly src tokens) (h : w.Seen tokens n) {t : Token}
    (peeks : w.Peeks t) (inert : t.kind.isInert = true) :
    Walker.Seen tokens { w with tokens := w.tokens.drop 1 } n := by
  rcases peeks with ht | ⟨none, -⟩
  · obtain ⟨m, took, seen⟩ := h.take orderly ht
    rw [Nest.take?_of_isInert inert] at took
    cases took
    exact seen
  · obtain ⟨before, cut, run⟩ := h
    exact ⟨before, by rw [cut, none]; rfl, run⟩

/-! ## Nodes -/

/-- What properties come to: the node starts at the first token of them, if there is one. -/
structure Propertied (tokens : List Token) (n : Nest) (w : Walker) (p : Properties) (u : Walker) :
    Prop where
  stack : u.stack = w.stack
  seen : u.Seen tokens n
  start : p = {} ∧ u.tokens = w.tokens ∨ ∃ t ∈ w.tokens.head?, p.start = some t.start

theorem propertied_takeAnchor (orderly : Orderly src tokens) {p : Properties}
    (h : Propertied tokens n w p u) : Meets (Propertied tokens n w) (takeAnchor p) u := by
  refine .bind (peeks_peek fun t peeks => ?_)
  split
  · next name kind =>
    have ht := peeks.head kind rfl
    refine .bind (meets_take fun _ => .of_pure ⟨h.stack, h.seen.takeInert orderly peeks (by rw [kind]; rfl), ?_⟩)
    rcases h.start with ⟨rfl, same⟩ | ⟨first, hf, start⟩
    · exact .inr ⟨t, same ▸ ht, rfl⟩
    · exact .inr ⟨first, hf, by simp [start]⟩
  · exact .of_pure h

theorem propertied_takeTag (orderly : Orderly src tokens) {p : Properties}
    (h : Propertied tokens n w p u) : Meets (Propertied tokens n w) (takeTag p) u := by
  refine .bind (peeks_peek fun t peeks => ?_)
  split
  · next handle rest kind =>
    have ht := peeks.head kind rfl
    refine .bind (meets_take fun _ => .of_pure ⟨h.stack, h.seen.takeInert orderly peeks (by rw [kind]; rfl), ?_⟩)
    rcases h.start with ⟨rfl, same⟩ | ⟨first, hf, start⟩
    · exact .inr ⟨t, same ▸ ht, rfl⟩
    · exact .inr ⟨first, hf, by simp [start]⟩
  · exact .of_pure h

theorem propertied_properties (orderly : Orderly src tokens) (seen : w.Seen tokens n) :
    Meets (Propertied tokens n w) properties w := by
  have none : Propertied tokens n w {} w := ⟨rfl, seen, .inl ⟨rfl, rfl⟩⟩
  refine .bind (meets_next fun b => .ite (fun _ => .bind ?_) fun _ => .bind ?_)
  · exact (propertied_takeTag orderly none).mono fun p u h => propertied_takeAnchor orderly h
  · exact (propertied_takeAnchor orderly none).mono fun p u h =>
      .ite (fun _ => propertied_takeTag orderly h) fun _ => .of_pure h

theorem stays_fullName (p : Properties) : Meets (fun _ u => u = w) (fullName p) w := by
  rw [fullName]
  split
  · exact .of_pure rfl
  · exact .of_pure rfl
  · refine .bind (.of_get ?_)
    split
    · exact .of_pure rfl
    · exact meets_fail

/-- What reading a node comes to: an event that starts at the next token. -/
structure ReadsNode (tokens : List Token) (columns : List (Option Nat)) (w : Walker) (e : Event)
    (u : Walker) : Prop where
  isNode : e.kind.isNode = true
  start : ∃ t ∈ w.tokens.head?, t.start = e.start
  opens : e.Opens tokens
  framed : u.Framed tokens (e.columns columns)

/-- A dash outside of brackets stands in the column of the innermost block. -/
theorem column_of_dash {t : Token} {m : Nest} (kind : t.kind = .blockEntry) (outside : n.depth = 0)
    (took : n.take? t = some m) : m = n ∧ n.columns.head? = some t.start.column := by
  rw [Nest.take?, kind] at took
  dsimp only at took
  split at took
  · cases took
  · next column =>
    cases took
    exact ⟨rfl, by simpa [outside] using column⟩

theorem reads_leave {v : Walker} (seen : v.Seen tokens n) (same : v.stack = w.stack)
    (frames : Frames w.stack n columns) {k : Event.Kind} {start stop : Mark}
    (isNode : k.isNode = true) (opens : Event.Opens tokens ⟨k, start, stop⟩)
    (kept : Event.columns ⟨k, start, stop⟩ columns = columns)
    (first : ∃ t ∈ w.tokens.head?, t.start = start) :
    Meets (ReadsNode tokens columns w) (do leave; return ⟨k, start, stop⟩) v := by
  refine .bind (.of_modify (.of_pure ⟨isNode, first, opens, ?_⟩))
  rw [kept]
  exact framed_leave seen (same ▸ frames)

/-- Entering a collection whose first token comes next. -/
theorem reads_goto (orderly : Orderly src tokens) {v : Walker} (seen : v.Seen tokens n)
    (same : v.stack = w.stack) {t : Token} (ht : v.tokens.head? = some t) {state : State}
    {k : Event.Kind} {start stop : Mark} (isNode : k.isNode = true)
    (opens : Event.Opens tokens ⟨k, start, stop⟩)
    (framed : ∀ m, n.take? t = some m →
      state.Framed w.stack v.tokens n (Event.columns ⟨k, start, stop⟩ columns))
    (first : ∃ t ∈ w.tokens.head?, t.start = start) :
    Meets (ReadsNode tokens columns w) (do goto state; return ⟨k, start, stop⟩) v := by
  refine .bind (.of_modify (.of_pure ⟨isNode, first, opens, n, seen, ?_⟩))
  obtain ⟨m, took, -⟩ := seen.take orderly ht
  show state.Framed v.stack v.tokens n _
  rw [same]
  exact framed m took

theorem reads_content {v : Walker} {p : Properties} (h : Propertied tokens n w p v)
    (frames : Frames w.stack n columns) (block : Bool) (name : Option Text) (t : Token)
    (stop : Mark) :
    Meets (ReadsNode tokens columns w) (node.content block p name t (p.start.getD t.start) stop) v := by
  refine .ite (fun some_ => ?_) fun _ => meets_fail
  refine reads_leave h.seen h.stack frames rfl trivial rfl ?_
  rcases h.start with ⟨rfl, -⟩ | ⟨first, hf, start⟩
  · cases some_
  · exact ⟨first, hf, by rw [start]; rfl⟩

/-- Reading a node. Block collections are read outside of brackets only. -/
theorem reads_node (orderly : Orderly src tokens) (seen : w.Seen tokens n)
    (frames : Frames w.stack n columns) {block bare : Bool}
    (outside : block = true ∨ bare = true → n.depth = 0) :
    Meets (ReadsNode tokens columns w) (node block bare) w := by
  refine .bind (peeks_peek fun t peeks => ?_)
  split
  · next name kind =>
    have ht := peeks.head kind rfl
    refine .bind (meets_take fun _ => ?_)
    exact reads_leave (w := w) (seen.takeInert orderly peeks (by rw [kind]; rfl)) rfl frames rfl
      trivial rfl ⟨t, ht, rfl⟩
  · refine .bind ((propertied_properties orderly seen).mono fun p u h =>
      .bind ((stays_fullName p).mono ?_))
    rintro name v rfl
    refine .bind (peeks_peek fun t peeks => ?_)
    have first (ht : v.tokens.head? = some t) :
        ∃ f ∈ w.tokens.head?, f.start = p.start.getD t.start := by
      rcases h.start with ⟨rfl, same⟩ | ⟨first, hf, start⟩
      · exact ⟨t, same ▸ ht, rfl⟩
      · exact ⟨first, hf, by rw [start]; rfl⟩
    dsimp only
    split
    · next kind =>
      have ht := peeks.head kind rfl
      refine .ite (fun here => ?_) fun _ => reads_content h frames ..
      refine reads_goto orderly h.seen h.stack ht rfl ⟨t, h.seen.mem ht, kind, rfl⟩ ?_
        (first ht)
      intro m took
      obtain ⟨depth, open_⟩ := n
      have zero : depth = 0 := outside (.inr here)
      subst zero
      obtain ⟨-, column⟩ := column_of_dash kind rfl took
      obtain ⟨r, rfl⟩ := List.head?_eq_some_iff.mp column
      show Frames _ _ (some (t.stop.column - 1) :: columns)
      rw [(orderly.lies t (h.seen.mem ht)).column_stop kind, Nat.add_sub_cancel]
      exact .bareSequence frames
    · next text quoting kind =>
      have ht := peeks.head kind rfl
      refine .bind (meets_take fun _ => ?_)
      exact reads_leave (h.seen.takeInert orderly peeks (by rw [kind]; rfl)) h.stack frames rfl trivial
        rfl (first ht)
    · next kind =>
      have ht := peeks.head kind rfl
      refine reads_goto orderly h.seen h.stack ht rfl trivial ?_ (first ht)
      exact fun m took => ⟨t, ht, _, by rw [Nest.take?, kind], .flow rfl frames⟩
    · next kind =>
      have ht := peeks.head kind rfl
      refine reads_goto orderly h.seen h.stack ht rfl trivial ?_ (first ht)
      exact fun m took => ⟨t, ht, _, by rw [Nest.take?, kind], .flow rfl frames⟩
    · next kind =>
      have ht := peeks.head kind rfl
      refine .ite (fun here => ?_) fun _ => reads_content h frames ..
      refine reads_goto orderly h.seen h.stack ht rfl ⟨t, h.seen.mem ht, kind, rfl⟩ ?_
        (first ht)
      obtain ⟨depth, open_⟩ := n
      have zero : depth = 0 := outside (.inl here)
      subst zero
      exact fun m took => ⟨t, ht, _, by rw [Nest.take?, kind], .blockSequence frames⟩
    · next kind =>
      have ht := peeks.head kind rfl
      refine .ite (fun here => ?_) fun _ => reads_content h frames ..
      refine reads_goto orderly h.seen h.stack ht rfl trivial ?_ (first ht)
      obtain ⟨depth, open_⟩ := n
      have zero : depth = 0 := outside (.inl here)
      subst zero
      exact fun m took => ⟨t, ht, _, by rw [Nest.take?, kind], .blockMapping (.inl rfl) frames⟩
    · exact reads_content h frames ..

/-- Reading a node is a turn, if an entry that starts at the next token has its dash. -/
theorem ReadsNode.turn {e : Event} (h : ReadsNode tokens columns w e u)
    (entry : ∀ c, columns.head? = some (some c) →
      ∀ t ∈ w.tokens.head?, HasDash tokens c t.start) : Turn tokens columns e u := by
  refine ⟨⟨fun _ c hc => ?_, h.opens⟩, h.framed⟩
  obtain ⟨t, ht, start⟩ := h.start
  exact start ▸ entry c hc t ht

/-- Reading a node that may be left out, followed by a state. -/
theorem turn_nodeOrEmpty (orderly : Orderly src tokens) (seen : w.Seen tokens n) {after : State}
    (frames : Frames (after :: w.stack) n columns) (ends : Token.Kind → Bool) {bare block : Bool}
    (outside : block = true ∨ bare = true → n.depth = 0) {m : Mark}
    (entry : ∀ c, columns.head? = some (some c) →
      ∀ start, (start = m ∨ ∃ t ∈ w.tokens.head?, t.start = start) → HasDash tokens c start) :
    Meets (Turn tokens columns) (nodeOrEmpty ends bare block after m) w := by
  refine .bind (peeks_peek fun t peeks => .ite (fun _ => ?_) fun _ => ?_)
  · exact .bind (.of_modify (.of_pure
      ⟨⟨fun _ c hc => entry c hc m (.inl rfl), trivial⟩, framed_goto seen frames⟩))
  · refine .bind (.of_modify ?_)
    refine (reads_node (w := { w with stack := after :: w.stack }) orderly seen frames outside).mono ?_
    intro e u reads
    exact reads.turn fun c hc t ht => entry c hc t.start (.inr ⟨t, ht, rfl⟩)

/-! ## Documents -/

theorem inert_skipEnds (orderly : Orderly src tokens) (steps : Nat) (seen : w.Seen tokens n) :
    Meets (fun _ u => u.Seen tokens n ∧ u.stack = w.stack) (skipEnds steps) w := by
  induction steps generalizing w with
  | zero => exact .of_pure ⟨seen, rfl⟩
  | succ steps ih =>
    refine .bind (peeks_next fun t peeks => .ite (fun ends => .bind (meets_take fun _ => ?_))
      fun _ => .of_pure ⟨seen, rfl⟩)
    have kind : t.kind = .documentEnd := by simpa using ends
    exact ih (seen.takeInert orderly peeks (by rw [kind]; rfl))

theorem inert_directives (orderly : Orderly src tokens) (steps : Nat) (versioned : Bool)
    (handles : List (Text × Text)) (seen : w.Seen tokens n) :
    Meets (fun _ u => u.Seen tokens n ∧ u.stack = w.stack) (directives steps versioned handles)
      w := by
  induction steps generalizing w versioned handles with
  | zero => exact .of_pure ⟨seen, rfl⟩
  | succ steps ih =>
    refine .bind (peeks_peek fun t peeks => ?_)
    split
    · next d kind =>
      refine .bind (meets_take fun _ => ?_)
      have rest : ∀ versioned handles, Meets (fun _ u => u.Seen tokens n ∧ u.stack = w.stack)
          (directives steps versioned handles) { w with tokens := w.tokens.drop 1 } :=
        fun versioned handles => ih versioned handles
          (seen.takeInert orderly peeks (by rw [kind]; rfl))
      split
      · exact .ite (fun _ => .bind meets_fail) fun _ => .ite (fun _ => .bind meets_fail) fun _ => rest ..
      · exact .ite (fun _ => .bind meets_fail) fun _ => rest ..
      · exact rest ..
    · exact .of_pure ⟨seen, rfl⟩

theorem turn_nextDocument (orderly : Orderly src tokens) (seen : w.Seen tokens {})
    (bottom : w.stack = []) : Meets (Turn tokens []) nextDocument w := by
  refine .bind (.of_get (.bind ((inert_skipEnds orderly _ seen).mono ?_)))
  rintro _ u ⟨seen, stack⟩
  refine .bind (peeks_peek fun t peeks => .ite (fun ends => ?_) fun _ => ?_)
  · have kind : t.kind = .streamEnd := by simpa using ends
    refine .bind (meets_take fun _ => .bind (.of_modify (.of_pure ⟨⟨nofun, trivial⟩, {}, ?_, trivial⟩)))
    exact seen.takeInert orderly peeks (by rw [kind]; rfl)
  · refine .bind (.of_get (.bind ((inert_directives orderly _ _ _ seen).mono ?_)))
    rintro handles v ⟨seen, stack'⟩
    refine .bind (peeks_peek fun mark peeks => .ite (fun _ => .bind meets_fail) fun opens => ?_)
    have kind : mark.kind = .documentStart := by simpa using opens
    refine .bind (meets_take fun _ => .bind (.of_modify (.bind (.of_modify (.bind
      (.of_modify (.of_pure ?_)))))))
    refine ⟨⟨nofun, trivial⟩, {}, ?_, ?_, rfl, rfl⟩
    · exact seen.takeInert orderly peeks (by rw [kind]; rfl)
    · show State.documentEnd :: v.stack = _
      rw [stack', stack, bottom]

theorem turn_firstDocument (orderly : Orderly src tokens) (seen : w.Seen tokens {})
    (bottom : w.stack = []) : Meets (Turn tokens []) firstDocument w := by
  refine .bind (peeks_peek fun t _ => .ite (fun _ => turn_nextDocument orderly seen bottom) fun _ => ?_)
  refine .bind (.of_modify (.bind (.of_modify (.bind (.of_modify (.of_pure ?_))))))
  refine ⟨⟨nofun, trivial⟩, {}, seen, ?_, rfl, rfl⟩
  show State.documentEnd :: w.stack = _
  rw [bottom]

theorem turn_documentEnd (orderly : Orderly src tokens) (seen : w.Seen tokens {})
    (bottom : w.stack = []) : Meets (Turn tokens []) documentEnd w := by
  refine .bind (peeks_peek fun t peeks => .bind (.of_modify (.ite (fun ends => ?_) fun _ => ?_)))
  · have kind : t.kind = .documentEnd := by simpa using ends
    refine .bind (meets_take fun _ => .of_pure ⟨⟨nofun, trivial⟩, {}, ?_, bottom, rfl, rfl⟩)
    exact seen.takeInert orderly peeks (by rw [kind]; rfl)
  · exact .of_pure ⟨⟨nofun, trivial⟩, {}, seen, bottom, rfl, rfl⟩

theorem turn_rootNode (orderly : Orderly src tokens) (seen : w.Seen tokens {})
    (bottom : w.stack = [.documentEnd]) : Meets (Turn tokens []) (node true false) w :=
  (reads_node orderly seen (bottom ▸ Frames.document) fun _ => rfl).mono
    fun _ _ reads => reads.turn nofun

theorem turn_documentContent (orderly : Orderly src tokens) (seen : w.Seen tokens {})
    (bottom : w.stack = [.documentEnd]) : Meets (Turn tokens []) documentContent w := by
  have left (t : Token) : Meets (Turn tokens []) (do leave; return empty t.start) w :=
    .bind (.of_modify (.of_pure ⟨⟨nofun, trivial⟩, framed_leave seen (bottom ▸ Frames.document)⟩))
  refine .bind (peeks_peek fun t _ => ?_)
  split
  · exact left t
  · exact left t
  · exact left t
  · exact left t
  · exact turn_rootNode orderly seen bottom

/-! ## Collections -/

/-- An entry behind a dash that was just taken. -/
theorem Walker.Seen.entry (seen : w.Seen tokens n) {dash : Token} {c : Nat}
    (ht : w.tokens.head? = some dash) (kind : dash.kind = .blockEntry)
    (column : dash.start.column = c) {start : Mark}
    (next : start = dash.stop ∨ ∃ t ∈ (w.tokens.drop 1).head?, t.start = start) :
    HasDash tokens c start := by
  obtain ⟨before, cut, -⟩ := seen
  obtain ⟨r, hr⟩ := List.head?_eq_some_iff.mp ht
  rw [hr] at cut next
  exact ⟨before, dash, r, cut, kind, column, next⟩

/-- Leaving a collection at its end. -/
theorem turn_leave {v : Walker} {k : Event.Kind} {start stop : Mark} {last : Option Nat}
    (ends : k = .sequenceEnd ∨ k = .mappingEnd) (seen : v.Seen tokens n)
    (frames : Frames v.stack n columns) :
    Meets (Turn tokens (last :: columns)) (do leave; return ⟨k, start, stop⟩) v := by
  refine .bind (.of_modify (.of_pure ?_))
  rcases ends with rfl | rfl <;> exact ⟨⟨nofun, trivial⟩, framed_leave seen frames⟩

theorem turn_leaveCollection {v : Walker} {k : Event.Kind} {start stop : Mark} {last : Option Nat}
    (ends : k = .sequenceEnd ∨ k = .mappingEnd) (seen : v.Seen tokens n)
    (frames : Frames v.stack n columns) :
    Meets (Turn tokens (last :: columns)) (do leaveCollection; return ⟨k, start, stop⟩) v := by
  refine .bind (.bind (.of_modify ?_))
  exact .of_modify (.of_pure (by
    rcases ends with rfl | rfl <;> exact ⟨⟨nofun, trivial⟩, framed_leave seen frames⟩))

theorem turn_blockSequenceEntry (orderly : Orderly src tokens) (seen : w.Seen tokens n)
    (frames : Frames (.blockSequenceEntry :: w.stack) n columns) :
    Meets (Turn tokens columns) blockSequenceEntry w := by
  cases frames with
  | blockMapping part => rcases part with part | part <;> cases part
  | flow part => cases part
  | pair part => rcases part with part | part <;> cases part
  | blockSequence frames =>
    refine .bind (peeks_peek fun t peeks => ?_)
    split
    · next kind =>
      have ht := peeks.head kind rfl
      obtain ⟨m, took, after⟩ := seen.take orderly ht
      obtain ⟨rfl, column⟩ := column_of_dash kind rfl took
      refine .bind (meets_take fun _ => ?_)
      refine turn_nodeOrEmpty orderly after (.blockSequence frames) _ (fun _ => rfl) ?_
      rintro _ ⟨⟩ start next
      exact seen.entry ht kind (Option.some.inj column).symm next
    · next kind =>
      obtain ⟨m, took, after⟩ := seen.take orderly (peeks.head kind rfl)
      rw [Nest.take?, kind] at took
      cases took
      exact .bind (meets_take fun _ => turn_leaveCollection (.inl rfl) after frames)
    · exact .bind (.bind (.of_get (.of_pure meets_fail)))

theorem turn_bareSequenceEntry (orderly : Orderly src tokens) (seen : w.Seen tokens n)
    (frames : Frames (.bareSequenceEntry :: w.stack) n columns) :
    Meets (Turn tokens columns) bareSequenceEntry w := by
  cases frames with
  | blockMapping part => rcases part with part | part <;> cases part
  | flow part => cases part
  | pair part => rcases part with part | part <;> cases part
  | bareSequence frames =>
    refine .bind (peeks_peek fun t peeks => ?_)
    split
    · next kind =>
      have ht := peeks.head kind rfl
      obtain ⟨m, took, after⟩ := seen.take orderly ht
      obtain ⟨rfl, column⟩ := column_of_dash kind rfl took
      refine .bind (meets_take fun _ => ?_)
      refine turn_nodeOrEmpty orderly after (.bareSequence frames) _ (fun _ => rfl) ?_
      rintro _ ⟨⟩ start next
      exact seen.entry ht kind (Option.some.inj column).symm next
    · exact turn_leave (.inl rfl) seen frames

theorem turn_blockMappingKey (orderly : Orderly src tokens) (seen : w.Seen tokens n)
    (frames : Frames (.blockMappingKey :: w.stack) n columns) :
    Meets (Turn tokens columns) blockMappingKey w := by
  cases frames with
  | flow part => cases part
  | pair part => rcases part with part | part <;> cases part
  | blockMapping _ frames =>
    refine .bind (peeks_peek fun t peeks => ?_)
    split
    · next kind =>
      refine .bind (meets_take fun _ => ?_)
      exact turn_nodeOrEmpty orderly (seen.takeInert orderly peeks (by rw [kind]; rfl))
        (.blockMapping (.inr rfl) frames) _ (fun _ => rfl) nofun
    · next kind =>
      obtain ⟨m, took, after⟩ := seen.take orderly (peeks.head kind rfl)
      rw [Nest.take?, kind] at took
      cases took
      exact .bind (meets_take fun _ => turn_leaveCollection (.inr rfl) after frames)
    · exact .bind (.bind (.of_get (.of_pure meets_fail)))

/-- A value that is left out. -/
theorem turn_empty (seen : w.Seen tokens n) {state : State}
    (frames : Frames (state :: w.stack) n (none :: columns)) (m : Mark) :
    Meets (Turn tokens (none :: columns)) (do goto state; return empty m) w :=
  .bind (.of_modify (.of_pure ⟨⟨fun _ => nofun, trivial⟩, framed_goto seen frames⟩))

theorem turn_blockMappingValue (orderly : Orderly src tokens) (seen : w.Seen tokens n)
    (frames : Frames (.blockMappingValue :: w.stack) n columns) :
    Meets (Turn tokens columns) blockMappingValue w := by
  cases frames with
  | flow part => cases part
  | pair part => rcases part with part | part <;> cases part
  | blockMapping _ frames =>
    refine .bind (peeks_peek fun t peeks => ?_)
    split
    · next kind =>
      refine .bind (meets_take fun _ => ?_)
      exact turn_nodeOrEmpty orderly (seen.takeInert orderly peeks (by rw [kind]; rfl))
        (.blockMapping (.inl rfl) frames) _ (fun _ => rfl) nofun
    · exact turn_empty seen (.blockMapping (.inl rfl) frames) _

theorem inert_takeComma (orderly : Orderly src tokens) (seen : w.Seen tokens n) (first : Bool)
    (cause : Token.Kind → ParseFault) :
    Meets (fun _ u => u.Seen tokens n ∧ u.stack = w.stack) (takeComma first cause) w := by
  refine .ite (fun _ => .of_pure ⟨seen, rfl⟩) fun _ => .bind (peeks_peek fun t peeks => ?_)
  split
  · next kind =>
    exact .bind (meets_take fun _ =>
      .of_pure ⟨seen.takeInert orderly peeks (by rw [kind]; rfl), rfl⟩)
  · exact .bind (.bind (.of_get (.of_pure meets_fail)))

/-- The end of a flow collection, at its last token. -/
theorem turn_flowEnd (orderly : Orderly src tokens) {depth : Nat} {open_ : List Nat}
    (seen : w.Seen tokens ⟨depth + 1, open_⟩) (frames : Frames w.stack ⟨depth, open_⟩ columns)
    {t : Token} (ht : w.tokens.head? = some t)
    (closes : t.kind = .flowSequenceEnd ∨ t.kind = .flowMappingEnd) {k : Event.Kind}
    (ends : k = .sequenceEnd ∨ k = .mappingEnd) :
    Meets (Turn tokens (none :: columns)) (flowEnd k) w := by
  obtain ⟨m, took, after⟩ := seen.take orderly ht
  have less : m = ⟨depth, open_⟩ := by
    rw [Nest.take?] at took
    rcases closes with kind | kind
    all_goals
      rw [kind] at took
      exact (Option.some.inj took).symm
  subst less
  exact .bind (meets_take fun _ => turn_leaveCollection ends after frames)

theorem turn_flowSequenceEntry (orderly : Orderly src tokens) (seen : w.Seen tokens n)
    (frames : Frames (.flowSequenceEntry :: w.stack) n columns) (first : Bool) :
    Meets (Turn tokens columns) (flowSequenceEntry first) w := by
  cases frames with
  | blockMapping part => rcases part with part | part <;> cases part
  | pair part => rcases part with part | part <;> cases part
  | flow _ frames =>
    refine .bind (peeks_next fun t peeks => .ite (fun ends => ?_) fun _ => .bind ?_)
    · have kind : t.kind = .flowSequenceEnd := by simpa using ends
      exact turn_flowEnd orderly seen frames (peeks.head kind rfl) (.inl kind) (.inl rfl)
    · refine (inert_takeComma orderly seen first _).mono ?_
      rintro _ u ⟨seen, stack⟩
      rw [← stack] at frames
      refine .bind (peeks_peek fun t peeks => ?_)
      split
      · next kind =>
        have ht := peeks.head kind rfl
        refine .bind (.of_modify (.of_pure ⟨⟨fun _ => nofun, trivial⟩, _, seen, t, ht, _,
          Nest.take?_of_isInert (by rw [kind]; rfl) _, ?_⟩))
        exact .pair (.inl rfl) frames
      · next kind =>
        exact turn_flowEnd orderly seen frames (peeks.head kind rfl) (.inl kind)
          (.inl rfl)
      · refine .bind (.of_modify ?_)
        exact (reads_node (w := { u with stack := .flowSequenceEntry :: u.stack }) orderly seen
          (.flow rfl frames) (by simp)).mono fun _ _ reads => reads.turn nofun

theorem turn_pairKey (orderly : Orderly src tokens) (seen : w.Seen tokens n)
    (frames : State.pairKey.Framed w.stack w.tokens n columns) :
    Meets (Turn tokens columns) pairKey w := by
  obtain ⟨t, ht, m, took, frames⟩ := frames
  obtain ⟨m', took', after⟩ := seen.take orderly ht
  cases took.symm.trans took'
  refine .bind (meets_take fun _ => ?_)
  cases frames with
  | blockMapping part => rcases part with part | part <;> cases part
  | flow part => cases part
  | pair _ frames =>
    exact turn_nodeOrEmpty orderly after (.pair (.inl rfl) frames) _ (by simp) nofun

theorem turn_pairValue (orderly : Orderly src tokens) (seen : w.Seen tokens n)
    (frames : Frames (.pairValue :: w.stack) n columns) :
    Meets (Turn tokens columns) pairValue w := by
  cases frames with
  | blockMapping part => rcases part with part | part <;> cases part
  | flow part => cases part
  | pair _ frames =>
    refine .bind (peeks_peek fun t peeks => ?_)
    split
    · next kind =>
      refine .bind (meets_take fun _ => ?_)
      exact turn_nodeOrEmpty orderly (seen.takeInert orderly peeks (by rw [kind]; rfl))
        (.pair (.inr rfl) frames) _ (by simp) nofun
    · exact turn_empty seen (.pair (.inr rfl) frames) _

theorem turn_pairEnd (seen : w.Seen tokens n) (frames : Frames (.pairEnd :: w.stack) n columns) :
    Meets (Turn tokens columns) pairEnd w := by
  cases frames with
  | blockMapping part => rcases part with part | part <;> cases part
  | flow part => cases part
  | pair _ frames =>
    refine .bind (peeks_peek fun t _ => .bind (.of_modify (.of_pure ⟨⟨nofun, trivial⟩, ?_⟩)))
    exact framed_goto seen (.flow rfl frames)

theorem turn_flowMappingKey (orderly : Orderly src tokens) (seen : w.Seen tokens n)
    (frames : Frames (.flowMappingKey :: w.stack) n columns) (first : Bool) :
    Meets (Turn tokens columns) (flowMappingKey first) w := by
  cases frames with
  | blockMapping part => rcases part with part | part <;> cases part
  | pair part => rcases part with part | part <;> cases part
  | flow _ frames =>
    refine .bind (peeks_next fun t peeks => .ite (fun ends => ?_) fun _ => .bind ?_)
    · have kind : t.kind = .flowMappingEnd := by simpa using ends
      exact turn_flowEnd orderly seen frames (peeks.head kind rfl) (.inr kind) (.inr rfl)
    · refine (inert_takeComma orderly seen first _).mono ?_
      rintro _ u ⟨seen, stack⟩
      rw [← stack] at frames
      refine .bind (peeks_peek fun t peeks => ?_)
      split
      · next kind =>
        refine .bind (meets_take fun _ => ?_)
        exact turn_nodeOrEmpty orderly (seen.takeInert orderly peeks (by rw [kind]; rfl))
          (.flow rfl frames) _ (by simp) nofun
      · next kind =>
        exact turn_flowEnd orderly seen frames (peeks.head kind rfl) (.inr kind)
          (.inr rfl)
      · refine .bind (.of_modify ?_)
        exact (reads_node (w := { u with stack := .flowMappingNoValue :: u.stack }) orderly seen
          (.flow rfl frames) (by simp)).mono fun _ _ reads => reads.turn nofun

theorem turn_flowMappingValue (orderly : Orderly src tokens) (seen : w.Seen tokens n)
    (frames : Frames (.flowMappingValue :: w.stack) n columns) :
    Meets (Turn tokens columns) flowMappingValue w := by
  cases frames with
  | blockMapping part => rcases part with part | part <;> cases part
  | pair part => rcases part with part | part <;> cases part
  | flow _ frames =>
    refine .bind (peeks_peek fun t peeks => ?_)
    split
    · next kind =>
      refine .bind (meets_take fun _ => ?_)
      exact turn_nodeOrEmpty orderly (seen.takeInert orderly peeks (by rw [kind]; rfl))
        (.flow rfl frames) _ (by simp) nofun
    · exact turn_empty seen (.flow rfl frames) _

theorem turn_flowMappingNoValue (seen : w.Seen tokens n)
    (frames : Frames (.flowMappingNoValue :: w.stack) n columns) :
    Meets (Turn tokens columns) (do goto .flowMappingKey; return empty (← peek).start) w := by
  cases frames with
  | blockMapping part => rcases part with part | part <;> cases part
  | pair part => rcases part with part | part <;> cases part
  | flow _ frames =>
    exact .bind (.of_modify (.bind (peeks_peek fun t _ => .of_pure
      ⟨⟨fun _ => nofun, trivial⟩, framed_goto seen (.flow rfl frames)⟩)))

/-- The first part of a collection, behind the token that opens it. -/
theorem turn_opening (orderly : Orderly src tokens) (seen : w.Seen tokens n) {state : State}
    (framed : ∃ t ∈ w.tokens.head?, ∃ m, n.take? t = some m ∧ Frames (state :: w.stack) m columns)
    {x : Step Event}
    (next : ∀ (m : Nest) (u : Walker), u.Seen tokens m → Frames (state :: u.stack) m columns →
      Meets (Turn tokens columns) x u) :
    Meets (Turn tokens columns) (do opening; x) w := by
  obtain ⟨t, ht, m, took, frames⟩ := framed
  obtain ⟨m', took', after⟩ := seen.take orderly ht
  cases took.symm.trans took'
  exact .bind (.bind (meets_take fun first => .of_modify
    (next m { w with tokens := w.tokens.drop 1, begun := first.start :: w.begun } after frames)))

/-! ## The whole walk -/

/-- A step gives an event that fits, and leads to a walker that knows what is open. -/
theorem turn_step (orderly : Orderly src tokens) (framed : w.Framed tokens columns)
    (more : w.state ≠ .finished) : Meets (Turn tokens columns) step w := by
  obtain ⟨source, rest, fault, state, stack, begun, handles⟩ := w
  obtain ⟨n, seen, framed⟩ := framed
  refine .bind (.of_get ?_)
  cases state with
  | stream =>
    obtain ⟨bottom, rfl, rfl, first⟩ := framed
    refine .bind (.bind (peeks_peek fun t peeks => .bind (.of_modify (.of_pure ?_))))
    refine .bind (.of_modify (.of_pure ⟨⟨nofun, trivial⟩, {}, ?_, bottom, rfl, rfl⟩))
    refine seen.takeInert orderly peeks ?_
    rcases peeks with ht | ⟨-, rfl⟩
    · exact first t ht
    · rfl
  | firstDocument =>
    obtain ⟨bottom, rfl, rfl⟩ := framed
    exact turn_firstDocument orderly seen bottom
  | nextDocument =>
    obtain ⟨bottom, rfl, rfl⟩ := framed
    exact turn_nextDocument orderly seen bottom
  | documentContent =>
    obtain ⟨bottom, rfl, rfl⟩ := framed
    exact turn_documentContent orderly seen bottom
  | documentEnd =>
    cases framed with
    | document => exact turn_documentEnd orderly seen rfl
    | blockMapping part => rcases part with part | part <;> cases part
    | flow part => cases part
    | pair part => rcases part with part | part <;> cases part
  | blockNode =>
    obtain ⟨bottom, rfl, rfl⟩ := framed
    exact turn_rootNode orderly seen bottom
  | blockSequenceFirst =>
    exact turn_opening orderly seen framed fun _ _ => turn_blockSequenceEntry orderly
  | blockSequenceEntry => exact turn_blockSequenceEntry orderly seen framed
  | bareSequenceEntry => exact turn_bareSequenceEntry orderly seen framed
  | blockMappingFirst =>
    exact turn_opening orderly seen framed fun _ _ => turn_blockMappingKey orderly
  | blockMappingKey => exact turn_blockMappingKey orderly seen framed
  | blockMappingValue => exact turn_blockMappingValue orderly seen framed
  | flowSequenceFirst =>
    exact turn_opening orderly seen framed fun _ _ seen frames =>
      turn_flowSequenceEntry orderly seen frames true
  | flowSequenceEntry => exact turn_flowSequenceEntry orderly seen framed false
  | pairKey => exact turn_pairKey orderly seen framed
  | pairValue => exact turn_pairValue orderly seen framed
  | pairEnd => exact turn_pairEnd seen framed
  | flowMappingFirst =>
    exact turn_opening orderly seen framed fun _ _ seen frames =>
      turn_flowMappingKey orderly seen frames true
  | flowMappingKey => exact turn_flowMappingKey orderly seen framed false
  | flowMappingValue => exact turn_flowMappingValue orderly seen framed
  | flowMappingNoValue => exact turn_flowMappingNoValue seen framed
  | finished => exact absurd rfl more

theorem allFit_events (orderly : Orderly src tokens) (steps : Nat)
    (framed : w.Framed tokens columns) : Event.AllFit tokens columns (events steps w).items := by
  induction steps generalizing w columns with
  | zero => trivial
  | succ steps ih =>
    rw [events]
    split
    · trivial
    · next running =>
      cases run : step.run w with
      | error e => trivial
      | ok p =>
        obtain ⟨e, u⟩ := p
        have turn := (turn_step orderly framed running).run e u run
        exact ⟨turn.fits, ih turn.framed⟩

end

end Walk

theorem TokenFeed.isInert_head (s : Text) :
    ∀ t ∈ (TokenFeed.ofText s).items.head?, t.kind.isInert = true := by
  rw [TokenFeed.ofText_eq]
  split
  all_goals
    rintro _ ⟨⟩
    rfl

/-- The events of every text fit among its tokens. -/
theorem EventFeed.allFit_ofText (s : Text) :
    Event.AllFit (TokenFeed.ofText s).items [] (EventFeed.ofText s).items :=
  Walk.allFit_events (TokenFeed.orderly_ofText s) _
    ⟨{}, ⟨[], rfl, rfl⟩, rfl, rfl, rfl, TokenFeed.isInert_head s⟩

end YamlEdit
