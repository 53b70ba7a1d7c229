import YamlEdit.Event.Walk
import YamlEdit.Proofs.Agreement

/-!
# Events are nested

A text whose events end without a fault has the events of whole documents: every document holds one
node, every mapping as many values as keys, and every collection ends before what encloses it does.

Whether an event fits is decided by what is open, and a walker's state together with its stack says
what that is. Two facts about one step carry the proof: its event fits what is open before, and
leaves open what the new state says; and it lowers a weight of tokens and states. So the walk ends
in the final state, where nothing is open.
-/

namespace YamlEdit

/-! ## What is open -/

/-- Something open that nodes are added to. -/
inductive Slot where
  /-- A document, and whether it has its node. -/
  | document (full : Bool)
  | sequence
  /-- A mapping, and whether its last key is without a value. -/
  | mapping (odd : Bool)
deriving DecidableEq, Repr

/-- What a slot is with one node more; a document holds one only. -/
def Slot.filled? : Slot → Option Slot
  | document full => if full then none else some (document true)
  | sequence => some sequence
  | mapping odd => some (mapping !odd)

/-- What is open behind an event, innermost first; none if the event does not fit there. -/
def Event.Kind.move : Event.Kind → List Slot → Option (List Slot)
  | streamStart, slots | streamEnd, slots => some slots
  | documentStart, [] => some [.document false]
  | documentEnd, [.document true] => some []
  | aliasOf _, slot :: r | scalar .., slot :: r => slot.filled?.map (· :: r)
  | sequenceStart .., slot :: r => slot.filled?.map (Slot.sequence :: · :: r)
  | mappingStart .., slot :: r => slot.filled?.map (Slot.mapping false :: · :: r)
  | sequenceEnd, .sequence :: r => some r
  | mappingEnd, .mapping false :: r => some r
  | _, _ => none

theorem Event.Kind.move_sequenceEnd {slots r : List Slot} (h : sequenceEnd.move slots = some r) :
    slots = .sequence :: r := by
  cases slots with
  | nil => cases h
  | cons slot r' =>
    cases slot with
    | sequence => cases h; rfl
    | document | mapping => cases h

theorem Event.Kind.move_mappingEnd {slots r : List Slot} (h : mappingEnd.move slots = some r) :
    slots = .mapping false :: r := by
  cases slots with
  | nil => cases h
  | cons slot r' =>
    cases slot with
    | mapping odd => cases odd <;> cases h; rfl
    | document | sequence => cases h

/-- What is open behind events. -/
def Event.moves (slots : List Slot) (events : List Event) : Option (List Slot) :=
  events.foldlM (fun slots e => e.kind.move slots) slots

namespace Walk

/-- What a state stands for, as the current one or on the stack: the collections it is about, two
inside of a pair. -/
def State.slots : State → List Slot
  | blockSequenceFirst | blockSequenceEntry | bareSequenceEntry | flowSequenceFirst
  | flowSequenceEntry => [.sequence]
  | blockMappingFirst | blockMappingKey | flowMappingFirst | flowMappingKey => [.mapping false]
  | blockMappingValue | flowMappingValue | flowMappingNoValue => [.mapping true]
  | pairKey | pairEnd => [.mapping false, .sequence]
  | pairValue => [.mapping true, .sequence]
  | documentEnd => [.document true]
  | _ => []

/-- Whether a state is about a collection. -/
def State.isPart : State → Bool
  | stream | firstDocument | nextDocument | documentContent | documentEnd | blockNode
  | finished => false
  | _ => true

/-- Whether a state starts by taking a token that was seen before. -/
def State.takes : State → Bool
  | blockSequenceFirst | blockMappingFirst | flowSequenceFirst | flowMappingFirst | pairKey => true
  | _ => false

/-- What is open on a stack. -/
def under (stack : List State) : List Slot :=
  stack.flatMap State.slots

/-- What is open for a walker. The state for the end of the document is put on the stack before the
document's node is read. -/
def Walker.slots (w : Walker) : List Slot :=
  match w.state with
  | .documentContent | .blockNode => [.document false]
  | state => under (state :: w.stack)

/-- A stack inside of a document: the document's end at the bottom, collections above. -/
inductive Inside : List State → Prop
  | document : Inside [.documentEnd]
  | part {state : State} {stack : List State} (part : state.isPart = true)
    (waits : state.takes = false) (inside : Inside stack) : Inside (state :: stack)

/-- A stack that can be below a state. -/
def State.Over (state : State) (stack : List State) : Prop :=
  match state with
  | .documentContent | .blockNode => stack = [.documentEnd]
  | state => if state.isPart then Inside stack else stack = []

/-- A walker as steps make it. -/
structure Walker.Standing (w : Walker) : Prop where
  nested : w.state.Over w.stack
  takes : w.state.takes = true → 0 < w.tokens.length

/-! ## The weight of a walker -/

/-- How many events can come from a state before another token is taken. -/
def State.rank : State → Nat
  | stream => 7
  | firstDocument => 6
  | nextDocument => 1
  | documentContent | blockNode => 3
  | documentEnd => 2
  | blockMappingValue | flowMappingValue | flowMappingNoValue | pairEnd => 2
  | pairValue => 3
  | finished => 0
  | _ => 1

/-- The ranks of a stack. -/
def ranks : List State → Nat
  | [] => 0
  | state :: r => state.rank + ranks r

/-- What every step lowers. A token stands for more than any state that is put on the stack for
it. -/
def Walker.weight (w : Walker) : Nat :=
  8 * w.tokens.length + ranks (w.state :: w.stack)

/-! ## Tokens -/

/-- A token that a walker sees; behind the last token it sees the end of the stream. -/
def Sees (w : Walker) (t : Token) : Prop :=
  t.kind ≠ .streamEnd → 0 < w.tokens.length

/-- A walker that has taken tokens from another. -/
structure Eats (w u : Walker) : Prop where
  state : u.state = w.state
  stack : u.stack = w.stack
  tokens : u.tokens.length ≤ w.tokens.length

theorem Eats.refl (w : Walker) : Eats w w :=
  ⟨rfl, rfl, Nat.le_refl _⟩

theorem Eats.trans {w u v : Walker} (h : Eats w u) (h' : Eats u v) : Eats w v :=
  ⟨h'.state.trans h.state, h'.stack.trans h.stack, Nat.le_trans h'.tokens h.tokens⟩

section Primitives

variable {α : Type} {w : Walker}

theorem meets_peek {Q : Token → Walker → Prop} (h : ∀ t, Sees w t → Q t w) : Meets Q peek w := by
  refine ⟨?_⟩
  intro t u hu
  obtain ⟨source, tokens, fault, state, stack, begun, handles⟩ := w
  cases tokens with
  | cons t r =>
    cases hu
    exact h _ fun _ => Nat.succ_pos _
  | nil =>
    cases fault with
    | some e => cases hu
    | none =>
      cases hu
      exact h _ fun other => absurd rfl other

theorem meets_take {Q : Token → Walker → Prop}
    (h : ∀ t, Q t { w with tokens := w.tokens.drop 1 }) : Meets Q take w :=
  .bind (meets_peek fun t _ => .bind (.of_modify (.of_pure (h t))))

theorem meets_next {Q : Bool → Walker → Prop} {p : Token.Kind → Bool}
    (h : ∀ b, Q b w) : Meets Q (next p) w :=
  .bind (meets_peek fun _ _ => .of_pure (h _))

theorem meets_fail {Q : α → Walker → Prop} {cause : ParseFault} {began : Option Mark}
    {failed : Mark} : Meets Q (fail cause began failed) w :=
  .bind (.of_get .of_throw)

theorem eats_take (w : Walker) : Meets (fun _ u => Eats w u) take w :=
  meets_take fun _ => ⟨rfl, rfl, by simp⟩

theorem eats_skipEnds (steps : Nat) : Meets (fun _ u => Eats w u) (skipEnds steps) w := by
  induction steps generalizing w with
  | zero => exact .of_pure (.refl w)
  | succ steps ih =>
    refine .bind (meets_next fun b => .ite (fun _ => .bind ?_) fun _ => .of_pure (.refl w))
    exact (eats_take w).mono fun _ u h => (ih.mono fun _ _ h' => h.trans h')

theorem eats_directives (steps : Nat) (versioned : Bool) (handles : List (Text × Text)) :
    Meets (fun _ u => Eats w u) (directives steps versioned handles) w := by
  induction steps generalizing w versioned handles with
  | zero => exact .of_pure (.refl w)
  | succ steps ih =>
    refine .bind (meets_peek fun t _ => ?_)
    split
    · refine .bind ((eats_take w).mono fun _ u h => ?_)
      have rest : ∀ versioned handles,
          Meets (fun _ v => Eats w v) (directives steps versioned handles) u :=
        fun versioned handles => (ih versioned handles).mono fun _ _ h' => h.trans h'
      split
      · exact .ite (fun _ => .bind meets_fail) fun _ => .ite (fun _ => .bind meets_fail) fun _ => rest ..
      · exact .ite (fun _ => .bind meets_fail) fun _ => rest ..
      · exact rest ..
    · exact .of_pure (.refl w)

theorem eats_takeAnchor (p : Properties) : Meets (fun _ u => Eats w u) (takeAnchor p) w := by
  refine .bind (meets_peek fun t _ => ?_)
  split
  · exact .bind ((eats_take w).mono fun _ u h => .of_pure h)
  · exact .of_pure (.refl w)

theorem eats_takeTag (p : Properties) : Meets (fun _ u => Eats w u) (takeTag p) w := by
  refine .bind (meets_peek fun t _ => ?_)
  split
  · exact .bind ((eats_take w).mono fun _ u h => .of_pure h)
  · exact .of_pure (.refl w)

theorem eats_properties : Meets (fun _ u => Eats w u) properties w := by
  refine .bind (meets_next fun b => .ite (fun _ => .bind ?_) fun _ => .bind ?_)
  · exact (eats_takeTag _).mono fun p u h => (eats_takeAnchor p).mono fun _ _ h' => h.trans h'
  · refine (eats_takeAnchor _).mono fun p u h => .ite (fun _ => ?_) fun _ => .of_pure h
    exact (eats_takeTag p).mono fun _ _ h' => h.trans h'

theorem eats_fullName (p : Properties) : Meets (fun _ u => Eats w u) (fullName p) w := by
  rw [fullName]
  split
  · exact .of_pure (.refl w)
  · exact .of_pure (.refl w)
  · refine .bind (.of_get ?_)
    split
    · exact .of_pure (.refl w)
    · exact meets_fail

end Primitives

/-! ## Nodes -/

/-- What reading a node comes to above a stack: the node fits what is open there, and the walker
weighs little. -/
structure Entered (stack : List State) (bound : Nat) (e : Event) (u : Walker) : Prop where
  standing : u.Standing
  weight : u.weight ≤ bound
  move : ∀ slot filled rest, under stack = filled :: rest → slot.filled? = some filled →
    e.kind.move (slot :: rest) = some u.slots

/-- A walker above a collection, or at the end of the document, stands. -/
theorem standing_part {w : Walker} (part : w.state.isPart = true) (inside : Inside w.stack)
    (takes : w.state.takes = true → 0 < w.tokens.length) :
    w.Standing ∧ w.slots = under (w.state :: w.stack) := by
  obtain ⟨source, tokens, fault, state, stack, begun, handles⟩ := w
  have nested : state.Over stack := by
    cases state <;> first | exact inside | cases part
  refine ⟨⟨nested, takes⟩, ?_⟩
  cases state <;> first | rfl | cases part

/-- Leaving a node. -/
theorem standing_leave {w : Walker} (inside : Inside w.stack) :
    let u := { w with state := w.stack.headD .finished, stack := w.stack.drop 1 }
    u.Standing ∧ u.slots = under w.stack ∧ u.weight = 8 * w.tokens.length + ranks w.stack := by
  obtain ⟨source, tokens, fault, state, stack, begun, handles⟩ := w
  cases inside with
  | document => exact ⟨⟨rfl, fun never => nomatch never⟩, rfl, rfl⟩
  | @part state stack part waits inside =>
    obtain ⟨standing, slots⟩ :=
      standing_part (w := ⟨source, tokens, fault, state, stack, begun, handles⟩) part inside
        fun takes => by rw [show state.takes = false from waits] at takes; cases takes
    exact ⟨standing, slots, rfl⟩

/-- Whether an event is a node without children. -/
def IsLeaf (k : Event.Kind) : Prop :=
  ∀ slot rest, k.move (slot :: rest) = slot.filled?.map (· :: rest)

theorem entered_leave {w u : Walker} (h : Eats w u) (inside : Inside w.stack) {k : Event.Kind}
    (leaf : IsLeaf k) (start stop : Mark) :
    Meets (Entered w.stack (8 * w.tokens.length + 1 + ranks w.stack))
      (do leave; return ⟨k, start, stop⟩) u := by
  refine .bind (.of_modify (.of_pure ?_))
  rw [← h.stack] at inside ⊢
  obtain ⟨standing, slots, weight⟩ := standing_leave inside
  have fewer := h.tokens
  refine ⟨standing, by omega, ?_⟩
  intro slot filled rest cut same
  rw [slots, cut, leaf, same]
  rfl

theorem entered_goto {w u : Walker} (h : Eats w u) (some_ : 0 < u.tokens.length)
    (inside : Inside w.stack) {state : State} (part : state.isPart = true) (rank : state.rank = 1)
    {slot : Slot} (slots : state.slots = [slot]) {k : Event.Kind}
    (opens : ∀ s rest, k.move (s :: rest) = s.filled?.map (slot :: · :: rest)) (start stop : Mark) :
    Meets (Entered w.stack (8 * w.tokens.length + 1 + ranks w.stack))
      (do goto state; return ⟨k, start, stop⟩) u := by
  refine .bind (.of_modify (.of_pure ?_))
  rw [← h.stack] at inside ⊢
  obtain ⟨standing, open_⟩ := standing_part (w := { u with state }) part inside fun _ => some_
  have fewer := h.tokens
  refine ⟨standing, ?_, ?_⟩
  · show 8 * u.tokens.length + (state.rank + ranks u.stack) ≤ _
    omega
  · intro s filled rest cut same
    rw [open_, opens, same]
    show some (slot :: filled :: rest) = some (state.slots ++ under u.stack)
    rw [slots, cut]
    rfl

theorem entered_content {w u : Walker} (h : Eats w u) (inside : Inside w.stack) (block : Bool)
    (p : Properties) (name : Option Text) (t : Token) (start stop : Mark) :
    Meets (Entered w.stack (8 * w.tokens.length + 1 + ranks w.stack))
      (node.content block p name t start stop) u :=
  .ite (fun _ => entered_leave h inside (fun _ _ => rfl) ..) fun _ => meets_fail

/-- Reading a node. -/
theorem entered_node {w : Walker} (inside : Inside w.stack) (block bare : Bool) :
    Meets (Entered w.stack (8 * w.tokens.length + 1 + ranks w.stack)) (node block bare) w := by
  refine .bind (meets_peek fun t _ => ?_)
  split
  · exact .bind ((eats_take w).mono fun _ u h => entered_leave h inside (fun _ _ => rfl) ..)
  · refine .bind (eats_properties.mono fun p u h => .bind ((eats_fullName p).mono fun name v h' => ?_))
    have h := h.trans h'
    refine .bind (meets_peek fun t sees => ?_)
    dsimp only
    have opens : ∀ {k : Token.Kind}, t.kind = k → k ≠ .streamEnd → 0 < v.tokens.length := by
      intro k kind other
      exact sees (kind ▸ other)
    split
    · next kind =>
      refine .ite (fun _ => ?_) fun _ => entered_content h inside ..
      exact entered_goto h (opens kind nofun) inside rfl rfl rfl (fun _ _ => rfl) ..
    · refine .bind ((eats_take v).mono fun _ x h' => ?_)
      exact entered_leave (h.trans h') inside (fun _ _ => rfl) ..
    · next kind => exact entered_goto h (opens kind nofun) inside rfl rfl rfl (fun _ _ => rfl) ..
    · next kind => exact entered_goto h (opens kind nofun) inside rfl rfl rfl (fun _ _ => rfl) ..
    · next kind =>
      refine .ite (fun _ => ?_) fun _ => entered_content h inside ..
      exact entered_goto h (opens kind nofun) inside rfl rfl rfl (fun _ _ => rfl) ..
    · next kind =>
      refine .ite (fun _ => ?_) fun _ => entered_content h inside ..
      exact entered_goto h (opens kind nofun) inside rfl rfl rfl (fun _ _ => rfl) ..
    · exact entered_content h inside ..

/-- Reading a node that may be left out, followed by a state. -/
theorem entered_nodeOrEmpty {w : Walker} (inside : Inside w.stack) {after : State}
    (part : after.isPart = true) (waits : after.takes = false) (ends : Token.Kind → Bool)
    (bare block : Bool) (m : Mark) :
    Meets (Entered (after :: w.stack) (8 * w.tokens.length + 1 + ranks (after :: w.stack)))
      (nodeOrEmpty ends bare block after m) w := by
  have below : Inside (after :: w.stack) := .part part waits inside
  refine .bind (meets_peek fun t _ => .ite (fun _ => ?_) fun _ => ?_)
  · refine .bind (.of_modify (.of_pure ?_))
    obtain ⟨standing, slots⟩ := standing_part (w := { w with state := after }) part inside
      fun takes => by rw [show after.takes = false from waits] at takes; cases takes
    refine ⟨standing, ?_, ?_⟩
    · show 8 * w.tokens.length + ranks (after :: w.stack) ≤ _
      omega
    · intro slot filled rest cut same
      rw [slots]
      show slot.filled?.map (· :: rest) = some (under (after :: w.stack))
      rw [same, cut]
      rfl
  · exact .bind (.of_modify (entered_node (w := { w with stack := after :: w.stack }) below ..))

/-! ## One step -/

/-- What a step comes to: its event fits what was open, and the walker weighs less than a bound. -/
structure Turns (slots : List Slot) (bound : Nat) (e : Event) (u : Walker) : Prop where
  standing : u.Standing
  weight : u.weight < bound
  move : e.kind.move slots = some u.slots

theorem Entered.turns {stack : List State} {low bound : Nat} {e : Event} {u : Walker}
    (h : Entered stack low e u) {slot filled : Slot} {rest : List Slot}
    (cut : under stack = filled :: rest) (same : slot.filled? = some filled) (less : low < bound) :
    Turns (slot :: rest) bound e u :=
  ⟨h.standing, Nat.lt_of_le_of_lt h.weight less, h.move slot filled rest cut same⟩

/-- Going to a state with an event that is no collection's start. -/
theorem turns_goto {w : Walker} (state : State) (part : state.isPart = true)
    (inside : Inside w.stack) (takes : state.takes = true → 0 < w.tokens.length)
    {slots : List Slot} {bound : Nat} {k : Event.Kind}
    (move : k.move slots = some (under (state :: w.stack)))
    (less : 8 * w.tokens.length + ranks (state :: w.stack) < bound) (start stop : Mark) :
    Meets (Turns slots bound) (do goto state; return ⟨k, start, stop⟩) w := by
  refine .bind (.of_modify (.of_pure ?_))
  obtain ⟨standing, now⟩ := standing_part (w := { w with state }) part inside takes
  exact ⟨standing, less, move.trans (congrArg some now.symm)⟩

/-- The end of a collection. -/
theorem turns_leave {w : Walker} (inside : Inside w.stack) {slots : List Slot} {bound : Nat}
    {k : Event.Kind} (move : k.move slots = some (under w.stack))
    (less : 8 * w.tokens.length + ranks w.stack < bound) (start stop : Mark) :
    Meets (Turns slots bound) (do leave; return ⟨k, start, stop⟩) w := by
  refine .bind (.of_modify (.of_pure ?_))
  obtain ⟨standing, now, weight⟩ := standing_leave inside
  exact ⟨standing, by omega, move.trans (congrArg some now.symm)⟩

theorem turns_leaveCollection {w : Walker} (inside : Inside w.stack) {slots : List Slot}
    {bound : Nat} {k : Event.Kind} (move : k.move slots = some (under w.stack))
    (less : 8 * w.tokens.length + ranks w.stack < bound) (start stop : Mark) :
    Meets (Turns slots bound) (do leaveCollection; return ⟨k, start, stop⟩) w := by
  refine .bind (.bind (.of_modify (.of_modify (.of_pure ?_))))
  obtain ⟨standing, now, weight⟩ := standing_leave (w := { w with begun := w.begun.drop 1 }) inside
  exact ⟨standing, weight ▸ less, move.trans (congrArg some now.symm)⟩

theorem turns_blockNode {w : Walker} (bottom : w.stack = [.documentEnd]) :
    Meets (Turns [.document false] (8 * w.tokens.length + 3 + ranks w.stack)) (node true false) w := by
  have inside : Inside w.stack := bottom ▸ .document
  refine (entered_node inside true false).mono ?_
  intro e u entered
  rw [bottom] at entered ⊢
  exact entered.turns rfl rfl (by omega)

theorem turns_documentContent {w : Walker} (bottom : w.stack = [.documentEnd]) :
    Meets (Turns [.document false] (8 * w.tokens.length + 3 + ranks w.stack)) documentContent w := by
  have inside : Inside w.stack := bottom ▸ .document
  have left : ∀ m : Mark, Meets (Turns [.document false] (8 * w.tokens.length + 3 + ranks w.stack))
      (do leave; return empty m) w := by
    intro m
    refine turns_leave inside ?_ (by omega) ..
    rw [bottom]
    rfl
  refine .bind (meets_peek fun t _ => ?_)
  split
  · exact left _
  · exact left _
  · exact left _
  · exact left _
  · exact turns_blockNode bottom

theorem turns_documentEnd {w : Walker} (bottom : w.stack = []) :
    Meets (Turns [.document true] (8 * w.tokens.length + 2)) documentEnd w := by
  have ended : ∀ tokens : List Token, tokens.length ≤ w.tokens.length → ∀ start stop : Mark,
      Turns [.document true] (8 * w.tokens.length + 2) ⟨.documentEnd, start, stop⟩
        { w with tokens, state := .nextDocument } := by
    intro tokens fewer start stop
    refine ⟨⟨bottom, fun never => nomatch never⟩, ?_, ?_⟩
    · show 8 * tokens.length + (1 + ranks w.stack) < _
      rw [bottom, ranks]
      omega
    · show some [] = some (under (.nextDocument :: w.stack))
      rw [bottom]
      rfl
  refine .bind (meets_peek fun t _ => .bind (.of_modify (.ite (fun _ => ?_) fun _ => .of_pure ?_)))
  · exact .bind (meets_take fun t => .of_pure (ended (w.tokens.drop 1) (by simp) ..))
  · exact ended w.tokens (Nat.le_refl _) ..

/-- The end of the stream, or the start of a document with a mark. -/
theorem turns_nextDocument {w : Walker} (bottom : w.stack = []) :
    Meets (Turns [] (8 * w.tokens.length + 1)) nextDocument w := by
  refine .bind (.of_get (.bind ((eats_skipEnds _).mono fun _ u h => ?_)))
  refine .bind (meets_peek fun t _ => .ite (fun _ => ?_) fun _ => ?_)
  · refine .bind ((eats_take u).mono fun _ v h' => .bind (.of_modify (.of_pure ?_)))
    have h := h.trans h'
    have stack : v.stack = [] := h.stack.trans bottom
    refine ⟨⟨stack, fun never => nomatch never⟩, ?_, ?_⟩
    · show 8 * v.tokens.length + (0 + ranks v.stack) < _
      have fewer := h.tokens
      rw [stack, ranks]
      omega
    · show some [] = some (under (.finished :: v.stack))
      rw [stack]
      rfl
  · refine .bind (.of_get (.bind ((eats_directives _ _ _).mono fun handles v h' => ?_)))
    have h := h.trans h'
    have stack : v.stack = [] := h.stack.trans bottom
    refine .bind (meets_peek fun mark sees => ?_)
    refine .ite (fun _ => .bind meets_fail) fun kind => ?_
    have kind : mark.kind = .documentStart := by simpa using kind
    have some_ := sees (by rw [kind]; nofun)
    refine .bind (meets_take fun t => ?_)
    refine .bind (.of_modify (.bind (.of_modify (.bind (.of_modify (.of_pure ⟨⟨?_, ?_⟩, ?_, rfl⟩))))))
    · show State.documentEnd :: v.stack = [.documentEnd]
      rw [stack]
    · intro never
      cases never
    · show 8 * (v.tokens.drop 1).length + (3 + (2 + ranks v.stack)) < _
      have fewer := h.tokens
      rw [stack, ranks, List.length_drop]
      omega

/-- The start of the stream's first document, or its end. -/
theorem turns_firstDocument {w : Walker} (bottom : w.stack = []) :
    Meets (Turns [] (8 * w.tokens.length + 6)) firstDocument w := by
  refine .bind (meets_peek fun t _ => .ite (fun _ => ?_) fun _ => ?_)
  · refine (turns_nextDocument bottom).mono ?_
    intro e u turns
    exact ⟨turns.standing, Nat.lt_of_lt_of_le turns.weight (by omega), turns.move⟩
  · refine .bind (.of_modify (.bind (.of_modify (.bind (.of_modify (.of_pure ⟨⟨?_, ?_⟩, ?_, rfl⟩))))))
    · show State.documentEnd :: w.stack = [.documentEnd]
      rw [bottom]
    · intro never
      cases never
    · show 8 * w.tokens.length + (3 + (2 + ranks w.stack)) < _
      rw [bottom, ranks]
      omega

/-! ### Collections

A part of a collection starts with a token of its own, which pays for the state that is put on the
stack and for the one that the node leads to. -/

theorem turns_part {w : Walker} (inside : Inside w.stack) (some_ : 0 < w.tokens.length)
    (after : State) (part : after.isPart = true) (waits : after.takes = false)
    {slot filled : Slot} {rest : List Slot} (slots : after.slots = filled :: rest)
    (same : slot.filled? = some filled) (ends : Token.Kind → Bool) (bare block : Bool)
    (m : Token → Mark) :
    Meets (Turns (slot :: rest ++ under w.stack) (8 * w.tokens.length + ranks w.stack))
      (do nodeOrEmpty ends bare block after (m (← take))) w := by
  refine .bind (meets_take fun t => ?_)
  have light : after.rank ≤ 3 := by cases after <;> first | decide | cases part
  refine (entered_nodeOrEmpty (w := { w with tokens := w.tokens.drop 1 }) inside part waits ends bare
    block (m t)).mono ?_
  intro e u entered
  refine entered.turns ?_ same ?_
  · show after.slots ++ under w.stack = _
    rw [slots]
    rfl
  · show 8 * (w.tokens.drop 1).length + 1 + (after.rank + ranks w.stack) < _
    rw [List.length_drop]
    omega

/-- A collection ends with a token. -/
theorem turns_end {w : Walker} (inside : Inside w.stack) (some_ : 0 < w.tokens.length)
    {slots : List Slot} {k : Event.Kind} (move : k.move slots = some (under w.stack))
    (start stop : Token → Mark) :
    Meets (Turns slots (8 * w.tokens.length + ranks w.stack))
      (do let t ← take; leaveCollection; return ⟨k, start t, stop t⟩) w := by
  refine .bind (meets_take fun t => ?_)
  refine turns_leaveCollection (w := { w with tokens := w.tokens.drop 1 }) inside move ?_ ..
  show 8 * (w.tokens.drop 1).length + ranks w.stack < _
  rw [List.length_drop]
  omega

theorem Turns.weaken {slots : List Slot} {low bound : Nat} {x : Step Event} {w : Walker}
    (h : Meets (Turns slots low) x w) (less : low ≤ bound) : Meets (Turns slots bound) x w :=
  h.mono fun _ _ turns => ⟨turns.standing, Nat.lt_of_lt_of_le turns.weight less, turns.move⟩

theorem turns_blockSequenceEntry {w : Walker} (inside : Inside w.stack) :
    Meets (Turns (.sequence :: under w.stack) (8 * w.tokens.length + 1 + ranks w.stack))
      blockSequenceEntry w := by
  refine .bind (meets_peek fun t sees => ?_)
  split
  · next kind =>
    have some_ := sees (by rw [kind]; nofun)
    exact Turns.weaken (turns_part inside some_ .blockSequenceEntry rfl rfl rfl rfl ..) (by omega)
  · next kind =>
    have some_ := sees (by rw [kind]; nofun)
    exact Turns.weaken (turns_end (k := .sequenceEnd) inside some_ rfl ..) (by omega)
  · exact .bind (.bind (.of_get (.of_pure meets_fail)))

theorem turns_bareSequenceEntry {w : Walker} (inside : Inside w.stack) :
    Meets (Turns (.sequence :: under w.stack) (8 * w.tokens.length + 1 + ranks w.stack))
      bareSequenceEntry w := by
  refine .bind (meets_peek fun t sees => ?_)
  split
  · next kind =>
    have some_ := sees (by rw [kind]; nofun)
    exact Turns.weaken (turns_part inside some_ .bareSequenceEntry rfl rfl rfl rfl ..) (by omega)
  · exact turns_leave inside rfl (by omega) ..

theorem turns_blockMappingKey {w : Walker} (inside : Inside w.stack) :
    Meets (Turns (.mapping false :: under w.stack) (8 * w.tokens.length + 1 + ranks w.stack))
      blockMappingKey w := by
  refine .bind (meets_peek fun t sees => ?_)
  split
  · next kind =>
    have some_ := sees (by rw [kind]; nofun)
    exact Turns.weaken (turns_part inside some_ .blockMappingValue rfl rfl rfl rfl ..) (by omega)
  · next kind =>
    have some_ := sees (by rw [kind]; nofun)
    exact Turns.weaken (turns_end (k := .mappingEnd) inside some_ rfl ..) (by omega)
  · exact .bind (.bind (.of_get (.of_pure meets_fail)))

theorem turns_blockMappingValue {w : Walker} (inside : Inside w.stack) :
    Meets (Turns (.mapping true :: under w.stack) (8 * w.tokens.length + 2 + ranks w.stack))
      blockMappingValue w := by
  refine .bind (meets_peek fun t sees => ?_)
  split
  · next kind =>
    have some_ := sees (by rw [kind]; nofun)
    exact Turns.weaken (turns_part inside some_ .blockMappingKey rfl rfl rfl rfl ..) (by omega)
  · refine turns_goto .blockMappingKey rfl inside nofun rfl ?_ ..
    show 8 * w.tokens.length + (1 + ranks w.stack) < _
    omega

/-- A comma is taken between entries, and none before the first one. -/
theorem eats_takeComma {w : Walker} (first : Bool) (cause : Token.Kind → ParseFault) :
    Meets (fun _ u => Eats w u ∧ (first = false → u.tokens.length < w.tokens.length))
      (takeComma first cause) w := by
  refine .ite (fun start => .of_pure ⟨.refl w, fun later => ?_⟩) fun _ => ?_
  · rw [start] at later
    cases later
  · refine .bind (meets_peek fun t sees => ?_)
    split
    · next kind =>
      have some_ := sees (by rw [kind]; nofun)
      refine .bind (meets_take fun t => .of_pure ⟨⟨rfl, rfl, by simp⟩, fun _ => ?_⟩)
      show (w.tokens.drop 1).length < w.tokens.length
      rw [List.length_drop]
      omega
    · exact .bind (.bind (.of_get (.of_pure meets_fail)))

theorem turns_flowEnd {w : Walker} (inside : Inside w.stack) {slots : List Slot} {k : Event.Kind}
    (move : k.move slots = some (under w.stack)) :
    Meets (Turns slots (8 * w.tokens.length + 1 + ranks w.stack)) (flowEnd k) w := by
  refine .bind (meets_take fun t => ?_)
  refine turns_leaveCollection (w := { w with tokens := w.tokens.drop 1 }) inside move ?_ ..
  show 8 * (w.tokens.drop 1).length + ranks w.stack < _
  rw [List.length_drop]
  omega

/-- A node inside of a flow collection, before which a comma was taken. -/
theorem turns_flowNode {w : Walker} (inside : Inside w.stack) (after : State)
    (part : after.isPart = true) (waits : after.takes = false) {slot filled : Slot}
    {rest : List Slot} (slots : after.slots = filled :: rest) (same : slot.filled? = some filled) :
    Meets (Turns (slot :: rest ++ under w.stack) (8 * w.tokens.length + 5 + ranks w.stack))
      (do thenTo after; node false false) w := by
  have light : after.rank ≤ 3 := by cases after <;> first | decide | cases part
  refine .bind (.of_modify ?_)
  refine (entered_node (w := { w with stack := after :: w.stack }) (.part part waits inside) ..).mono ?_
  intro e u entered
  refine entered.turns ?_ same ?_
  · show after.slots ++ under w.stack = _
    rw [slots]
    rfl
  · show 8 * w.tokens.length + 1 + (after.rank + ranks w.stack) < _
    omega

/-- What comes behind the comma between two entries. -/
theorem turns_afterComma {w : Walker} {slots : List Slot} (first : Bool)
    (cause : Token.Kind → ParseFault) {x : Step Event}
    (next : ∀ u, Eats w u → Meets (Turns slots (8 * u.tokens.length + 5 + ranks w.stack)) x u) :
    Meets (Turns slots (8 * w.tokens.length + (if first then 9 else 1) + ranks w.stack))
      (do takeComma first cause; x) w := by
  refine .bind ((eats_takeComma ..).mono ?_)
  rintro _ u ⟨eats, comma⟩
  refine Turns.weaken (next u eats) ?_
  have fewer := eats.tokens
  cases first with
  | true =>
    rw [if_pos rfl]
    omega
  | false =>
    have fewer := comma rfl
    rw [if_neg Bool.false_ne_true]
    omega

theorem turns_flowSequenceEntry {w : Walker} (inside : Inside w.stack) (first : Bool) :
    Meets (Turns (.sequence :: under w.stack)
      (8 * w.tokens.length + (if first then 9 else 1) + ranks w.stack)) (flowSequenceEntry first) w := by
  refine .bind (meets_next fun b => .ite (fun _ => ?_) fun _ => turns_afterComma _ _ ?_)
  · exact Turns.weaken (turns_flowEnd (k := .sequenceEnd) inside rfl) (by split <;> omega)
  · intro u eats
    rw [← eats.stack] at inside ⊢
    refine .bind (meets_peek fun t sees => ?_)
    split
    · next kind =>
      have some_ := sees (by rw [kind]; nofun)
      refine turns_goto .pairKey rfl inside (fun _ => some_) rfl ?_ ..
      show 8 * u.tokens.length + (1 + ranks u.stack) < _
      omega
    · exact Turns.weaken (turns_flowEnd (k := .sequenceEnd) inside rfl) (by omega)
    · exact turns_flowNode inside .flowSequenceEntry rfl rfl rfl rfl

theorem turns_pairKey {w : Walker} (inside : Inside w.stack) (some_ : 0 < w.tokens.length) :
    Meets (Turns (.mapping false :: .sequence :: under w.stack)
      (8 * w.tokens.length + 1 + ranks w.stack)) pairKey w :=
  Turns.weaken (turns_part inside some_ .pairValue rfl rfl rfl rfl ..) (by omega)

theorem turns_pairValue {w : Walker} (inside : Inside w.stack) :
    Meets (Turns (.mapping true :: .sequence :: under w.stack)
      (8 * w.tokens.length + 3 + ranks w.stack)) pairValue w := by
  refine .bind (meets_peek fun t sees => ?_)
  split
  · next kind =>
    have some_ := sees (by rw [kind]; nofun)
    exact Turns.weaken (turns_part inside some_ .pairEnd rfl rfl rfl rfl ..) (by omega)
  · refine turns_goto .pairEnd rfl inside nofun rfl ?_ ..
    show 8 * w.tokens.length + (2 + ranks w.stack) < _
    omega

theorem turns_pairEnd {w : Walker} (inside : Inside w.stack) :
    Meets (Turns (.mapping false :: .sequence :: under w.stack)
      (8 * w.tokens.length + 2 + ranks w.stack)) pairEnd w := by
  refine .bind (meets_peek fun t sees => ?_)
  refine turns_goto .flowSequenceEntry rfl inside nofun rfl ?_ ..
  show 8 * w.tokens.length + (1 + ranks w.stack) < _
  omega

theorem turns_flowMappingKey {w : Walker} (inside : Inside w.stack) (first : Bool) :
    Meets (Turns (.mapping false :: under w.stack)
      (8 * w.tokens.length + (if first then 9 else 1) + ranks w.stack)) (flowMappingKey first) w := by
  refine .bind (meets_next fun b => .ite (fun _ => ?_) fun _ => turns_afterComma _ _ ?_)
  · exact Turns.weaken (turns_flowEnd (k := .mappingEnd) inside rfl) (by split <;> omega)
  · intro u eats
    rw [← eats.stack] at inside ⊢
    refine .bind (meets_peek fun t sees => ?_)
    split
    · next kind =>
      have some_ := sees (by rw [kind]; nofun)
      exact Turns.weaken (turns_part inside some_ .flowMappingValue rfl rfl rfl rfl ..) (by omega)
    · exact Turns.weaken (turns_flowEnd (k := .mappingEnd) inside rfl) (by omega)
    · exact turns_flowNode inside .flowMappingNoValue rfl rfl rfl rfl

theorem turns_flowMappingValue {w : Walker} (inside : Inside w.stack) :
    Meets (Turns (.mapping true :: under w.stack) (8 * w.tokens.length + 2 + ranks w.stack))
      flowMappingValue w := by
  refine .bind (meets_peek fun t sees => ?_)
  split
  · next kind =>
    have some_ := sees (by rw [kind]; nofun)
    exact Turns.weaken (turns_part inside some_ .flowMappingKey rfl rfl rfl rfl ..) (by omega)
  · refine turns_goto .flowMappingKey rfl inside nofun rfl ?_ ..
    show 8 * w.tokens.length + (1 + ranks w.stack) < _
    omega

/-! ### Any state -/

/-- The first part of a collection, which may use what the token stood for that opens it. -/
theorem turns_opening {w : Walker} (inside : Inside w.stack) (some_ : 0 < w.tokens.length)
    {slots : List Slot} {x : Step Event}
    (next : ∀ u : Walker, Inside u.stack →
      Meets (Turns (slots ++ under u.stack) (8 * u.tokens.length + 9 + ranks u.stack)) x u) :
    Meets (Turns (slots ++ under w.stack) (8 * w.tokens.length + 1 + ranks w.stack))
      (do opening; x) w := by
  refine .bind (.bind (meets_take fun t => .of_modify ?_))
  refine Turns.weaken (next { w with tokens := w.tokens.drop 1, begun := t.start :: w.begun } inside) ?_
  show 8 * (w.tokens.drop 1).length + 9 + ranks w.stack ≤ _
  rw [List.length_drop]
  omega

/-- A step: its event fits what is open, and the walker weighs less behind it. -/
theorem turns_step {w : Walker} (h : w.Standing) (more : w.state ≠ .finished) :
    Meets (Turns w.slots w.weight) step w := by
  obtain ⟨source, tokens, fault, state, stack, begun, handles⟩ := w
  have nested : state.Over stack := h.nested
  have takes : state.takes = true → 0 < tokens.length := h.takes
  let here : State → Walker := fun state => ⟨source, tokens, fault, state, stack, begun, handles⟩
  have same : ∀ n, 8 * tokens.length + n + ranks stack ≤ 8 * tokens.length + (n + ranks stack) :=
    fun n => Nat.le_of_eq (Nat.add_assoc ..)
  refine .bind (.of_get ?_)
  cases state with
  | stream =>
    have bottom : stack = [] := nested
    subst bottom
    refine .bind (meets_take fun t => .bind (.of_modify (.of_pure ⟨⟨rfl, nofun⟩, ?_, rfl⟩)))
    show 8 * (tokens.drop 1).length + 6 < 8 * tokens.length + 7
    rw [List.length_drop]
    omega
  | firstDocument =>
    have bottom : stack = [] := nested
    subst bottom
    exact turns_firstDocument (w := ⟨source, tokens, fault, .firstDocument, [], begun, handles⟩) rfl
  | nextDocument =>
    have bottom : stack = [] := nested
    subst bottom
    exact turns_nextDocument (w := ⟨source, tokens, fault, .nextDocument, [], begun, handles⟩) rfl
  | documentEnd =>
    have bottom : stack = [] := nested
    subst bottom
    exact turns_documentEnd (w := ⟨source, tokens, fault, .documentEnd, [], begun, handles⟩) rfl
  | documentContent => exact Turns.weaken (turns_documentContent nested) (same 3)
  | blockNode => exact Turns.weaken (turns_blockNode nested) (same 3)
  | blockSequenceFirst =>
    refine Turns.weaken (turns_opening (w := here .blockSequenceFirst) nested (takes rfl) ?_) (same 1)
    intro u inside
    exact Turns.weaken (turns_blockSequenceEntry inside) (by omega)
  | blockSequenceEntry => exact Turns.weaken (turns_blockSequenceEntry nested) (same 1)
  | bareSequenceEntry => exact Turns.weaken (turns_bareSequenceEntry nested) (same 1)
  | blockMappingFirst =>
    refine Turns.weaken (turns_opening (w := here .blockMappingFirst) nested (takes rfl) ?_) (same 1)
    intro u inside
    exact Turns.weaken (turns_blockMappingKey inside) (by omega)
  | blockMappingKey => exact Turns.weaken (turns_blockMappingKey nested) (same 1)
  | blockMappingValue => exact Turns.weaken (turns_blockMappingValue nested) (same 2)
  | flowSequenceFirst =>
    refine Turns.weaken (turns_opening (w := here .flowSequenceFirst) nested (takes rfl) ?_) (same 1)
    intro u inside
    exact turns_flowSequenceEntry inside true
  | flowSequenceEntry => exact Turns.weaken (turns_flowSequenceEntry (w := here .flowSequenceEntry) nested false) (same 1)
  | pairKey => exact Turns.weaken (turns_pairKey nested (takes rfl)) (same 1)
  | pairValue => exact Turns.weaken (turns_pairValue nested) (same 3)
  | pairEnd => exact Turns.weaken (turns_pairEnd nested) (same 2)
  | flowMappingFirst =>
    refine Turns.weaken (turns_opening (w := here .flowMappingFirst) nested (takes rfl) ?_) (same 1)
    intro u inside
    exact turns_flowMappingKey inside true
  | flowMappingKey => exact Turns.weaken (turns_flowMappingKey (w := here .flowMappingKey) nested false) (same 1)
  | flowMappingValue => exact Turns.weaken (turns_flowMappingValue nested) (same 2)
  | flowMappingNoValue =>
    refine .bind (.of_modify (.bind (meets_peek fun t _ => .of_pure ?_)))
    obtain ⟨standing, slots⟩ :=
      standing_part (w := ⟨source, tokens, fault, .flowMappingKey, stack, begun, handles⟩) rfl nested
        nofun
    refine ⟨standing, ?_, congrArg some slots.symm⟩
    show 8 * tokens.length + (1 + ranks stack) < 8 * tokens.length + (2 + ranks stack)
    omega
  | finished => exact absurd rfl more

/-! ## The whole walk -/

/-- A run without a fault takes its first step without one. -/
theorem events_succ {steps : Nat} {w : Walker} (running : w.state ≠ .finished)
    (sound : (events (steps + 1) w).fault = none) :
    ∃ e u, step.run w = .ok (e, u) ∧ (events (steps + 1) w).items = e :: (events steps u).items ∧
      (events steps u).fault = none := by
  rw [events] at sound ⊢
  split at sound
  · next ends => exact absurd ends running
  · cases hs : step.run w with
    | error e =>
      rw [hs] at sound
      cases sound
    | ok p =>
      rw [hs] at sound
      exact ⟨p.1, p.2, rfl, rfl, sound⟩

/-- A walker that has finished: nothing is open, and there are no more events. -/
theorem moves_finished {w : Walker} (h : w.Standing) (ends : w.state = .finished) (steps : Nat) :
    Event.moves w.slots (events steps w).items = some [] := by
  obtain ⟨source, tokens, fault, state, stack, begun, handles⟩ := w
  subst ends
  have bottom : stack = [] := h.nested
  subst bottom
  cases steps <;> rfl

/-- A walk with steps enough ends where nothing is open, if it ends without a fault. -/
theorem moves_events (steps : Nat) {w : Walker} (h : w.Standing) (enough : w.weight ≤ steps)
    (whole : (events steps w).fault = none) :
    Event.moves w.slots (events steps w).items = some [] := by
  induction steps generalizing w with
  | zero =>
    refine moves_finished h ?_ 0
    obtain ⟨source, tokens, fault, state, stack, begun, handles⟩ := w
    have rank : state.rank = 0 := by
      have light : 8 * tokens.length + (state.rank + ranks stack) ≤ 0 := enough
      omega
    cases state <;> first | rfl | cases rank
  | succ steps ih =>
    by_cases ends : w.state = .finished
    · exact moves_finished h ends _
    · obtain ⟨e, u, run, items, rest⟩ := events_succ ends whole
      have turns := (turns_step h ends).run e u run
      have lighter := turns.weight
      rw [items, Event.moves, List.foldlM_cons, turns.move]
      exact ih turns.standing (by omega) rest

end Walk

/-- The events of a text are nested, if they end without a fault. -/
theorem EventFeed.moves_ofText {s : Text} (whole : (EventFeed.ofText s).fault = none) :
    Event.moves [] (EventFeed.ofText s).items = some [] := by
  let w : Walk.Walker :=
    { source := s, tokens := (TokenFeed.ofText s).items, fault := (TokenFeed.ofText s).fault }
  refine Walk.moves_events (w := w) _ ⟨rfl, nofun⟩ ?_ whole
  show 8 * (TokenFeed.ofText s).items.length + 7 ≤ 8 * (TokenFeed.ofText s).items.length + 16
  omega

end YamlEdit
