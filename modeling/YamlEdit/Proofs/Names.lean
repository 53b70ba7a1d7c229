import YamlEdit.Proofs.Agreement
import YamlEdit.Proofs.Token.Start
import YamlEdit.Tree.Compose

/-!
# Anchors are names

The anchor of a node is a text of letters, digits, dashes and underscores, whatever text the node
is in. It is read as one; a walker gives an event the anchor that it took from a token, and takes
tokens only from the front; and a node gets the anchor of its event and keeps it.
-/

namespace YamlEdit

/-- An event without an anchor, or with a name for one. -/
def Event.IsNamed (e : Event) : Prop :=
  ∀ name ∈ e.kind.anchor?, Scan.IsName name

namespace Walk

open Scan.Scanner (Named IsNamed)

/-- From tokens whose anchors are names, a step answers with a property and leaves such tokens. -/
structure Reads {α : Type} (P : α → Prop) (x : Step α) : Prop where
  run : ∀ w, Named w.tokens → Meets (fun a u => P a ∧ Named u.tokens) x w

/-- A step that is not asked for its answer. -/
abbrev Passes {α : Type} (x : Step α) : Prop :=
  Reads (fun _ => True) x

/-- A step to an event whose anchor is a name. -/
abbrev Names (x : Step Event) : Prop :=
  Reads Event.IsNamed x

namespace Reads

variable {α β : Type} {P : α → Prop}

theorem of_pure {a : α} (h : P a) : Reads P (pure a) :=
  ⟨fun _ named => .of_pure ⟨h, named⟩⟩

theorem bind {Q : β → Prop} {x : Step β} {f : β → Step α} (first : Reads Q x)
    (next : ∀ b, Q b → Reads P (f b)) : Reads P (x >>= f) :=
  ⟨fun w named => .bind ((first.run w named).mono fun b u h => (next b h.1).run u h.2)⟩

theorem andThen {Q : β → Prop} {x : Step β} {f : β → Step α} (first : Reads Q x)
    (next : ∀ b, Reads P (f b)) : Reads P (x >>= f) :=
  first.bind fun b _ => next b

theorem ite {c : Prop} [Decidable c] {x y : Step α} (left : Reads P x) (right : Reads P y) :
    Reads P (if c then x else y) :=
  ⟨fun w named => .ite (fun _ => left.run w named) fun _ => right.run w named⟩

theorem of_modify {f : Walker → Walker} (same : ∀ w, (f w).tokens = w.tokens) :
    Passes (modify f) :=
  ⟨fun w named => .of_modify ⟨trivial, same w ▸ named⟩⟩

theorem of_get : Passes (get : Step Walker) :=
  ⟨fun _ named => .of_get ⟨trivial, named⟩⟩

theorem fail (cause : ParseFault) (began : Option Mark) (failed : Mark) :
    Reads P (Walk.fail cause began failed) :=
  of_get.andThen fun _ => ⟨fun _ _ => .of_throw⟩

/-- A fault, whatever would have come behind it. -/
theorem refuse (cause : ParseFault) (began : Option Mark) (failed : Mark) (f : β → Step α) :
    Reads P (Walk.fail cause began failed >>= f) :=
  (fail (P := fun _ => False) cause began failed).bind fun _ never => never.elim

end Reads

open Reads (of_pure of_modify of_get)

theorem named_peek : Reads (fun t => IsNamed t.kind) peek := by
  refine ⟨fun w named => ⟨fun t u hu => ?_⟩⟩
  obtain ⟨source, tokens, fault, state, stack, begun, handles⟩ := w
  cases tokens with
  | cons t r =>
    cases hu
    exact ⟨named t List.mem_cons_self, named⟩
  | nil =>
    cases fault with
    | some e => cases hu
    | none =>
      cases hu
      exact ⟨nofun, named⟩

theorem named_take : Reads (fun t => IsNamed t.kind) take := by
  refine named_peek.bind fun t ht => Reads.andThen (Q := fun _ => True) ⟨fun w named => ?_⟩
    fun _ => of_pure ht
  exact .of_modify ⟨trivial, fun t ht => named t (List.mem_of_mem_drop ht)⟩

theorem names_bare {e : Event} (bare : e.kind.anchor? = none) : Names (pure e) := by
  refine of_pure fun name has => ?_
  rw [bare] at has
  cases has

theorem passes_next (p : Token.Kind → Bool) : Passes (next p) :=
  named_peek.andThen fun _ => of_pure trivial

theorem passes_goto (state : State) : Passes (goto state) :=
  of_modify fun _ => rfl

theorem passes_leave : Passes leave :=
  of_modify fun _ => rfl

theorem passes_thenTo (state : State) : Passes (thenTo state) :=
  of_modify fun _ => rfl

theorem passes_leaveCollection : Passes leaveCollection :=
  Reads.andThen (of_modify fun _ => rfl) fun _ => passes_leave

theorem passes_innermost : Passes innermost :=
  of_get.andThen fun _ => of_pure trivial

theorem passes_opening : Passes opening :=
  named_take.andThen fun _ => of_modify fun _ => rfl

/-! ## Documents -/

theorem passes_directives (steps : Nat) (versioned : Bool) (handles : List (Text × Text)) :
    Passes (directives steps versioned handles) := by
  induction steps generalizing versioned handles with
  | zero => exact of_pure trivial
  | succ steps ih =>
    refine named_peek.andThen fun t => ?_
    split
    · refine named_take.andThen fun _ => ?_
      split
      · exact .ite (.refuse ..) (.ite (.refuse ..) (ih ..))
      · exact .ite (.refuse ..) (ih ..)
      · exact ih ..
    · exact of_pure trivial

theorem passes_skipEnds (steps : Nat) : Passes (skipEnds steps) := by
  induction steps with
  | zero => exact of_pure trivial
  | succ steps ih =>
    refine (passes_next _).andThen fun _ => .ite ?_ (of_pure trivial)
    exact named_take.andThen fun _ => ih

theorem names_nextDocument : Names nextDocument := by
  refine of_get.andThen fun w => (passes_skipEnds _).andThen fun _ => ?_
  refine named_peek.andThen fun t => .ite ?_ ?_
  · exact named_take.andThen fun _ => (passes_goto _).andThen fun _ => names_bare rfl
  · refine of_get.andThen fun _ => (passes_directives ..).andThen fun handles => ?_
    refine named_peek.andThen fun mark => .ite (.refuse ..) ?_
    refine named_take.andThen fun _ => Reads.andThen (of_modify fun _ => rfl) fun _ => ?_
    exact (passes_thenTo _).andThen fun _ => (passes_goto _).andThen fun _ => names_bare rfl

theorem names_firstDocument : Names firstDocument := by
  refine named_peek.andThen fun t => .ite names_nextDocument ?_
  refine Reads.andThen (of_modify fun _ => rfl) fun _ => ?_
  exact (passes_thenTo _).andThen fun _ => (passes_goto _).andThen fun _ => names_bare rfl

theorem names_documentEnd : Names documentEnd := by
  refine named_peek.andThen fun t => (passes_goto _).andThen fun _ => .ite ?_ (names_bare rfl)
  exact named_take.andThen fun _ => names_bare rfl

/-! ## Nodes -/

/-- Properties without an anchor, or with a name for one. -/
def Properties.IsNamed (p : Properties) : Prop :=
  ∀ name ∈ p.anchor, Scan.IsName name

theorem named_takeAnchor {p : Properties} (h : p.IsNamed) :
    Reads Properties.IsNamed (takeAnchor p) := by
  refine named_peek.bind fun t ht => ?_
  split
  · next name kind =>
    refine named_take.andThen fun _ => of_pure ?_
    rintro _ ⟨⟩
    exact ht name kind
  · exact of_pure h

theorem named_takeTag {p : Properties} (h : p.IsNamed) : Reads Properties.IsNamed (takeTag p) := by
  refine named_peek.andThen fun t => ?_
  split
  · exact named_take.andThen fun _ => of_pure h
  · exact of_pure h

theorem named_properties : Reads Properties.IsNamed properties := by
  have none : Properties.IsNamed {} := nofun
  refine (passes_next _).andThen fun _ => .ite ?_ ?_
  · exact (named_takeTag none).bind fun _ => named_takeAnchor
  · exact (named_takeAnchor none).bind fun p h => .ite (named_takeTag h) (of_pure h)

theorem passes_fullName (p : Properties) : Passes (fullName p) := by
  unfold fullName
  split
  · exact of_pure trivial
  · exact of_pure trivial
  · refine of_get.andThen fun _ => ?_
    split
    · exact of_pure trivial
    · exact Reads.fail ..

/-- A step that leaves the tokens alone, and an event without an anchor or with that of a node. -/
theorem names_content (block : Bool) {p : Properties} (h : p.IsNamed) (name : Option Text)
    (t : Token) (start stop : Mark) : Names (node.content block p name t start stop) :=
  .ite (passes_leave.andThen fun _ => of_pure h) (Reads.fail ..)

theorem names_node (block bare : Bool) : Names (node block bare) := by
  refine named_peek.andThen fun t => ?_
  split
  · exact named_take.andThen fun _ => passes_leave.andThen fun _ => names_bare rfl
  · refine named_properties.bind fun p h => (passes_fullName p).andThen fun name => ?_
    have starts (state : State) {e : Event} (he : e.IsNamed) :
        Names (do goto state; return e) :=
      (passes_goto state).andThen fun _ => of_pure he
    refine named_peek.andThen fun t => ?_
    dsimp only
    split
    · exact .ite (starts _ h) (names_content _ h ..)
    · exact named_take.andThen fun _ => passes_leave.andThen fun _ => of_pure h
    · exact starts _ h
    · exact starts _ h
    · exact .ite (starts _ h) (names_content _ h ..)
    · exact .ite (starts _ h) (names_content _ h ..)
    · exact names_content _ h ..

theorem names_nodeOrEmpty (ends : Token.Kind → Bool) (bare block : Bool) (after : State)
    (m : Mark) : Names (nodeOrEmpty ends bare block after m) := by
  refine named_peek.andThen fun t => .ite ?_ ?_
  · exact (passes_goto _).andThen fun _ => names_bare rfl
  · exact (passes_thenTo _).andThen fun _ => names_node ..

theorem names_documentContent : Names documentContent := by
  have leaves (m : Mark) : Names (do leave; return empty m) :=
    passes_leave.andThen fun _ => names_bare rfl
  refine named_peek.andThen fun t => ?_
  split
  · exact leaves _
  · exact leaves _
  · exact leaves _
  · exact leaves _
  · exact names_node ..

/-! ## Collections -/

theorem names_part (ends : Token.Kind → Bool) (bare block : Bool) (after : State)
    (m : Token → Mark) : Names (do nodeOrEmpty ends bare block after (m (← take))) :=
  named_take.andThen fun _ => names_nodeOrEmpty ..

theorem names_end {kind : Event.Kind} (bare : kind.anchor? = none) (start stop : Token → Mark) :
    Names (do let t ← take; leaveCollection; return ⟨kind, start t, stop t⟩) :=
  named_take.andThen fun _ => passes_leaveCollection.andThen fun _ => names_bare bare

theorem names_goto {e : Event} (bare : e.kind.anchor? = none) (state : State) :
    Names (do goto state; return e) :=
  (passes_goto state).andThen fun _ => names_bare bare

theorem names_fail (cause : ParseFault) (failed : Mark) :
    Names (do Walk.fail cause (← innermost) failed) :=
  passes_innermost.andThen fun _ => Reads.fail ..

theorem names_blockSequenceEntry : Names blockSequenceEntry := by
  refine named_peek.andThen fun t => ?_
  split
  · exact names_part ..
  · exact names_end rfl ..
  · exact names_fail ..

theorem names_bareSequenceEntry : Names bareSequenceEntry := by
  refine named_peek.andThen fun t => ?_
  split
  · exact names_part ..
  · exact passes_leave.andThen fun _ => names_bare rfl

theorem names_blockMappingKey : Names blockMappingKey := by
  refine named_peek.andThen fun t => ?_
  split
  · exact names_part ..
  · exact names_end rfl ..
  · exact names_fail ..

theorem names_blockMappingValue : Names blockMappingValue := by
  refine named_peek.andThen fun t => ?_
  split
  · exact names_part ..
  · exact names_goto rfl _

theorem passes_takeComma (first : Bool) (cause : Token.Kind → ParseFault) :
    Passes (takeComma first cause) := by
  refine .ite (of_pure trivial) (named_peek.andThen fun t => ?_)
  split
  · exact named_take.andThen fun _ => of_pure trivial
  · exact passes_innermost.andThen fun _ => Reads.fail ..

theorem names_flowEnd {kind : Event.Kind} (bare : kind.anchor? = none) : Names (flowEnd kind) :=
  names_end bare ..

theorem names_flowNode (after : State) : Names (do thenTo after; node false false) :=
  (passes_thenTo after).andThen fun _ => names_node ..

theorem names_flowSequenceEntry (first : Bool) : Names (flowSequenceEntry first) := by
  refine (passes_next _).andThen fun _ => .ite (names_flowEnd rfl) ?_
  refine (passes_takeComma ..).andThen fun _ => named_peek.andThen fun t => ?_
  split
  · exact names_goto rfl _
  · exact names_flowEnd rfl
  · exact names_flowNode _

theorem names_pairValue : Names pairValue := by
  refine named_peek.andThen fun t => ?_
  split
  · exact names_part ..
  · exact names_goto rfl _

theorem names_pairEnd : Names pairEnd :=
  named_peek.andThen fun _ => names_goto rfl _

theorem names_flowMappingKey (first : Bool) : Names (flowMappingKey first) := by
  refine (passes_next _).andThen fun _ => .ite (names_flowEnd rfl) ?_
  refine (passes_takeComma ..).andThen fun _ => named_peek.andThen fun t => ?_
  split
  · exact names_part ..
  · exact names_flowEnd rfl
  · exact names_flowNode _

theorem names_flowMappingValue : Names flowMappingValue := by
  refine named_peek.andThen fun t => ?_
  split
  · exact names_part ..
  · exact names_goto rfl _

/-! ## The whole walk -/

theorem names_step : Names step := by
  refine of_get.andThen fun w => ?_
  cases w.state with
  | stream => exact named_take.andThen fun _ => names_goto rfl _
  | firstDocument => exact names_firstDocument
  | nextDocument => exact names_nextDocument
  | documentContent => exact names_documentContent
  | documentEnd => exact names_documentEnd
  | blockNode => exact names_node ..
  | blockSequenceFirst => exact passes_opening.andThen fun _ => names_blockSequenceEntry
  | blockSequenceEntry => exact names_blockSequenceEntry
  | bareSequenceEntry => exact names_bareSequenceEntry
  | blockMappingFirst => exact passes_opening.andThen fun _ => names_blockMappingKey
  | blockMappingKey => exact names_blockMappingKey
  | blockMappingValue => exact names_blockMappingValue
  | flowSequenceFirst => exact passes_opening.andThen fun _ => names_flowSequenceEntry true
  | flowSequenceEntry => exact names_flowSequenceEntry false
  | pairKey => exact names_part ..
  | pairValue => exact names_pairValue
  | pairEnd => exact names_pairEnd
  | flowMappingFirst => exact passes_opening.andThen fun _ => names_flowMappingKey true
  | flowMappingKey => exact names_flowMappingKey false
  | flowMappingValue => exact names_flowMappingValue
  | flowMappingNoValue =>
    exact (passes_goto _).andThen fun _ => named_peek.andThen fun _ => names_bare rfl
  | finished => exact names_bare rfl

/-- From tokens on whose anchors are names, so are the anchors of the events. -/
theorem isNamed_events (steps : Nat) {w : Walker} (named : Named w.tokens) :
    ∀ e ∈ (events steps w).items, e.IsNamed := by
  induction steps generalizing w with
  | zero => exact List.forall_mem_nil _
  | succ steps ih =>
    rw [events]
    split
    · exact List.forall_mem_nil _
    · cases hs : step.run w with
      | error e => exact List.forall_mem_nil _
      | ok p =>
        obtain ⟨first, rest⟩ := (names_step.run w named).run p.1 p.2 hs
        exact List.forall_mem_cons.mpr ⟨first, ih rest⟩

end Walk

/-- The anchors of a text's events are names. -/
theorem EventFeed.isNamed_ofText (s : Text) : ∀ e ∈ (EventFeed.ofText s).items, e.IsNamed :=
  Walk.isNamed_events _ (TokenFeed.named_ofText s)

/-! ## Nodes -/

/-- A node without an anchor, or with a name for one. -/
def Node.IsNamed (n : Node) : Prop :=
  ∀ name ∈ n.anchor, Scan.IsName name

namespace Tree

namespace Builder

variable {b b' : Builder}

/-- Nodes whose anchors are names. -/
def Named (nodes : Array Node) : Prop :=
  ∀ (i : Nat) (n : Node), nodes[i]? = some n → n.IsNamed

theorem named_add (h : Named b.nodes) {anchor : Option Text}
    (name : ∀ name ∈ anchor, Scan.IsName name) (start stop content : Mark) (body : Node.Body) :
    Named (b.add anchor start stop content body).nodes := by
  intro i n hn
  rw [add.eq_def, Array.getElem?_push] at hn
  split at hn
  · cases hn
    exact name
  · exact h i n hn

theorem named_close (h : Named b.nodes) (stop : Mark) : Named (b.close stop).nodes := by
  rw [close]
  split
  · exact h
  · intro i n hn
    rw [Array.getElem?_modify] at hn
    split at hn
    · obtain ⟨m, hm, rfl⟩ := Option.map_eq_some_iff.mp hn
      exact h i m hm
    · exact h i n hn

theorem named_step {e : Event} (h : Named b.nodes) (named : e.IsNamed) (taken : b.step e = .ok b') :
    Named b'.nodes := by
  rw [step] at taken
  obtain ⟨_, -, taken⟩ := bind_eq_ok.mp taken
  rw [Event.IsNamed] at named
  cases kind : e.kind with
  | documentStart =>
    rw [kind] at taken
    obtain ⟨-, taken⟩ := guard_eq_ok.mp taken
    cases taken
    exact h
  | aliasOf name =>
    rw [kind] at taken
    obtain ⟨-, taken⟩ := guard_eq_ok.mp taken
    cases taken
    exact named_add h (by rintro _ ⟨⟩) _ _ _ _
  | scalar anchor | sequenceStart anchor | mappingStart anchor =>
    rw [kind] at taken named
    cases taken
    exact named_add h named _ _ _ _
  | sequenceEnd | mappingEnd =>
    rw [kind] at taken
    cases taken
    exact named_close h _
  | streamStart | streamEnd | documentEnd =>
    rw [kind] at taken
    cases taken
    exact h

theorem named_steps {events : List Event} (h : Named b.nodes) (named : ∀ e ∈ events, e.IsNamed)
    (taken : events.foldlM step b = .ok b') : Named b'.nodes := by
  induction events generalizing b with
  | nil =>
    cases taken
    exact h
  | cons e events ih =>
    rw [List.foldlM_cons] at taken
    obtain ⟨c, first, taken⟩ := bind_eq_ok.mp taken
    obtain ⟨this, rest⟩ := List.forall_mem_cons.mp named
    exact ih (named_step h this first) rest taken

end Builder

/-- The anchors of a composed tree are names. -/
theorem isNamed_of_compose {s : Text} {lenient : Bool} {t : Tree} (h : compose s lenient = .ok t)
    (i : Nat) : ∀ n ∈ t.node? i, n.IsNamed := by
  intro n here
  obtain ⟨b, taken, -, rfl⟩ := exists_of_compose h
  have none : Builder.Named #[] := fun _ _ here => by simp at here
  exact Builder.named_steps none (EventFeed.isNamed_ofText s) taken i n here

end Tree

end YamlEdit
