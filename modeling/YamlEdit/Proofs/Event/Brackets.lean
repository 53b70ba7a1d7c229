import YamlEdit.Proofs.Event.Nesting

/-!
# Events in brackets

Inside of brackets and braces a collection is in brackets or braces itself. A walker reads a block
collection only where its stack has a state of one on top, or none: what is open for a walker can be
read off its state and its stack (`around`), and each step opens and closes there what its event
does.
-/

namespace YamlEdit

namespace Event.Kind

/-- Which of the open collections are in brackets, innermost first, behind an event. -/
def brackets (k : Event.Kind) (open_ : List Bool) : List Bool :=
  match k with
  | sequenceStart _ _ frame | mappingStart _ _ frame => (frame == .flow) :: open_
  | sequenceEnd | mappingEnd => open_.tail
  | _ => open_

/-- Whether an event opens a collection that is not in brackets. -/
def opensBlock : Event.Kind → Bool
  | sequenceStart _ _ frame | mappingStart _ _ frame => frame != .flow
  | _ => false

/-- Inside of brackets an event opens no block collection. -/
def Keeps (k : Event.Kind) (open_ : List Bool) : Prop :=
  open_.head? = some true → k.opensBlock = false

end Event.Kind

/-- Events that open no block collection inside of brackets. -/
def Event.AllKeep : List Bool → List Event → Prop
  | _, [] => True
  | open_, e :: r => e.kind.Keeps open_ ∧ AllKeep (e.kind.brackets open_) r

namespace Walk

/-! ## Walking -/

/-- The collections that a state is about, and whether they are in brackets. -/
def State.brackets : State → List Bool
  | blockSequenceFirst | blockSequenceEntry | bareSequenceEntry | blockMappingFirst
  | blockMappingKey | blockMappingValue => [false]
  | flowSequenceFirst | flowSequenceEntry | flowMappingFirst | flowMappingKey | flowMappingValue
  | flowMappingNoValue => [true]
  | pairKey | pairValue | pairEnd => [true, true]
  | _ => []

/-- Which collections on a stack are in brackets. -/
def around (stack : List State) : List Bool :=
  stack.flatMap State.brackets

/-- What a step comes to: an event that may stand inside of what is open, and a walker for which that
is open which is so behind the event. -/
structure Bracketed (open_ : List Bool) (e : Event) (u : Walker) : Prop where
  keeps : e.kind.Keeps open_
  brackets : around (u.state :: u.stack) = e.kind.brackets open_

section

variable {w u : Walker} {open_ : List Bool} {k : Event.Kind} {start stop : Mark}

theorem bracketed_goto {state : State} (keeps : k.Keeps open_)
    (same : around (state :: w.stack) = k.brackets open_) :
    Meets (Bracketed open_) (do goto state; return ⟨k, start, stop⟩) w :=
  .bind (.of_modify (.of_pure ⟨keeps, same⟩))

theorem bracketed_leave (keeps : k.Keeps open_) (same : around w.stack = k.brackets open_) :
    Meets (Bracketed open_) (do leave; return ⟨k, start, stop⟩) w := by
  refine .bind (.of_modify (.of_pure ⟨keeps, ?_⟩))
  rw [← same]
  obtain ⟨source, tokens, fault, state, stack, begun, handles⟩ := w
  cases stack <;> rfl

theorem bracketed_leaveCollection (keeps : k.Keeps open_)
    (same : around w.stack = k.brackets open_) :
    Meets (Bracketed open_) (do leaveCollection; return ⟨k, start, stop⟩) w := by
  refine .bind (.bind (.of_modify (.of_modify (.of_pure ⟨keeps, ?_⟩))))
  rw [← same]
  obtain ⟨source, tokens, fault, state, stack, begun, handles⟩ := w
  cases stack <;> rfl

/-! ### Nodes -/

theorem bracketed_content (same : u.stack = w.stack) (block : Bool) (p : Properties)
    (name : Option Text) (t : Token) :
    Meets (Bracketed (around w.stack)) (node.content block p name t start stop) u :=
  .ite (fun _ => bracketed_leave (fun _ => rfl) (congrArg around same)) fun _ => meets_fail

/-- Reading a node. Block collections are read outside of brackets only. -/
theorem bracketed_node {block bare : Bool}
    (outside : block = true ∨ bare = true → (around w.stack).head? ≠ some true) :
    Meets (Bracketed (around w.stack)) (node block bare) w := by
  refine .bind (meets_peek fun t _ => ?_)
  split
  · refine .bind ((eats_take w).mono fun _ u h => bracketed_leave (fun _ => rfl) ?_)
    exact congrArg around h.stack
  · refine .bind (eats_properties.mono fun p u h => .bind ((eats_fullName p).mono fun name v h' => ?_))
    have same := (h.trans h').stack
    have opened : ∀ {state : State} {b : Bool}, state.brackets = [b] →
        around (state :: v.stack) = b :: around w.stack := by
      intro state b one
      rw [around, List.flatMap_cons, one, same]
      rfl
    refine .bind (meets_peek fun t _ => ?_)
    dsimp only
    split
    · refine .ite (fun isBare => bracketed_goto (fun inside => ?_) (opened rfl)) fun _ =>
        bracketed_content same ..
      exact absurd inside (outside (.inr isBare))
    · refine .bind ((eats_take v).mono fun _ x h'' => bracketed_leave (fun _ => rfl) ?_)
      exact congrArg around (h''.stack.trans same)
    · exact bracketed_goto (fun _ => rfl) (opened rfl)
    · exact bracketed_goto (fun _ => rfl) (opened rfl)
    · refine .ite (fun isBlock => bracketed_goto (fun inside => ?_) (opened rfl)) fun _ =>
        bracketed_content same ..
      exact absurd inside (outside (.inl isBlock))
    · refine .ite (fun isBlock => bracketed_goto (fun inside => ?_) (opened rfl)) fun _ =>
        bracketed_content same ..
      exact absurd inside (outside (.inl isBlock))
    · exact bracketed_content same ..

/-- Reading a node that may be left out, followed by a state. -/
theorem bracketed_nodeOrEmpty {ends : Token.Kind → Bool} {bare block : Bool} (after : State)
    (outside : block = true ∨ bare = true → (around (after :: w.stack)).head? ≠ some true)
    (m : Mark) :
    Meets (Bracketed (around (after :: w.stack))) (nodeOrEmpty ends bare block after m) w := by
  refine .bind (meets_peek fun t _ => .ite (fun _ => ?_) fun _ => ?_)
  · exact bracketed_goto (fun _ => rfl) rfl
  · exact .bind (.of_modify (bracketed_node (w := { w with stack := after :: w.stack }) outside))

/-- A part of a collection behind its first token. -/
theorem bracketed_part {ends : Token.Kind → Bool} {bare block : Bool} (after : State)
    (outside : block = true ∨ bare = true → (around (after :: w.stack)).head? ≠ some true)
    (m : Token → Mark) :
    Meets (Bracketed (around (after :: w.stack)))
      (do nodeOrEmpty ends bare block after (m (← take))) w :=
  .bind (meets_take fun t =>
    bracketed_nodeOrEmpty (w := { w with tokens := w.tokens.drop 1 }) after outside (m t))

/-! ### Documents -/

theorem bracketed_nextDocument :
    Meets (Bracketed (around w.stack)) nextDocument w := by
  refine .bind (.of_get (.bind ((eats_skipEnds _).mono fun _ u h => ?_)))
  refine .bind (meets_peek fun t _ => .ite (fun _ => ?_) fun _ => ?_)
  · refine .bind ((eats_take u).mono fun _ v h' => bracketed_goto (fun _ => rfl) ?_)
    exact (congrArg around (h.trans h').stack :)
  · refine .bind (.of_get (.bind ((eats_directives _ _ _).mono fun handles v h' => ?_)))
    refine .bind (meets_peek fun mark _ => .ite (fun _ => .bind meets_fail) fun _ => ?_)
    refine .bind (meets_take fun _ => .bind (.of_modify (.bind (.of_modify ?_))))
    exact bracketed_goto (fun _ => rfl) (congrArg around (h.trans h').stack :)

theorem bracketed_firstDocument :
    Meets (Bracketed (around w.stack)) firstDocument w := by
  refine .bind (meets_peek fun t _ => .ite (fun _ => bracketed_nextDocument) fun _ => ?_)
  exact .bind (.of_modify (.bind (.of_modify (bracketed_goto (fun _ => rfl) rfl))))

theorem bracketed_documentEnd :
    Meets (Bracketed (around w.stack)) documentEnd w := by
  refine .bind (meets_peek fun t _ => .bind (.of_modify (.ite (fun _ => ?_) fun _ => .of_pure ?_)))
  · exact .bind (meets_take fun t => .of_pure ⟨fun _ => rfl, rfl⟩)
  · exact ⟨fun _ => rfl, rfl⟩

theorem bracketed_documentContent (outside : (around w.stack).head? ≠ some true) :
    Meets (Bracketed (around w.stack)) documentContent w := by
  refine .bind (meets_peek fun t _ => ?_)
  split
  all_goals first
    | exact bracketed_leave (fun _ => rfl) rfl
    | exact bracketed_node fun _ => outside

/-! ### Collections -/

theorem bracketed_blockSequenceEntry :
    Meets (Bracketed (false :: around w.stack)) blockSequenceEntry w := by
  refine .bind (meets_peek fun t _ => ?_)
  split
  · exact bracketed_part .blockSequenceEntry (fun _ => nofun) _
  · exact .bind (meets_take fun t => bracketed_leaveCollection (fun _ => rfl) rfl)
  · exact .bind (.bind (.of_get (.of_pure meets_fail)))

theorem bracketed_bareSequenceEntry :
    Meets (Bracketed (false :: around w.stack)) bareSequenceEntry w := by
  refine .bind (meets_peek fun t _ => ?_)
  split
  · exact bracketed_part .bareSequenceEntry (fun _ => nofun) _
  · exact bracketed_leave (fun _ => rfl) rfl

theorem bracketed_blockMappingKey :
    Meets (Bracketed (false :: around w.stack)) blockMappingKey w := by
  refine .bind (meets_peek fun t _ => ?_)
  split
  · exact bracketed_part .blockMappingValue (fun _ => nofun) _
  · exact .bind (meets_take fun t => bracketed_leaveCollection (fun _ => rfl) rfl)
  · exact .bind (.bind (.of_get (.of_pure meets_fail)))

theorem bracketed_blockMappingValue :
    Meets (Bracketed (false :: around w.stack)) blockMappingValue w := by
  refine .bind (meets_peek fun t _ => ?_)
  split
  · exact bracketed_part .blockMappingKey (fun _ => nofun) _
  · exact bracketed_goto (fun _ => rfl) rfl

theorem bracketed_flowEnd (keeps : k.Keeps open_) (same : around w.stack = k.brackets open_) :
    Meets (Bracketed open_) (flowEnd k) w :=
  .bind (meets_take fun _ => bracketed_leaveCollection keeps same)

/-- A node inside of brackets. -/
theorem bracketed_flowNode (after : State) :
    Meets (Bracketed (around (after :: w.stack))) (do thenTo after; node false false) w := by
  refine .bind (.of_modify (bracketed_node (w := { w with stack := after :: w.stack }) ?_))
  rintro (never | never) <;> cases never

theorem bracketed_flowSequenceEntry (first : Bool) :
    Meets (Bracketed (true :: around w.stack)) (flowSequenceEntry first) w := by
  refine .bind (meets_next fun b => .ite (fun _ => bracketed_flowEnd (fun _ => rfl) rfl) fun _ => ?_)
  refine .bind ((eats_takeComma first _).mono fun _ u h => .bind (meets_peek fun t _ => ?_))
  rw [← h.1.stack]
  split
  · exact bracketed_goto (fun _ => rfl) rfl
  · exact bracketed_flowEnd (fun _ => rfl) rfl
  · exact bracketed_flowNode .flowSequenceEntry

theorem bracketed_flowMappingKey (first : Bool) :
    Meets (Bracketed (true :: around w.stack)) (flowMappingKey first) w := by
  refine .bind (meets_next fun b => .ite (fun _ => bracketed_flowEnd (fun _ => rfl) rfl) fun _ => ?_)
  refine .bind ((eats_takeComma first _).mono fun _ u h => .bind (meets_peek fun t _ => ?_))
  rw [← h.1.stack]
  split
  · exact bracketed_part .flowMappingValue (by rintro (never | never) <;> cases never) _
  · exact bracketed_flowEnd (fun _ => rfl) rfl
  · exact bracketed_flowNode .flowMappingNoValue

theorem bracketed_flowMappingValue :
    Meets (Bracketed (true :: around w.stack)) flowMappingValue w := by
  refine .bind (meets_peek fun t _ => ?_)
  split
  · exact bracketed_part .flowMappingKey (by rintro (never | never) <;> cases never) _
  · exact bracketed_goto (fun _ => rfl) rfl

theorem bracketed_pairKey :
    Meets (Bracketed (true :: true :: around w.stack)) pairKey w :=
  bracketed_part .pairValue (by rintro (never | never) <;> cases never) _

theorem bracketed_pairValue :
    Meets (Bracketed (true :: true :: around w.stack)) pairValue w := by
  refine .bind (meets_peek fun t _ => ?_)
  split
  · exact bracketed_part .pairEnd (by rintro (never | never) <;> cases never) _
  · exact bracketed_goto (fun _ => rfl) rfl

theorem bracketed_pairEnd :
    Meets (Bracketed (true :: true :: around w.stack)) pairEnd w :=
  .bind (meets_peek fun _ _ => bracketed_goto (fun _ => rfl) rfl)

/-- The first part of a collection. -/
theorem bracketed_opening {x : Step Event}
    (next : ∀ u : Walker, u.stack = w.stack → Meets (Bracketed open_) x u) :
    Meets (Bracketed open_) (do opening; x) w :=
  .bind (.bind (meets_take fun _ => .of_modify (next _ rfl)))

/-! ### Any state -/

/-- A step opens no block collection inside of brackets, and says so of what is open. -/
theorem bracketed_step (h : w.Standing) (more : w.state ≠ .finished) :
    Meets (Bracketed (around (w.state :: w.stack))) step w := by
  obtain ⟨source, tokens, fault, state, stack, begun, handles⟩ := w
  have nested : state.Over stack := h.nested
  refine .bind (.of_get ?_)
  cases state with
  | stream => exact .bind (meets_take fun t => bracketed_goto (fun _ => rfl) rfl)
  | firstDocument => exact bracketed_firstDocument
  | nextDocument => exact bracketed_nextDocument
  | documentEnd => exact bracketed_documentEnd
  | documentContent =>
    have bottom : stack = [.documentEnd] := nested
    subst bottom
    exact bracketed_documentContent nofun
  | blockNode =>
    have bottom : stack = [.documentEnd] := nested
    subst bottom
    exact bracketed_node fun _ => nofun
  | blockSequenceFirst =>
    exact bracketed_opening fun u same => by rw [← same]; exact bracketed_blockSequenceEntry
  | blockSequenceEntry => exact bracketed_blockSequenceEntry
  | bareSequenceEntry => exact bracketed_bareSequenceEntry
  | blockMappingFirst =>
    exact bracketed_opening fun u same => by rw [← same]; exact bracketed_blockMappingKey
  | blockMappingKey => exact bracketed_blockMappingKey
  | blockMappingValue => exact bracketed_blockMappingValue
  | flowSequenceFirst =>
    exact bracketed_opening fun u same => by rw [← same]; exact bracketed_flowSequenceEntry true
  | flowSequenceEntry => exact bracketed_flowSequenceEntry false
  | pairKey => exact bracketed_pairKey
  | pairValue => exact bracketed_pairValue
  | pairEnd => exact bracketed_pairEnd
  | flowMappingFirst =>
    exact bracketed_opening fun u same => by rw [← same]; exact bracketed_flowMappingKey true
  | flowMappingKey => exact bracketed_flowMappingKey false
  | flowMappingValue => exact bracketed_flowMappingValue
  | flowMappingNoValue =>
    exact .bind (.of_modify (.bind (meets_peek fun t _ => .of_pure ⟨fun _ => rfl, rfl⟩)))
  | finished => exact absurd rfl more

theorem allKeep_events (steps : Nat) (h : w.Standing) :
    Event.AllKeep (around (w.state :: w.stack)) (events steps w).items := by
  induction steps generalizing w with
  | zero => trivial
  | succ steps ih =>
    rw [events]
    split
    · trivial
    · next running =>
      cases run : step.run w with
      | error e => trivial
      | ok p =>
        obtain ⟨e, u⟩ := p
        have bracketed := (bracketed_step h running).run e u run
        have rest := ih ((turns_step h running).run e u run).standing
        exact ⟨bracketed.keeps, bracketed.brackets ▸ rest⟩

end

end Walk

/-- No event of a text opens a block collection inside of brackets. -/
theorem EventFeed.allKeep_ofText (s : Text) : Event.AllKeep [] (EventFeed.ofText s).items :=
  Walk.allKeep_events (w := ⟨s, _, _, .stream, [], [], []⟩) _ ⟨rfl, nofun⟩

end YamlEdit
