import YamlEdit.Event.Walk
import YamlEdit.Proofs.Agreement

/-!
# Walking sees no marks

Two walkers with tokens of the same kinds take the same steps: they make events of the same kinds,
and where one meets a fault the other does. So the events of a text are those of any text with the
same kinds of tokens.
-/

namespace YamlEdit.Walk

/-- Walkers that differ only in marks and in the text that faults show. -/
structure Alike (w u : Walker) : Prop where
  kinds : w.tokens.map (·.kind) = u.tokens.map (·.kind)
  fault : w.fault.isNone = u.fault.isNone
  state : w.state = u.state
  stack : w.stack = u.stack
  handles : w.handles = u.handles

/-- Steps that agree on walkers that are alike. -/
abbrev Same {α : Type} (R : α → α → Prop) (x y : Step α) : Prop :=
  Agrees Alike R x y

/-- Tokens of one kind. -/
def SameToken (t u : Token) : Prop := t.kind = u.kind

/-- Events of one kind. -/
def SameEvent (e f : Event) : Prop := e.kind = f.kind

theorem same_peek : Same SameToken peek peek := by
  refine ⟨?_⟩
  intro w u h
  obtain ⟨source, tokens, fault, state, stack, begun, handles⟩ := w
  obtain ⟨source', tokens', fault', state', stack', begun', handles'⟩ := u
  have kinds : tokens.map (·.kind) = tokens'.map (·.kind) := h.kinds
  have faults : fault.isNone = fault'.isNone := h.fault
  cases tokens with
  | nil =>
    cases tokens' with
    | cons t r => cases kinds
    | nil =>
      cases fault with
      | none =>
        cases fault' with
        | none => exact ⟨rfl, h⟩
        | some e => cases faults
      | some e =>
        cases fault' with
        | none => cases faults
        | some e' => trivial
  | cons t r =>
    cases tokens' with
    | nil => cases kinds
    | cons t' r' => exact ⟨(List.cons.inj kinds).1, h⟩

theorem same_modify {f g : Walker → Walker} (h : ∀ w u, Alike w u → Alike (f w) (g u)) :
    Same (fun _ _ => True) (modify f) (modify g) :=
  AgreesBy.of_modify h

theorem same_take : Same SameToken take take := by
  refine same_peek.bind ?_
  intro t u same
  refine AgreesBy.bind (same_modify fun w v h => ?_) fun _ _ _ => AgreesBy.of_pure same
  exact { h with kinds := by simpa using congrArg (List.drop 1) h.kinds }

theorem same_fail {α : Type} {R : α → α → Prop} (cause cause' : ParseFault)
    (began began' : Option Mark) (failed failed' : Mark) :
    Same R (fail cause began failed) (fail cause' began' failed') :=
  AgreesBy.of_get.bind fun _ _ _ => AgreesBy.of_throw trivial

theorem same_goto (state : State) : Same (fun _ _ => True) (goto state) (goto state) :=
  same_modify fun _ _ h => { h with state := rfl }

theorem same_leave : Same (fun _ _ => True) leave leave :=
  same_modify fun _ _ h =>
    { h with
      state := congrArg (List.headD · State.finished) h.stack
      stack := congrArg (List.drop 1) h.stack }

theorem same_thenTo (state : State) : Same (fun _ _ => True) (thenTo state) (thenTo state) :=
  same_modify fun _ _ h => { h with stack := congrArg (state :: ·) h.stack }

theorem same_begin (m m' : Mark) : Same (fun _ _ => True) (begin m) (begin m') :=
  same_modify fun _ _ h => { h with }

theorem same_leaveCollection : Same (fun _ _ => True) leaveCollection leaveCollection := by
  refine AgreesBy.bind (same_modify fun w u h => ?_) fun _ _ _ => same_leave
  exact { h with }

theorem same_innermost : Same (fun _ _ => True) innermost innermost :=
  AgreesBy.of_get.bind fun _ _ _ => AgreesBy.of_pure trivial

theorem same_next (p : Token.Kind → Bool) : Same (· = ·) (next p) (next p) :=
  same_peek.bind fun _ _ same => AgreesBy.of_pure (congrArg p same)

/-! ## Documents -/

theorem same_directives (steps : Nat) (versioned : Bool) (handles : List (Text × Text)) :
    Same (· = ·) (directives steps versioned handles) (directives steps versioned handles) := by
  induction steps generalizing versioned handles with
  | zero => exact AgreesBy.of_pure rfl
  | succ steps ih =>
    refine same_peek.bind ?_
    intro t u same
    rw [SameToken] at same
    rw [same]
    cases u.kind with
    | directive d =>
      refine same_take.bind fun _ _ _ => ?_
      cases d with
      | version major minor =>
        exact .guard Iff.rfl (same_fail ..) (.guard Iff.rfl (same_fail ..) (ih ..))
      | handle handle start => exact .guard Iff.rfl (same_fail ..) (ih ..)
      | reserved name => exact ih ..
    | _ => exact AgreesBy.of_pure rfl

theorem same_skipEnds (steps : Nat) : Same (fun _ _ => True) (skipEnds steps) (skipEnds steps) := by
  induction steps with
  | zero => exact AgreesBy.of_pure trivial
  | succ steps ih =>
    refine (same_next _).bind ?_
    intro b c same
    subst same
    refine .ite Iff.rfl (fun _ => ?_) fun _ => AgreesBy.of_pure trivial
    exact same_take.bind fun _ _ _ => ih

theorem same_nextDocument : Same SameEvent nextDocument nextDocument := by
  refine AgreesBy.of_get.bind ?_
  intro w v h
  have length : w.tokens.length = v.tokens.length := by simpa using congrArg List.length h.kinds
  rw [length]
  refine (same_skipEnds _).bind fun _ _ _ => ?_
  refine same_peek.bind ?_
  intro t u same
  refine .ite (by rw [SameToken] at same; rw [same]) (fun _ => ?_) fun _ => ?_
  · refine same_take.bind fun _ _ _ => (same_goto _).bind fun _ _ _ => AgreesBy.of_pure rfl
  · refine AgreesBy.of_get.bind ?_
    intro w v h
    have length : w.tokens.length = v.tokens.length := by simpa using congrArg List.length h.kinds
    rw [length]
    refine (same_directives ..).bind ?_
    intro handles handles' equal
    subst equal
    refine same_peek.bind ?_
    intro m n kind
    refine .guard (by rw [SameToken] at kind; rw [kind]) (same_fail ..) ?_
    refine same_take.bind fun _ _ _ => ?_
    refine AgreesBy.bind (same_modify fun w v h => ?_) fun _ _ _ => ?_
    · exact { h with handles := rfl }
    · exact (same_thenTo _).bind fun _ _ _ => (same_goto _).bind fun _ _ _ => AgreesBy.of_pure rfl

theorem same_firstDocument : Same SameEvent firstDocument firstDocument := by
  refine same_peek.bind ?_
  intro t u same
  refine .ite (by rw [SameToken] at same; rw [same]) (fun _ => same_nextDocument) fun _ => ?_
  refine AgreesBy.bind (same_modify fun w v h => ?_) fun _ _ _ => ?_
  · exact { h with handles := rfl }
  · exact (same_thenTo _).bind fun _ _ _ => (same_goto _).bind fun _ _ _ => AgreesBy.of_pure rfl

theorem same_documentEnd : Same SameEvent documentEnd documentEnd := by
  refine same_peek.bind fun t u same => (same_goto _).bind fun _ _ _ => ?_
  refine .ite (by rw [SameToken] at same; rw [same]) (fun _ => ?_) fun _ => AgreesBy.of_pure rfl
  exact same_take.bind fun _ _ _ => AgreesBy.of_pure rfl

/-! ## Nodes -/

/-- Properties that differ only in marks. -/
structure SameProperties (p q : Properties) : Prop where
  anchor : p.anchor = q.anchor
  tag : p.tag = q.tag

theorem same_takeAnchor {p q : Properties} (h : SameProperties p q) :
    Same SameProperties (takeAnchor p) (takeAnchor q) := by
  refine same_peek.bind ?_
  intro t u same
  rw [SameToken] at same
  rw [same]
  cases u.kind with
  | anchor name => exact same_take.bind fun _ _ _ => AgreesBy.of_pure ⟨rfl, h.tag⟩
  | _ => exact AgreesBy.of_pure h

theorem same_takeTag {p q : Properties} (h : SameProperties p q) :
    Same SameProperties (takeTag p) (takeTag q) := by
  refine same_peek.bind ?_
  intro t u same
  rw [SameToken] at same
  rw [same]
  cases u.kind with
  | tag handle rest => exact same_take.bind fun _ _ _ => AgreesBy.of_pure ⟨h.anchor, rfl⟩
  | _ => exact AgreesBy.of_pure h

theorem same_properties : Same SameProperties properties properties := by
  have none : SameProperties {} {} := ⟨rfl, rfl⟩
  refine (same_next _).bind ?_
  intro b c same
  subst same
  refine .ite Iff.rfl (fun _ => (same_takeTag none).bind fun _ _ => same_takeAnchor) fun _ => ?_
  refine (same_takeAnchor none).bind ?_
  intro p q h
  exact .ite (by rw [h.anchor]) (fun _ => same_takeTag h) fun _ => AgreesBy.of_pure h

theorem same_fullName {p q : Properties} (h : SameProperties p q) :
    Same (· = ·) (fullName p) (fullName q) := by
  unfold fullName
  rw [h.tag]
  cases q.tag with
  | none => exact AgreesBy.of_pure rfl
  | some tag =>
    obtain ⟨handle, rest⟩ := tag
    cases handle with
    | none => exact AgreesBy.of_pure rfl
    | some handle =>
      refine AgreesBy.of_get.bind ?_
      intro w v alike
      rw [alike.handles]
      cases v.handles.lookup handle with
      | none => exact same_fail ..
      | some start => exact AgreesBy.of_pure rfl

theorem same_content (block : Bool) {p q : Properties} (h : SameProperties p q) (name : Option Text) {t u : Token}
    (start stop start' stop' : Mark) :
    Same SameEvent (node.content block p name t start stop)
      (node.content block q name u start' stop') := by
  rw [node.content]
  rw [h.anchor, h.tag]
  refine .ite Iff.rfl (fun _ => ?_) fun _ => same_fail ..
  exact same_leave.bind fun _ _ _ => AgreesBy.of_pure rfl

theorem same_node (block bare : Bool) : Same SameEvent (node block bare) (node block bare) := by
  refine same_peek.bind ?_
  intro t u same
  rw [SameToken] at same
  rw [same]
  cases u.kind with
  | aliasOf name =>
    exact same_take.bind fun _ _ _ => same_leave.bind fun _ _ _ => AgreesBy.of_pure rfl
  | _ =>
    refine same_properties.bind ?_
    intro p q h
    refine (same_fullName h).bind ?_
    intro name name' equal
    subst equal
    refine same_peek.bind ?_
    intro t u same
    rw [SameToken] at same
    dsimp only
    rw [same, h.anchor]
    cases u.kind with
    | blockEntry =>
      refine .ite Iff.rfl (fun _ => ?_) fun _ => same_content block h ..
      exact (same_goto _).bind fun _ _ _ => AgreesBy.of_pure rfl
    | scalar text quoting =>
      exact same_take.bind fun _ _ _ => same_leave.bind fun _ _ _ => AgreesBy.of_pure rfl
    | flowSequenceStart => exact (same_goto _).bind fun _ _ _ => AgreesBy.of_pure rfl
    | flowMappingStart => exact (same_goto _).bind fun _ _ _ => AgreesBy.of_pure rfl
    | blockSequenceStart =>
      refine .ite Iff.rfl (fun _ => ?_) fun _ => same_content block h ..
      exact (same_goto _).bind fun _ _ _ => AgreesBy.of_pure rfl
    | blockMappingStart =>
      refine .ite Iff.rfl (fun _ => ?_) fun _ => same_content block h ..
      exact (same_goto _).bind fun _ _ _ => AgreesBy.of_pure rfl
    | _ => exact same_content block h ..

theorem same_nodeOrEmpty (ends : Token.Kind → Bool) (bare block : Bool) (after : State)
    (m m' : Mark) :
    Same SameEvent (nodeOrEmpty ends bare block after m) (nodeOrEmpty ends bare block after m') := by
  refine same_peek.bind ?_
  intro t u same
  refine .ite (by rw [SameToken] at same; rw [same]) (fun _ => ?_) fun _ => ?_
  · exact (same_goto _).bind fun _ _ _ => AgreesBy.of_pure rfl
  · exact (same_thenTo _).bind fun _ _ _ => same_node block bare

theorem same_documentContent : Same SameEvent documentContent documentContent := by
  refine same_peek.bind ?_
  intro t u same
  rw [SameToken] at same
  rw [same]
  cases u.kind with
  | directive d => exact same_leave.bind fun _ _ _ => AgreesBy.of_pure rfl
  | documentStart => exact same_leave.bind fun _ _ _ => AgreesBy.of_pure rfl
  | documentEnd => exact same_leave.bind fun _ _ _ => AgreesBy.of_pure rfl
  | streamEnd => exact same_leave.bind fun _ _ _ => AgreesBy.of_pure rfl
  | _ => exact same_node true false

/-! ## Collections -/

theorem same_blockSequenceEntry : Same SameEvent blockSequenceEntry blockSequenceEntry := by
  refine same_peek.bind ?_
  intro t u same
  rw [SameToken] at same
  rw [same]
  cases u.kind with
  | blockEntry => exact same_take.bind fun _ _ _ => same_nodeOrEmpty ..
  | blockEnd =>
    exact same_take.bind fun _ _ _ => same_leaveCollection.bind fun _ _ _ => AgreesBy.of_pure rfl
  | _ => exact same_innermost.bind fun _ _ _ => same_fail ..

theorem same_bareSequenceEntry : Same SameEvent bareSequenceEntry bareSequenceEntry := by
  refine same_peek.bind ?_
  intro t u same
  rw [SameToken] at same
  rw [same]
  cases u.kind with
  | blockEntry => exact same_take.bind fun _ _ _ => same_nodeOrEmpty ..
  | _ => exact same_leave.bind fun _ _ _ => AgreesBy.of_pure rfl

theorem same_blockMappingKey : Same SameEvent blockMappingKey blockMappingKey := by
  refine same_peek.bind ?_
  intro t u same
  rw [SameToken] at same
  rw [same]
  cases u.kind with
  | key => exact same_take.bind fun _ _ _ => same_nodeOrEmpty ..
  | blockEnd =>
    exact same_take.bind fun _ _ _ => same_leaveCollection.bind fun _ _ _ => AgreesBy.of_pure rfl
  | _ => exact same_innermost.bind fun _ _ _ => same_fail ..

theorem same_blockMappingValue : Same SameEvent blockMappingValue blockMappingValue := by
  refine same_peek.bind ?_
  intro t u same
  rw [SameToken] at same
  rw [same]
  cases u.kind with
  | value => exact same_take.bind fun _ _ _ => same_nodeOrEmpty ..
  | _ => exact (same_goto _).bind fun _ _ _ => AgreesBy.of_pure rfl

theorem same_takeComma (first : Bool) (cause : Token.Kind → ParseFault) :
    Same (fun _ _ => True) (takeComma first cause) (takeComma first cause) := by
  refine .ite Iff.rfl (fun _ => AgreesBy.of_pure trivial) fun _ => ?_
  refine same_peek.bind ?_
  intro t u same
  rw [SameToken] at same
  rw [same]
  cases u.kind with
  | flowEntry => exact same_take.bind fun _ _ _ => AgreesBy.of_pure trivial
  | _ => exact same_innermost.bind fun _ _ _ => same_fail ..

theorem same_flowEnd (kind : Event.Kind) : Same SameEvent (flowEnd kind) (flowEnd kind) :=
  same_take.bind fun _ _ _ => same_leaveCollection.bind fun _ _ _ => AgreesBy.of_pure rfl

theorem same_flowSequenceEntry (first : Bool) :
    Same SameEvent (flowSequenceEntry first) (flowSequenceEntry first) := by
  refine (same_next _).bind ?_
  intro b c equal
  subst equal
  refine .ite Iff.rfl (fun _ => same_flowEnd _) fun _ => ?_
  refine (same_takeComma ..).bind fun _ _ _ => ?_
  refine same_peek.bind ?_
  intro t u same
  rw [SameToken] at same
  rw [same]
  cases u.kind with
  | key => exact (same_goto _).bind fun _ _ _ => AgreesBy.of_pure rfl
  | flowSequenceEnd => exact same_flowEnd _
  | _ => exact (same_thenTo _).bind fun _ _ _ => same_node ..

theorem same_pairKey : Same SameEvent pairKey pairKey :=
  same_take.bind fun _ _ _ => same_nodeOrEmpty ..

theorem same_pairValue : Same SameEvent pairValue pairValue := by
  refine same_peek.bind ?_
  intro t u same
  rw [SameToken] at same
  rw [same]
  cases u.kind with
  | value => exact same_take.bind fun _ _ _ => same_nodeOrEmpty ..
  | _ => exact (same_goto _).bind fun _ _ _ => AgreesBy.of_pure rfl

theorem same_pairEnd : Same SameEvent pairEnd pairEnd :=
  same_peek.bind fun _ _ _ => (same_goto _).bind fun _ _ _ => AgreesBy.of_pure rfl

theorem same_flowMappingKey (first : Bool) :
    Same SameEvent (flowMappingKey first) (flowMappingKey first) := by
  refine (same_next _).bind ?_
  intro b c equal
  subst equal
  refine .ite Iff.rfl (fun _ => same_flowEnd _) fun _ => ?_
  refine (same_takeComma ..).bind fun _ _ _ => ?_
  refine same_peek.bind ?_
  intro t u same
  rw [SameToken] at same
  rw [same]
  cases u.kind with
  | key => exact same_take.bind fun _ _ _ => same_nodeOrEmpty ..
  | flowMappingEnd => exact same_flowEnd _
  | _ => exact (same_thenTo _).bind fun _ _ _ => same_node ..

theorem same_flowMappingValue : Same SameEvent flowMappingValue flowMappingValue := by
  refine same_peek.bind ?_
  intro t u same
  rw [SameToken] at same
  rw [same]
  cases u.kind with
  | value => exact same_take.bind fun _ _ _ => same_nodeOrEmpty ..
  | _ => exact (same_goto _).bind fun _ _ _ => AgreesBy.of_pure rfl

theorem same_opening : Same (fun _ _ => True) opening opening :=
  same_take.bind fun _ _ _ => same_begin ..

/-! ## Runs -/

/-- One step of walkers that are alike. -/
theorem same_step : Same SameEvent step step := by
  refine AgreesBy.of_get.bind ?_
  intro w u h
  rw [h.state]
  cases u.state with
  | stream => exact same_take.bind fun _ _ _ => (same_goto _).bind fun _ _ _ => AgreesBy.of_pure rfl
  | firstDocument => exact same_firstDocument
  | nextDocument => exact same_nextDocument
  | documentContent => exact same_documentContent
  | documentEnd => exact same_documentEnd
  | blockNode => exact same_node ..
  | blockSequenceFirst => exact same_opening.bind fun _ _ _ => same_blockSequenceEntry
  | blockSequenceEntry => exact same_blockSequenceEntry
  | bareSequenceEntry => exact same_bareSequenceEntry
  | blockMappingFirst => exact same_opening.bind fun _ _ _ => same_blockMappingKey
  | blockMappingKey => exact same_blockMappingKey
  | blockMappingValue => exact same_blockMappingValue
  | flowSequenceFirst => exact same_opening.bind fun _ _ _ => same_flowSequenceEntry true
  | flowSequenceEntry => exact same_flowSequenceEntry false
  | pairKey => exact same_pairKey
  | pairValue => exact same_pairValue
  | pairEnd => exact same_pairEnd
  | flowMappingFirst => exact same_opening.bind fun _ _ _ => same_flowMappingKey true
  | flowMappingKey => exact same_flowMappingKey false
  | flowMappingValue => exact same_flowMappingValue
  | flowMappingNoValue =>
    exact (same_goto _).bind fun _ _ _ => same_peek.bind fun _ _ _ => AgreesBy.of_pure rfl
  | finished => exact AgreesBy.of_pure rfl

end YamlEdit.Walk

namespace YamlEdit.EventFeed

/-- The kinds of the events of a feed. -/
def kinds (f : EventFeed) : List Event.Kind :=
  f.items.map (·.kind)

end YamlEdit.EventFeed

namespace YamlEdit.Walk

/-- Walkers that are alike make events of the same kinds, and meet a fault both or neither. -/
theorem events_alike (steps : Nat) {w u : Walker} (h : Alike w u) :
    (events steps w).kinds = (events steps u).kinds ∧
      (events steps w).fault.isNone = (events steps u).fault.isNone := by
  induction steps generalizing w u with
  | zero => exact ⟨rfl, rfl⟩
  | succ steps ih =>
    have one := same_step.run w u h
    simp only [events, h.state]
    split
    · exact ⟨rfl, rfl⟩
    · cases hw : step.run w with
      | error e =>
        rw [hw] at one
        cases hu : step.run u with
        | error e' => exact ⟨rfl, rfl⟩
        | ok q => rw [hu] at one; cases one
      | ok p =>
        rw [hw] at one
        cases hu : step.run u with
        | error e' => rw [hu] at one; cases one
        | ok q =>
          rw [hu] at one
          obtain ⟨kind, alike⟩ := one
          obtain ⟨items, fault⟩ := ih alike
          exact ⟨List.cons_eq_cons.mpr ⟨kind, items⟩, fault⟩

end YamlEdit.Walk

namespace YamlEdit.EventFeed

/-- Texts whose tokens are of the same kinds have events of the same kinds. -/
theorem ofText_alike {s t : Text}
    (kinds : (TokenFeed.ofText s).items.map (·.kind) = (TokenFeed.ofText t).items.map (·.kind))
    (fault : (TokenFeed.ofText s).fault.isNone = (TokenFeed.ofText t).fault.isNone) :
    (ofText s).kinds = (ofText t).kinds ∧ (ofText s).fault.isNone = (ofText t).fault.isNone := by
  have length : (TokenFeed.ofText s).items.length = (TokenFeed.ofText t).items.length := by
    simpa using congrArg List.length kinds
  unfold ofText
  dsimp only
  rw [length]
  exact Walk.events_alike _ ⟨kinds, fault, rfl, rfl, rfl⟩

end YamlEdit.EventFeed
