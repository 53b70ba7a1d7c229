import YamlEdit.Event.Basic
import YamlEdit.Tag.Implicit

/-!
# Walking through a document

An automaton with a stack that turns tokens into events. A state says what is expected next;
entering a node puts the state for what follows the node on the stack, and the end of the node takes
it off.
-/

namespace YamlEdit.Walk

/-- What is expected next. -/
inductive State where
  | stream
  /-- The first document, which needs no mark. -/
  | firstDocument
  | nextDocument
  | documentContent
  | documentEnd
  | blockNode
  | blockSequenceFirst
  | blockSequenceEntry
  /-- An entry of a sequence that has no indentation of its own. -/
  | bareSequenceEntry
  | blockMappingFirst
  | blockMappingKey
  | blockMappingValue
  | flowSequenceFirst
  | flowSequenceEntry
  /-- A pair inside of brackets, which is a mapping by itself. -/
  | pairKey
  | pairValue
  | pairEnd
  | flowMappingFirst
  | flowMappingKey
  | flowMappingValue
  /-- The value of a key without a colon. -/
  | flowMappingNoValue
  | finished
deriving DecidableEq, Repr

/-- The state of walking. -/
structure Walker where
  source : Text
  tokens : List Token
  fault : Option ScanError
  state : State := .stream
  /-- What follows the nodes that are open. -/
  stack : List State := []
  /-- Where the open collections began. -/
  begun : List Mark := []
  /-- What the handles of tags stand for. -/
  handles : List (Text × Text) := []

/-- A step of walking. -/
abbrev Step := StateT Walker (Except EventError)

/-- The next token, which stays. -/
def peek : Step Token := do
  let w ← get
  match w.tokens, w.fault with
  | t :: _, _ => return t
  | [], some e => throw (.scan e)
  | [], none => return ⟨.streamEnd, .zero, .zero⟩

/-- Takes the next token. -/
def take : Step Token := do
  let t ← peek
  modify fun w => { w with tokens := w.tokens.drop 1 }
  return t

/-- Whether the next token is of a kind. -/
def next (p : Token.Kind → Bool) : Step Bool := do
  return p (← peek).kind

/-- Fails with a fault at a mark, in a construct that began at another. -/
def fail {α : Type} (cause : ParseFault) (began : Option Mark) (failed : Mark) : Step α := do
  throw (.parse ⟨cause, (← get).source, began, some failed⟩)

/-- Goes to a state. -/
def goto (state : State) : Step Unit :=
  modify fun w => { w with state }

/-- Leaves a node: goes to the state on the stack. -/
def leave : Step Unit :=
  modify fun w => { w with state := w.stack.headD .finished, stack := w.stack.drop 1 }

/-- Puts the state for what follows the next node on the stack. -/
def thenTo (state : State) : Step Unit :=
  modify fun w => { w with stack := state :: w.stack }

/-- Remembers where a collection began. -/
def begin (m : Mark) : Step Unit :=
  modify fun w => { w with begun := m :: w.begun }

/-- Leaves a collection. -/
def leaveCollection : Step Unit := do
  modify fun w => { w with begun := w.begun.drop 1 }
  leave

/-- Where the innermost collection began. -/
def innermost : Step (Option Mark) := do
  return (← get).begun.head?

/-- An empty scalar at a mark. -/
def empty (m : Mark) : Event :=
  ⟨.scalar none .null [] .plain, m, m⟩

/-- What the handles stand for in every document. -/
def standardHandles : List (Text × Text) :=
  [(['!'], ['!']), (['!', '!'], Tag.repositoryName)]

/-! ## Documents -/

/-- Takes the directives before a document; the flag says that there was one with a version. -/
def directives : (steps : Nat) → Bool → List (Text × Text) → Step (List (Text × Text))
  | 0, _, handles => return handles
  | steps + 1, versioned, handles => do
    let t ← peek
    match t.kind with
    | .directive d =>
      let _ ← take
      match d with
      | .version major _ =>
        if versioned then fail .duplicateVersion none t.start
        if major ≠ 1 then fail .incompatibleVersion none t.start
        directives steps true handles
      | .handle handle start =>
        if (handles.lookup handle).isSome then fail (.duplicateHandle handle) none t.start
        directives steps versioned (handles ++ [(handle, start)])
      | .reserved _ => directives steps versioned handles
    | _ => return handles

/-- Takes the marks for ends of documents. -/
def skipEnds : (steps : Nat) → Step Unit
  | 0 => return
  | steps + 1 => do
    if ← next (· == .documentEnd) then
      let _ ← take
      skipEnds steps

/-- The start of a document with its directives and mark, or the end of the stream. -/
def nextDocument : Step Event := do
  skipEnds ((← get).tokens.length + 1)
  let t ← peek
  if t.kind == .streamEnd then
    let _ ← take
    goto .finished
    return ⟨.streamEnd, t.start, t.stop⟩
  let handles ← directives ((← get).tokens.length + 1) false []
  let mark ← peek
  if mark.kind != .documentStart then fail (.documentStart mark.kind) none mark.start
  let mark ← take
  modify fun w => { w with handles := handles ++ standardHandles }
  thenTo .documentEnd
  goto .documentContent
  return ⟨.documentStart, t.start, mark.stop⟩

/-- Whether a token starts a document explicitly, or ends the stream. -/
def opensDocument : Token.Kind → Bool
  | .directive _ | .documentStart | .streamEnd => true
  | _ => false

/-- The start of the first document. -/
def firstDocument : Step Event := do
  let t ← peek
  if opensDocument t.kind then nextDocument
  else
    modify fun w => { w with handles := standardHandles }
    thenTo .documentEnd
    goto .blockNode
    return ⟨.documentStart, t.start, t.start⟩

/-- The end of a document. -/
def documentEnd : Step Event := do
  let t ← peek
  goto .nextDocument
  if t.kind == .documentEnd then
    let t ← take
    return ⟨.documentEnd, t.start, t.stop⟩
  return ⟨.documentEnd, t.start, t.start⟩

/-! ## Nodes -/

/-- The anchor and the tag of a node, and where they are. -/
structure Properties where
  anchor : Option Text := none
  tag : Option (Option Text × Text) := none
  start : Option Mark := none
  stop : Option Mark := none
  tagMark : Option Mark := none

/-- Takes an anchor, if one comes next. -/
def takeAnchor (p : Properties) : Step Properties := do
  let t ← peek
  match t.kind with
  | .anchor name =>
    let _ ← take
    return { p with anchor := some name, start := p.start.or (some t.start), stop := some t.stop }
  | _ => return p

/-- Takes a tag, if one comes next. -/
def takeTag (p : Properties) : Step Properties := do
  let t ← peek
  match t.kind with
  | .tag handle rest =>
    let _ ← take
    return { p with
      tag := some (handle, rest)
      tagMark := some t.start
      start := p.start.or (some t.start)
      stop := some t.stop }
  | _ => return p

/-- Takes the anchor and the tag of a node, in either order. -/
def properties : Step Properties := do
  if ← next (fun k => k matches .tag ..) then takeAnchor (← takeTag {})
  else
    let p ← takeAnchor {}
    if p.anchor.isSome then takeTag p else return p

/-- The full name of a tag. -/
def fullName (p : Properties) : Step (Option Text) := do
  match p.tag with
  | none => return none
  | some (none, rest) => return some rest
  | some (some handle, rest) =>
    match (← get).handles.lookup handle with
    | some start => return some (start ++ rest)
    | none => fail (.undefinedHandle handle) p.start (p.tagMark.getD .zero)

/-- The tag of a node: what its name says, or the one it has without a name. -/
def tagOr (name : Option Text) (otherwise : Tag) : Tag :=
  match name with
  | none | some ['!'] => otherwise
  | some name => Tag.ofName name

/-- The tag of a scalar. A plain one without a tag, and any with the tag `!`, is what its text looks
like. -/
def scalarTag (name : Option Text) (text : Text) (quoting : Quoting) : Tag :=
  match name with
  | none => if quoting == .plain then Tag.implicit text else .str
  | some ['!'] => Tag.implicit text
  | some name => Tag.ofName name

/-- A node. Block collections need `block`, and a sequence without indentation of its own `bare`. -/
def node (block bare : Bool) : Step Event := do
  let t ← peek
  match t.kind with
  | .aliasOf name =>
    let _ ← take
    leave
    return ⟨.aliasOf name, t.start, t.stop⟩
  | _ =>
    let p ← properties
    let name ← fullName p
    let t ← peek
    let start := p.start.getD t.start
    let stop := p.stop.getD t.start
    match t.kind with
    | .blockEntry =>
      if bare then
        goto .bareSequenceEntry
        return ⟨.sequenceStart p.anchor (tagOr name .seq) .bare, start, t.stop⟩
      content p name t start stop
    | .scalar text quoting =>
      let _ ← take
      leave
      return ⟨.scalar p.anchor (scalarTag name text quoting) text quoting, start, t.stop⟩
    | .flowSequenceStart =>
      goto .flowSequenceFirst
      return ⟨.sequenceStart p.anchor (tagOr name .seq) .flow, start, t.stop⟩
    | .flowMappingStart =>
      goto .flowMappingFirst
      return ⟨.mappingStart p.anchor (tagOr name .map) .flow, start, t.stop⟩
    | .blockSequenceStart =>
      if block then
        goto .blockSequenceFirst
        return ⟨.sequenceStart p.anchor (tagOr name .seq) .block, start, t.start⟩
      content p name t start stop
    | .blockMappingStart =>
      if block then
        goto .blockMappingFirst
        return ⟨.mappingStart p.anchor (tagOr name .map) .block, start, t.start⟩
      content p name t start stop
    | _ => content p name t start stop
where
  /-- A node without content: an empty scalar, if it has an anchor or a tag. -/
  content (p : Properties) (name : Option Text) (t : Token) (start stop : Mark) : Step Event := do
    if p.anchor.isSome || p.tag.isSome then
      leave
      return ⟨.scalar p.anchor (scalarTag name [] .plain) [] .plain, start, stop⟩
    fail (.nodeContent block t.kind) (some start) t.start

/-- A node, followed by a state; or an empty scalar, if the next token is one that ends it. -/
def nodeOrEmpty (ends : Token.Kind → Bool) (bare block : Bool) (after : State) (m : Mark) :
    Step Event := do
  if ends (← peek).kind then
    goto after
    return empty m
  thenTo after
  node block bare

/-- The content of a document with a mark. -/
def documentContent : Step Event := do
  let t ← peek
  match t.kind with
  | .directive _ | .documentStart | .documentEnd | .streamEnd =>
    leave
    return empty t.start
  | _ => node true false

/-! ## Block collections -/

/-- An entry of a block sequence, or its end. -/
def blockSequenceEntry : Step Event := do
  let t ← peek
  match t.kind with
  | .blockEntry =>
    let _ ← take
    nodeOrEmpty (fun k => k == .blockEntry || k == .blockEnd) false true .blockSequenceEntry t.stop
  | .blockEnd =>
    let _ ← take
    leaveCollection
    return ⟨.sequenceEnd, t.start, t.stop⟩
  | found => fail (.sequenceEntry found) (← innermost) t.start

/-- An entry of a sequence without indentation of its own, or its end. -/
def bareSequenceEntry : Step Event := do
  let t ← peek
  match t.kind with
  | .blockEntry =>
    let _ ← take
    nodeOrEmpty (fun k => k == .blockEntry || k == .key || k == .value || k == .blockEnd)
      false true .bareSequenceEntry t.stop
  | _ =>
    leave
    return ⟨.sequenceEnd, t.start, t.start⟩

/-- Whether a token ends a key or a value of a block mapping. -/
def endsBlockPart (k : Token.Kind) : Bool :=
  k == .key || k == .value || k == .blockEnd

/-- A key of a block mapping, or its end. -/
def blockMappingKey : Step Event := do
  let t ← peek
  match t.kind with
  | .key =>
    let _ ← take
    nodeOrEmpty endsBlockPart true true .blockMappingValue t.stop
  | .blockEnd =>
    let _ ← take
    leaveCollection
    return ⟨.mappingEnd, t.start, t.stop⟩
  | found => fail (.mappingEntry found) (← innermost) t.start

/-- A value of a block mapping. -/
def blockMappingValue : Step Event := do
  let t ← peek
  match t.kind with
  | .value =>
    let _ ← take
    nodeOrEmpty endsBlockPart true true .blockMappingKey t.stop
  | _ =>
    goto .blockMappingKey
    return empty t.start

/-! ## Flow collections -/

/-- Whether a token ends a part of a pair inside of brackets. -/
def endsPairPart (k : Token.Kind) : Bool :=
  k == .flowEntry || k == .flowSequenceEnd

/-- Whether a token ends a part of a pair inside of braces. -/
def endsFlowPart (k : Token.Kind) : Bool :=
  k == .flowEntry || k == .flowMappingEnd

/-- Takes the comma between two entries; `close` is the token that may come instead. -/
def takeComma (first : Bool) (cause : Token.Kind → ParseFault) : Step Unit := do
  if first then return
  let t ← peek
  match t.kind with
  | .flowEntry => let _ ← take
  | found => fail (cause found) (← innermost) t.start

/-- The end of a flow collection. -/
def flowEnd (kind : Event.Kind) : Step Event := do
  let t ← take
  leaveCollection
  return ⟨kind, t.start, t.stop⟩

/-- An entry inside of brackets, or their end. -/
def flowSequenceEntry (first : Bool) : Step Event := do
  if ← next (· == .flowSequenceEnd) then flowEnd .sequenceEnd
  else
    takeComma first .flowSequenceEntry
    let t ← peek
    match t.kind with
    | .key =>
      goto .pairKey
      return ⟨.mappingStart none .map .flow, t.start, t.stop⟩
    | .flowSequenceEnd => flowEnd .sequenceEnd
    | _ =>
      thenTo .flowSequenceEntry
      node false false

/-- The key of a pair inside of brackets. -/
def pairKey : Step Event := do
  let t ← take
  nodeOrEmpty (fun k => k == .value || endsPairPart k) false false .pairValue t.stop

/-- The value of a pair inside of brackets. -/
def pairValue : Step Event := do
  let t ← peek
  match t.kind with
  | .value =>
    let _ ← take
    nodeOrEmpty endsPairPart false false .pairEnd t.stop
  | _ =>
    goto .pairEnd
    return empty t.start

/-- The end of a pair inside of brackets. -/
def pairEnd : Step Event := do
  let t ← peek
  goto .flowSequenceEntry
  return ⟨.mappingEnd, t.start, t.start⟩

/-- A key inside of braces, or their end. -/
def flowMappingKey (first : Bool) : Step Event := do
  if ← next (· == .flowMappingEnd) then flowEnd .mappingEnd
  else
    takeComma first .flowMappingEntry
    let t ← peek
    match t.kind with
    | .key =>
      let _ ← take
      nodeOrEmpty (fun k => k == .value || endsFlowPart k) false false .flowMappingValue t.stop
    | .flowMappingEnd => flowEnd .mappingEnd
    | _ =>
      thenTo .flowMappingNoValue
      node false false

/-- A value inside of braces. -/
def flowMappingValue : Step Event := do
  let t ← peek
  match t.kind with
  | .value =>
    let _ ← take
    nodeOrEmpty endsFlowPart false false .flowMappingKey t.stop
  | _ =>
    goto .flowMappingKey
    return empty t.start

/-- Takes the token that opens a collection. -/
def opening : Step Unit := do
  let t ← take
  begin t.start

/-- The next event. -/
def step : Step Event := do
  match (← get).state with
  | .stream =>
    let t ← take
    goto .firstDocument
    return ⟨.streamStart, t.start, t.stop⟩
  | .firstDocument => firstDocument
  | .nextDocument => nextDocument
  | .documentContent => documentContent
  | .documentEnd => documentEnd
  | .blockNode => node true false
  | .blockSequenceFirst => do opening; blockSequenceEntry
  | .blockSequenceEntry => blockSequenceEntry
  | .bareSequenceEntry => bareSequenceEntry
  | .blockMappingFirst => do opening; blockMappingKey
  | .blockMappingKey => blockMappingKey
  | .blockMappingValue => blockMappingValue
  | .flowSequenceFirst => do opening; flowSequenceEntry true
  | .flowSequenceEntry => flowSequenceEntry false
  | .pairKey => pairKey
  | .pairValue => pairValue
  | .pairEnd => pairEnd
  | .flowMappingFirst => do opening; flowMappingKey true
  | .flowMappingKey => flowMappingKey false
  | .flowMappingValue => flowMappingValue
  | .flowMappingNoValue => do
    goto .flowMappingKey
    return empty (← peek).start
  | .finished => return ⟨.streamEnd, .zero, .zero⟩

/-- The events from a state on, at most `steps` of them. -/
def events : (steps : Nat) → Walker → EventFeed
  | 0, _ => ⟨[], none⟩
  | steps + 1, w =>
    match w.state with
    | .finished => ⟨[], none⟩
    | _ =>
      match step.run w with
      | .error e => ⟨[], some e⟩
      | .ok (e, w) =>
        let more := events steps w
        ⟨e :: more.items, more.fault⟩

end YamlEdit.Walk

namespace YamlEdit.EventFeed

/-- The events of a text. A token makes at most a start, an end and an empty key and value, and a
document two events, so their number is bounded by that of the tokens. -/
def ofText (s : Text) : EventFeed :=
  let feed := TokenFeed.ofText s
  Walk.events (8 * feed.items.length + 16)
    { source := s, tokens := feed.items, fault := feed.fault }

end YamlEdit.EventFeed
