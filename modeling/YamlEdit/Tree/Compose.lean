import YamlEdit.Event.Walk
import YamlEdit.Load.Error
import YamlEdit.Tree.Span

/-!
# Composing a tree

Events become nodes in the order in which they come. A strict tree refuses an alias of an undefined
anchor and a second anchor of one name; a lenient one keeps both, and an alias stands for the last
node before it that has its name.
-/

namespace YamlEdit.Tree

/-- A collection whose end is still to come. -/
structure Open where
  index : Nat
  /-- Its children so far, last one first. -/
  children : List Nat := []
deriving Repr

/-- A tree under construction. -/
structure Builder where
  text : Text
  lenient : Bool
  nodes : Array Node := #[]
  /-- The anchored nodes by name, last one first. -/
  anchors : List (Text × Nat) := []
  /-- The open collections, innermost first. -/
  stack : List Open := []
  /-- A document was started. -/
  started : Bool := false

namespace Builder

/-- Adds a child to the innermost open collection. -/
def addChild (index : Nat) : List Open → List Open
  | [] => []
  | o :: r => { o with children := index :: o.children } :: r

/-- Adds a node below the innermost open collection. -/
def add (b : Builder) (anchor : Option Text) (start stop content : Mark) (body : Node.Body) :
    Builder :=
  let index := b.nodes.size
  let node : Node :=
    { index, parent := b.stack.head?.map (·.index), anchor, start, stop, content, body }
  { b with
    nodes := b.nodes.push node
    anchors := match anchor with | some name => (name, index) :: b.anchors | none => b.anchors
    stack := addChild index b.stack }

/-- Adds a collection, which stays open. -/
def enter (b : Builder) (anchor : Option Text) (e : Event) (frame : Frame) (body : Node.Body) :
    Builder :=
  let index := Span.collectionContent b.text (frame == .flow) e.stop.index
  let content := Span.markAt b.text index e.stop
  let added := b.add anchor e.start e.start content body
  { added with stack := ⟨b.nodes.size, []⟩ :: added.stack }

/-- The body of a collection with its children. -/
def fill (children : List Nat) : Node.Body → Node.Body
  | .sequence tag frame _ => .sequence tag frame children
  | .mapping tag frame _ => .mapping tag frame (Node.pairUp children)
  | body => body

/-- Ends the innermost open collection. -/
def close (b : Builder) (stop : Mark) : Builder :=
  match b.stack with
  | [] => b
  | o :: r =>
    { b with
      nodes := b.nodes.modify o.index fun n =>
        { n with stop, body := fill o.children.reverse n.body }
      stack := r }

/-- Adds a scalar. The text of a block scalar ends before the blanks that its token ends with. -/
def addScalar (b : Builder) (e : Event) (anchor : Option Text) (tag : Tag) (text : Text)
    (quoting : Quoting) : Builder :=
  let stop :=
    if quoting.isBlock then Span.withoutBlanks b.text e.start.index e.stop.index else e.stop.index
  let content := Span.scalarContent b.text e.start.index stop
  b.add anchor e.start (Span.markAt b.text stop e.stop) (Span.markAt b.text content e.start)
    (.scalar tag text quoting)

/-- The node that an alias stands for, with its tag. -/
def target? (b : Builder) (name : Text) : Option (Nat × Tag) := do
  let index ← b.anchors.lookup name
  let node ← b.nodes[index]?
  return (index, ← node.tag?)

/-- A fault at the start of an event. -/
def fault (b : Builder) (cause : ComposeFault) (e : Event) : LoadError :=
  .compose ⟨cause, b.text, none, some e.start⟩

/-- Refuses an anchor whose name is taken, unless lenient. -/
def checkAnchor (b : Builder) (e : Event) : Except LoadError Unit :=
  match e.kind.anchor? with
  | none => .ok ()
  | some name =>
    if (b.anchors.lookup name).isSome && !b.lenient then .error (b.fault (.duplicateAnchor name) e)
    else .ok ()

/-- Takes one event. -/
def step (b : Builder) (e : Event) : Except LoadError Builder := do
  b.checkAnchor e
  match e.kind with
  | .documentStart =>
    if b.started then throw (b.fault .secondDocument e)
    return { b with started := true }
  | .aliasOf name =>
    let target := b.target? name
    if target.isNone && !b.lenient then throw (b.fault (.undefinedAlias name) e)
    return b.add none e.start e.stop e.start (.aliasOf name target)
  | .scalar anchor tag text quoting => return b.addScalar e anchor tag text quoting
  | .sequenceStart anchor tag frame => return b.enter anchor e frame (.sequence tag frame [])
  | .mappingStart anchor tag frame => return b.enter anchor e frame (.mapping tag frame [])
  | .sequenceEnd | .mappingEnd => return b.close e.stop
  | .streamStart | .streamEnd | .documentEnd => return b

end Builder

/-- The tree of a feed of events. -/
def ofEvents (text : Text) (lenient : Bool) (feed : EventFeed) : Except LoadError Tree := do
  let b ← feed.items.foldlM Builder.step { text, lenient }
  match feed.fault with
  | some e => throw (.ofEvent e)
  | none => return ⟨text, b.nodes⟩

/-- The tree of a text. -/
def compose (text : Text) (lenient : Bool := false) : Except LoadError Tree :=
  match firstUnreadable? text with
  | some e => .error e
  | none => ofEvents text lenient (.ofText text)

/-- What a composed tree is built from: all events of its text, without a fault behind them. -/
theorem exists_of_compose {s : Text} {lenient : Bool} {t : Tree} (h : compose s lenient = .ok t) :
    ∃ b, (EventFeed.ofText s).items.foldlM Builder.step { text := s, lenient } = .ok b ∧
      (EventFeed.ofText s).fault = none ∧ t = ⟨s, b.nodes⟩ := by
  rw [compose] at h
  split at h
  · cases h
  · rw [ofEvents] at h
    cases built : (EventFeed.ofText s).items.foldlM Builder.step { text := s, lenient } with
    | error e =>
      rw [built] at h
      cases h
    | ok b =>
      rw [built] at h
      cases whole : (EventFeed.ofText s).fault with
      | some e =>
        rw [whole] at h
        cases h
      | none =>
        rw [whole] at h
        cases h
        exact ⟨b, rfl, rfl, rfl⟩

theorem text_of_compose {s : Text} {lenient : Bool} {t : Tree} (h : compose s lenient = .ok t) :
    t.text = s := by
  obtain ⟨b, -, -, rfl⟩ := exists_of_compose h
  rfl

end YamlEdit.Tree
