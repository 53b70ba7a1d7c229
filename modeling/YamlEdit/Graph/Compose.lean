import YamlEdit.Event.Walk
import YamlEdit.Graph.Basic
import YamlEdit.Load.Error

/-!
# Composing a graph

Events become the nodes of a graph, where an alias leads to the anchored node itself.
-/

namespace YamlEdit.Graph

/-- A collection whose end is still to come. -/
structure Open where
  vertex : Nat
  isMapping : Bool
  /-- Its children so far, last one first. -/
  children : List Nat := []
deriving Repr

/-- A graph under construction. -/
structure Builder where
  text : Text
  vertices : Array Vertex := #[]
  /-- The anchored nodes by name. -/
  anchors : List (Text × Nat) := []
  /-- The open collections, innermost first. -/
  stack : List Open := []
  /-- A document was started. -/
  started : Bool := false

namespace Builder

/-- Leads from the innermost open collection to a node. -/
def lead (b : Builder) (vertex : Nat) : Builder :=
  match b.stack with
  | [] => b
  | o :: r => { b with stack := { o with children := vertex :: o.children } :: r }

/-- Adds a node. -/
def add (b : Builder) (e : Event) (anchor : Option Text) (tag : Tag) (body : Vertex.Body) :
    Builder :=
  let vertex := b.vertices.size
  let b := b.lead vertex
  { b with
    vertices := b.vertices.push ⟨tag, some e.start, body⟩
    anchors := match anchor with | some name => (name, vertex) :: b.anchors | none => b.anchors }

/-- Adds a collection, which stays open. -/
def enter (b : Builder) (e : Event) (anchor : Option Text) (tag : Tag) (isMapping : Bool) :
    Builder :=
  let added := b.add e anchor tag (if isMapping then .mapping [] else .sequence [])
  { added with stack := ⟨b.vertices.size, isMapping, []⟩ :: added.stack }

/-- Ends the innermost open collection. -/
def close (b : Builder) : Builder :=
  match b.stack with
  | [] => b
  | o :: r =>
    let children := o.children.reverse
    let body : Vertex.Body :=
      if o.isMapping then .mapping (Node.pairUp children) else .sequence children
    { b with vertices := b.vertices.modify o.vertex fun v => { v with body }, stack := r }

/-- Where an anchored node begins. -/
def startOf (b : Builder) (vertex : Nat) : Option Mark :=
  (b.vertices[vertex]?).bind (·.start)

/-- Refuses an anchor whose name is taken. -/
def checkAnchor (b : Builder) (e : Event) : Except LoadError Unit :=
  match e.kind.anchor? with
  | none => .ok ()
  | some name =>
    match b.anchors.lookup name with
    | some first =>
      .error (.compose ⟨.duplicateAnchor name, b.text, b.startOf first, some e.start⟩)
    | none => .ok ()

/-- Takes one event. -/
def step (b : Builder) (e : Event) : Except LoadError Builder := do
  b.checkAnchor e
  match e.kind with
  | .documentStart =>
    if b.started then throw (.compose ⟨.secondDocument, b.text, b.startOf 0, some e.start⟩)
    return { b with started := true }
  | .aliasOf name =>
    match b.anchors.lookup name with
    | none => throw (.compose ⟨.undefinedAlias name, b.text, none, some e.start⟩)
    | some vertex => return b.lead vertex
  | .scalar anchor tag text _ => return b.add e anchor tag (.scalar text)
  | .sequenceStart anchor tag _ => return b.enter e anchor tag false
  | .mappingStart anchor tag _ => return b.enter e anchor tag true
  | .sequenceEnd | .mappingEnd => return b.close
  | .streamStart | .streamEnd | .documentEnd => return b

end Builder

/-- The graph of a text; it has no nodes if the text has no document. -/
def compose (text : Text) : Except LoadError Graph :=
  match firstUnreadable? text with
  | some e => .error e
  | none => do
    let feed := EventFeed.ofText text
    let b ← feed.items.foldlM Builder.step { text }
    match feed.fault with
    | some e => throw (.ofEvent e)
    | none => return { text, vertices := b.vertices }

end YamlEdit.Graph
