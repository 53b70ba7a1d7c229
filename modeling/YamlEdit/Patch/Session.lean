import YamlEdit.Draft
import YamlEdit.Fragment
import YamlEdit.Load.Construct
import YamlEdit.Notice
import YamlEdit.Value.Lookup

/-!
# Sessions

The setting of all changes to one text: the tree that its positions are taken from, the draft that
the changes are made in, and the notices about them. What was done before a change fails stays done.
-/

namespace YamlEdit

/-- Why a change could not be made. -/
inductive PatchError where
  | load (e : LoadError)
  | unknown (e : UnknownValue)
  | layout (fault : LayoutFault)
  /-- The old or the new value has another shape than the text. -/
  | lookup (fault : LookupFault)
  /-- A position lies outside of the text. -/
  | outside (e : Text.Outside)
  /-- The change is only for collections. -/
  | notCollection
  /-- The change is only for nodes inside of a collection. -/
  | notEntry
  /-- The change is for another kind of collection. -/
  | otherParts
  /-- The change is for pairs of nodes, and the node is a text. -/
  | notPairs

/-- The fault of making a fragment, as one of the change that needs it. -/
def PatchError.ofFragment : FragmentFault → PatchError
  | .unknown e => .unknown e
  | .layout fault => .layout fault

/-- The tree of a text, and the spelling of new text. -/
structure Editing where
  tree : Tree
  layout : Layout

/-- The changes made so far, and the notices about them, last one first. -/
structure Session where
  draft : Draft
  notices : List Notice := []

/-- A change. -/
abbrev Patch := ExceptT PatchError (StateM Session)

namespace Patch

/-- Reports something. -/
def note (n : Notice) : Patch Unit :=
  modify fun s => { s with notices := n :: s.notices }

/-- Replaces a range of the first text. -/
def splice (start stop : Int) (fragment : Text) : Patch Unit :=
  modify fun s => { s with draft := s.draft.splice start stop fragment }

/-- The draft as it is now. -/
def draft : Patch Draft := do
  return (← get).draft

/-- A value that loading gives, or its error. -/
def ofLoad {α : Type} : Except LoadError α → Patch α
  | .ok v => pure v
  | .error e => throw (.load e)

/-- What a value holds, or the fault of looking for it. -/
def ofLookup {α : Type} : Except LookupFault α → Patch α
  | .ok v => pure v
  | .error e => throw (.lookup e)

/-- What a position stands for, or the fault of one outside of the text. -/
def ofPosition {α : Type} : Except Text.Outside α → Patch α
  | .ok v => pure v
  | .error e => throw (.outside e)

/-- What a layout gives, or the fault of its setting. -/
def ofLayout {α : Type} : Except LayoutFault α → Patch α
  | .ok v => pure v
  | .error e => throw (.layout e)

/-- New text, or the fault of making it. -/
def ofFragment : Except FragmentFault Text → Patch Text
  | .ok s => pure s
  | .error e => throw (.ofFragment e)

/-- The fragment for a value. -/
def dump (ed : Editing) (v : Value) (flow : Bool := false) : Patch Text :=
  ofFragment (v.dump ed.layout flow)

/-- A text of several lines behind some columns of spaces. -/
def indented (ed : Editing) (s : Text) (columns : Columns) : Patch Text :=
  ofLayout (ed.layout.indented s columns)

/-- The line break of new text. -/
def lineBreak (ed : Editing) : Patch Text :=
  ofLayout ed.layout.breakText

end Patch

namespace Editing

/-- The node at a place of the row. -/
def node (ed : Editing) (index : Nat) : Node :=
  (ed.tree.node? index).getD default

/-- Where the text of a node ends. -/
def trueEnd (ed : Editing) (n : Node) : Nat :=
  (ed.tree.trueEnd n).index

end Editing

end YamlEdit
