import YamlEdit.Path
import YamlEdit.Remark
import YamlEdit.Settle
import YamlEdit.Value.Tag

/-!
# Documents

A text that is edited through its value. Assigning a value changes only the parts of the text whose
content differs, and leaves comments, order, quotes and indentation of the rest as they are. The
changed text is loaded again before it is taken; if it does not load as the value, the value is
written out anew.
-/

namespace YamlEdit

/-- A text and the spelling of what is written into it. -/
structure Document where
  text : Text
  lineBreak : LineBreak := .lf
  /-- The indentation step of nested blocks. -/
  indent : Nat := 2
deriving Repr, Inhabited

/-- Why there is no document. -/
inductive DocumentError where
  /-- The text is a value of another type. -/
  | notText (found : Value)
  | lineBreak (found : Value)
  | indent (found : Value)

namespace DocumentError

/-- What is wrong. -/
def message : DocumentError → Text
  | notText found => "text should be a str, not ".toList ++ found.typeName
  | lineBreak found => "unsupported line break: ".toList ++ found.literal
  | indent found => "indent should be a positive int, not ".toList ++ found.literal

end DocumentError

namespace Document

/-- The line break that a setting asks for. -/
def lineBreakOf : Value → Except DocumentError LineBreak
  | .str s =>
    match LineBreak.ofText? s with
    | some b => .ok b
    | none => .error (.lineBreak (.str s))
  | v => .error (.lineBreak v)

/-- The indentation step that a setting asks for: a whole number from one on, where true counts as
one. -/
def indentOf (v : Value) : Except DocumentError Nat :=
  match v.index? with
  | some n => if 1 ≤ n then .ok n.toNat else .error (.indent v)
  | none => .error (.indent v)

/-- A document from settings of any type. -/
def create (text lineBreak indent : Value) : Except DocumentError Document := do
  match text with
  | .str s =>
    return ⟨s, ← lineBreakOf lineBreak, ← indentOf indent⟩
  | v => throw (.notText v)

/-- The layout of new text. -/
def layout (d : Document) : Layout :=
  .of d.lineBreak d.indent

/-- The value of a document, in a form that can be edited in place. -/
def load (d : Document) : Except LoadError Loaded :=
  YamlEdit.load d.text

/-- The value of a document. -/
def value (d : Document) : Except LoadError Value :=
  loadValue d.text

/-- Takes blanks away at a place where only blanks come before the end of a line; `blanks` are those
met right before, last one first. -/
def stripFrom (blanks : Text) : Text → Text
  | [] => []
  | c :: r =>
    if Text.isSpaceOrTab c then stripFrom (c :: blanks) r
    else if Text.isBreak c then c :: stripFrom [] r
    else blanks.reverse ++ c :: stripFrom [] r

/-- The text without blanks at the ends of lines. -/
def withoutTrailingBlanks (s : Text) : Text :=
  stripFrom [] s

/-- A value that loading gives, or its error. -/
def ofLoad {α : Type} : Except LoadError α → Noted PatchError α
  | .ok v => pure v
  | .error e => throw (.load e)

/-- The fragment for a value. -/
def dump (v : Value) (layout : Layout) : Noted PatchError Text :=
  match v.dump layout with
  | .ok s => pure s
  | .error e => throw (.ofFragment e)

/-- The tag that a value is written with. -/
def tagOf (v : Value) : Noted PatchError Tag :=
  match v.tag? with
  | some tag => pure tag
  | none => throw (.unknown ⟨v, none⟩)

/-- The text for the first value of a text without one; comments in it stay above the value. -/
def freshText (d : Document) (v : Value) : Noted PatchError Text := do
  Noted.note .fillingEmpty
  let _ ← tagOf v
  let fragment ← dump v d.layout
  let lineBreak := d.lineBreak.text
  if Text.isBlankText d.text then return fragment ++ lineBreak
  let ended := d.text.getLast?.any Text.isBreak
  return (if ended then d.text else d.text ++ lineBreak) ++ fragment ++ lineBreak

/-- The text if it loads as a value, and the value written out anew otherwise. -/
def checked (d : Document) (text : Text) (v : Value) : Noted PatchError Text := do
  let anew := do return (← dump v d.layout) ++ d.lineBreak.text
  match loadValue text with
  | .ok w =>
    if Value.equal w v then return text
    Noted.note .loadsOther
    anew
  | .error e =>
    if e.isAboutDocument then
      Noted.note (.doesNotLoad e.message)
      anew
    else throw (.load e)

/-- The changes that take the document's node from one value to another. -/
def rootChanges (ed : Editing) (root : Node) (tag : Tag) (old new : Value) : Patch Unit := do
  let oldTag := root.tag?.getD .null
  if tag ≠ oldTag then
    Patch.note (.rootChanges oldTag tag)
    if new.isCollection then Patch.replaceBlock ed root new
    else Patch.replacePrimitive ed root new
  else if tag.isScalar then
    Patch.note .replacingRoot
    Patch.replacePrimitive ed root new
  else
    Patch.note (.patchingRoot root.kind)
    Patch.patchNode ed root old new

/-- The text with the changes that a new value asks for, checked. -/
def patchedText (d : Document) (tree : Tree) (root : Node) (old new : Value) :
    Noted PatchError Text := do
  let tag ← tagOf new
  let ed : Editing := ⟨tree, d.layout⟩
  let draft ← Noted.patch ed (rootChanges ed root tag old new)
  Noted.note (.patched draft.delta)
  let text ←
    if tree.hasAlias then settleAliases draft.text new d.layout else pure draft.text
  d.checked text new

/-- Assigns a value. The unset mark makes the text empty. -/
def assign (d : Document) (v : Value) : Noted PatchError Document := do
  let current ← ofLoad d.value
  match v with
  | .unset =>
    Noted.note .unsetting
    return { d with text := [] }
  | v =>
    if Value.equal current v then return d
    let tree ← ofLoad (Tree.compose d.text)
    let text ←
      match tree.root? with
      | none => d.freshText v
      | some root => d.patchedText tree root current v
    return { d with text := withoutTrailingBlanks text }

/-- The remark of the node at a path, empty if there is no remark or no node. -/
def getRemark (d : Document) (path : List Segment) : Except LoadError Text := do
  let tree ← Tree.compose d.text
  match ← tree.find path with
  | some n => return Remark.get tree n
  | none => return []

/-- Sets the remark of the node at a path; none if there is no node. -/
def setRemark (d : Document) (path : List Segment) (remark : Text) :
    Except LoadError (Option Document) := do
  let tree ← Tree.compose d.text
  match ← tree.find path with
  | some n => return some { d with text := Remark.set tree n remark }
  | none => return none

/-- A document as log lines show it. -/
def literal (d : Document) : Text :=
  "Document(".toList ++ Text.quoted d.text ++ [')']

end Document

end YamlEdit
