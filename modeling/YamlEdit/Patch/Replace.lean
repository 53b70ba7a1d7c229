import YamlEdit.Patch.Lines

/-!
# Replacing nodes

New text in the place of a node, by where the node sits. Tags of the old node are dropped and its
anchor is kept, so that aliases of it stay defined.
-/

namespace YamlEdit

/-- What a node holds, as notices show it: the text of a scalar, the place of an alias's node, and
the places of a collection's children. -/
def Node.shown (n : Node) : Text :=
  let places := fun parts : List Text => '[' :: Value.commas parts ++ [']']
  match n.body with
  | .scalar _ text _ => Text.quoted text
  | .sequence _ _ items => places (items.map Text.ofNat)
  | .mapping _ _ pairs =>
    places (pairs.map fun p => Value.tupleLiteral [Text.ofNat p.1, Text.ofNat p.2])
  | .aliasOf _ none => Value.literal .null
  | .aliasOf _ (some (index, _)) => Text.ofNat index

namespace Patch

/-- A text behind the anchor of a node. -/
def anchored (n : Node) (s : Text) : Text :=
  match n.anchor with
  | none => s
  | some name => '&' :: name ++ ' ' :: s

/-- Text for a value to stand where a node starts, its further lines at a column. A block collection
with an anchor starts on the line below the anchor. -/
def renderAt (ed : Editing) (n : Node) (v : Value) (column : Int) : Patch Text := do
  let fragment ← indented ed (← dump ed v) (.whole column)
  let inLine := anchored n (fragment.drop (Text.place fragment column))
  match n.anchor with
  | some name =>
    if v.hasEntries then return '&' :: name ++ (← lineBreak ed) ++ fragment else return inLine
  | none => return inLine

/-- Replaces a node by a scalar on one line. An empty node is set off from what comes before it. -/
def replacePrimitive (ed : Editing) (n : Node) (v : Value) : Patch Unit := do
  let start := n.start.index
  let stop := ed.trueEnd n
  let literal := anchored n (← ofFragment v.scalarText)
  let touches := start == stop && 0 < start &&
    !(ed.tree.text.drop (start - 1)).head?.any Text.isSpaceOrTab
  splice start stop (if touches then ' ' :: literal else literal)

/-- Replaces the document's node by a block. A collection goes below what leads the node's line,
such as the mark of a document. -/
def replaceBlock (ed : Editing) (n : Node) (v : Value) : Patch Unit := do
  if n.isAlias then throw .notCollection
  let text := ed.tree.text
  let start := n.start.index
  let column := if n.kind == .scalar || n.isFlow then 0 else n.content.column
  let fragment ← renderAt ed n v column
  let led := !Text.isBlankText (Text.slice text (Text.lineStart text start) start)
  let fragment ←
    if n.anchor.isNone && v.hasEntries && led then
      pure ((← lineBreak ed) ++ (← indented ed (← dump ed v) (.whole column)))
    else pure fragment
  note (.replacingBlock n.kind n.start)
  splice start (ed.trueEnd n) fragment

/-- Writes a collection anew in flow form. -/
def replaceFlow (ed : Editing) (n : Node) (v : Value) : Patch Unit := do
  splice n.start.index n.stop.index (anchored n (← dump ed v true))

/-- Replaces the value of a key, from the end of the key on. -/
def replaceValue (ed : Editing) (key n : Node) (v : Value) : Patch Unit := do
  let head : Text :=
    match n.anchor with
    | none => [':']
    | some name => ':' :: ' ' :: '&' :: name
  let fragment ←
    if v.hasEntries then
      let depth ← ofLayout (ed.layout.indent.behind key.start.column)
      let head := head ++ (← lineBreak ed)
      pure (head ++ (← indented ed (← dump ed v) depth))
    else if v.isCollection then pure (head ++ ' ' :: (← dump ed v))
    else pure (head ++ ' ' :: (← ofFragment v.scalarText))
  note (.replacingValue key.shown n.start)
  splice key.stop.index (ed.trueEnd n) fragment

/-- Replaces an entry of a block sequence behind its dash, which stays. -/
def replaceItem (ed : Editing) (n : Node) (v : Value) : Patch Unit := do
  let some parent := n.parent | throw .notEntry
  let text := ed.tree.text
  let column := (ed.node parent).content.column
  let start := n.start.index
  let stop := ed.trueEnd n
  let dash ← ofPosition (Text.dashBefore text start column)
  if (Text.between text dash start).any Text.isBreak then
    splice start stop (← renderAt ed n v n.start.column)
  else
    let depth := dash - Text.lineStart text (Text.place text dash) + 2
    splice (dash + 1) stop (' ' :: (← renderAt ed n v depth))

/-- Replaces a node wherever it sits: in a flow collection, under a key, as an entry of a sequence
or as the document's node. -/
def replaceWhole (ed : Editing) (n : Node) (v : Value) (key : Option Node) : Patch Unit := do
  let parent := n.parent.map ed.node
  if parent.any Node.isFlow then
    let literal ← if v.isCollection then dump ed v true else ofFragment v.scalarText
    splice n.start.index (ed.trueEnd n) (anchored n literal)
  else
    match key with
    | some key => replaceValue ed key n v
    | none =>
      if parent.isSome then replaceItem ed n v
      else if v.isCollection then replaceBlock ed n v
      else replacePrimitive ed n v

end Patch

end YamlEdit
