import YamlEdit.Patch.Session

/-!
# Erasing and inserting lines

An entry is erased with its lines if it has them to itself, comments on them included. A fragment is
inserted on a new line behind a node, below a comment that follows the node on its last line.
-/

namespace YamlEdit

/-- Where new text can follow a node: at the end of its last line if only a comment follows on it,
and otherwise right behind it. -/
def Tree.appendPoint (t : Tree) (n : Node) : Nat :=
  let stop := (t.trueEnd n).index
  (Text.lineTail? t.text stop).getD stop

namespace Patch

/-- Removes the entry from `start` up to `stop`, with its lines if it owns them. At the end of the
text, where the last line has no break of its own, the break before it goes too, unless that was
replaced already. -/
def erase (ed : Editing) (start stop : Int) : Patch Unit := do
  let text := ed.tree.text
  let first := Text.lineStart text (Text.place text start)
  match ← ofPosition (Text.lineTailAt text stop) with
  | none => splice start stop []
  | some tail =>
    if !Text.isBlankText (Text.between text first start) then splice start stop []
    else
      let next := Text.skipBreakAt text tail
      if first == 0 || tail < next then splice first next []
      else if !(← draft).covers (first - 1) then splice (Text.breakBefore text first) tail []
      else splice first tail []

/-- Puts a fragment on a new line behind a node, at the column of the node. Where everything before
was erased up to the start of a line, the fragment takes that line. -/
def insertAfter (ed : Editing) (n : Node) (fragment : Text) : Patch Unit := do
  let point := ed.tree.appendPoint n
  let fragment ← indented ed fragment (.whole n.content.column)
  note (.inserting fragment.length point)
  let lineBreak ← lineBreak ed
  if ← ofPosition ((← draft).atLineStart point) then splice point point (fragment ++ lineBreak)
  else splice point point (lineBreak ++ fragment)

end Patch

end YamlEdit
