import YamlEdit.Text.Lines
import YamlEdit.Tree.Basic

/-!
# Remarks

A remark is the comment that follows a node on its last line. That of a block scalar stands on its
header line, as all its further lines are content.
-/

namespace YamlEdit

/-- The comment on a line: where its number sign is, if there is one, and where the line ends. -/
structure Remark.Place where
  sign : Option Nat
  stop : Nat
deriving DecidableEq, Repr

namespace Remark

/-- Finds the comment on the rest of the line behind a position. -/
def scan (text : Text) (pos : Nat) : Place :=
  let rest := (text.drop pos).dropWhile fun c => c ≠ '#' && !Text.isBreak c
  let here := text.length - rest.length
  if rest.head? = some '#' then
    ⟨some here, text.length - (Text.fromBreak rest).length⟩
  else ⟨none, here⟩

/-- Where the words of a comment start, behind its number signs and spaces. -/
def bodyStart (text : Text) (sign : Nat) : Nat :=
  let rest := (text.drop sign).dropWhile fun c => c == '#' || c == ' '
  text.length - rest.length

/-- The words of the comment on the rest of a line, empty if there is no comment. -/
def read (text : Text) (pos : Nat) : Text :=
  let place := scan text pos
  match place.sign with
  | none => []
  | some sign => Text.slice text (bodyStart text sign) place.stop

/-- The text with other words in the comment on the rest of a line. A comment that is not there yet is
put at the end of the line. -/
def write (text : Text) (pos : Nat) (words : Text) : Text :=
  let place := scan text pos
  match place.sign with
  | none => text.take place.stop ++ " # ".toList ++ words ++ text.drop place.stop
  | some sign => text.take (bodyStart text sign) ++ words ++ text.drop place.stop

/-- Where the line that holds the remark of a node goes on behind the node. -/
def start (t : Tree) (n : Node) : Nat :=
  let last := t.lastWritten n
  match last.body with
  | .scalar _ _ quoting => if quoting.isBlock then last.content.index + 1 else last.stop.index
  | _ => last.stop.index

/-- The remark of a node, empty if it has none. -/
def get (t : Tree) (n : Node) : Text :=
  read t.text (start t n)

/-- The text with another remark for a node. -/
def set (t : Tree) (n : Node) (remark : Text) : Text :=
  write t.text (start t n) remark

end Remark

end YamlEdit
