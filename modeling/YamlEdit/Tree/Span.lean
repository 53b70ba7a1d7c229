import YamlEdit.Text.Lines
import YamlEdit.Token.Basic

/-!
# Spans of nodes

Places that tokens do not show: where a block scalar's text ends, and where a node begins behind its
anchor and tag. They are found in the text, and their lines are counted from a place nearby.
-/

namespace YamlEdit.Span

/-- Whether a character is a blank of the editor. -/
def isBlank (c : Char) : Bool :=
  c == ' ' || c == '\t' || c == '\r' || c == '\n'

/-- The mark of a position, counted from the mark of another. -/
def markAt (text : Text) (index : Nat) (near : Mark) : Mark :=
  if index = near.index then near
  else
    let column := index - Text.lineStart text index
    let feeds := fun start stop : Nat => (Text.slice text start stop).count '\n'
    if index < near.index then ⟨index, near.line - feeds index near.index, column⟩
    else ⟨index, near.line + feeds near.index index, column⟩

/-- The end of a span without the blanks at its end. -/
def withoutBlanks (text : Text) (start stop : Nat) : Nat :=
  start + (Text.dropEndWhile (Text.slice text start stop) isBlank).length

/-- Where a reader of anchors and tags is. -/
inductive Place where
  | start
  | property
  | gap
  | comment
deriving DecidableEq, Repr

/-- How many characters the anchors and tags at the start of a text take, with the blanks and
comments behind them. -/
def propertiesFrom (place : Place) (s : Text) : Nat :=
  match s with
  | [] => 0
  | c :: r =>
    let opens := c == '&' || c == '!'
    match place with
    | .start => if opens then 1 + propertiesFrom .property r else 0
    | .property => 1 + propertiesFrom (if isBlank c then .gap else .property) r
    | .gap =>
      if isBlank c then 1 + propertiesFrom .gap r
      else if c == '#' then 1 + propertiesFrom .comment r
      else if opens then 1 + propertiesFrom .property r
      else 0
    | .comment => 1 + propertiesFrom (if Text.isBreak c then .gap else .comment) r
termination_by structural s

/-- Where a scalar begins behind its anchor and tag. -/
def scalarContent (text : Text) (start stop : Nat) : Nat :=
  start + propertiesFrom .start (Text.slice text start stop)

/-- Where a collection begins behind its anchor and tag, given the end of its first token: at the
bracket or brace before it, at the dash before it, or right there at a key. -/
def collectionContent (text : Text) (flow : Bool) (index : Nat) : Nat :=
  if flow then index - 1
  else if Text.slice text (index - 1) index = ['-'] ∧ Text.slice text index (index + 1) ≠ ['-'] then
    index - 1
  else index

theorem le_scalarContent (text : Text) (start stop : Nat) : start ≤ scalarContent text start stop :=
  Nat.le_add_right ..

end YamlEdit.Span
