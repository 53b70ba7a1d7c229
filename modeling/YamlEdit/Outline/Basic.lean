import YamlEdit.Number.Shortest
import YamlEdit.Tag.Basic
import YamlEdit.Text.Base64
import YamlEdit.Value.Basic

/-!
# Outlines

A value on its way to text: nodes with their tags, and with an anchor where a later alias refers
back to them. Objects that a value holds more than once are written once, under the anchors `id001`,
`id002` and so on in the order in which they are met again.
-/

namespace YamlEdit

/-- The style that a scalar asks for. -/
inductive Outline.Style where
  /-- As plain as its text allows. -/
  | any
  | doubleQuoted
  /-- A block that keeps its lines. -/
  | literal
deriving DecidableEq, Repr

/-- A node to be written. -/
inductive Outline where
  | aliasOf (anchor : Text)
  | scalar (anchor : Option Text) (tag : Tag) (text : Text) (style : Outline.Style)
  | sequence (anchor : Option Text) (items : List Outline)
  | mapping (anchor : Option Text) (tag : Tag) (pairs : List (Outline × Outline))
deriving Inhabited

namespace Outline

/-- The objects of a value met so far, each with the number of its anchor once it was met again. -/
structure Census where
  met : List (Nat × Option Nat) := []
  anchors : Nat := 0

/-- Whether an object was met. -/
def Census.has (c : Census) (id : Nat) : Bool :=
  c.met.any fun e => e.1 == id

/-- Meets an object for the first time. -/
def Census.enter (c : Census) (id : Nat) : Census :=
  { c with met := (id, none) :: c.met }

/-- Meets an object again: it gets the next anchor unless it has one. -/
def Census.again (c : Census) (id : Nat) : Census :=
  if c.met.any fun e => e.1 == id && e.2.isNone then
    { met := c.met.map fun e => if e.1 == id then (e.1, some (c.anchors + 1)) else e
      anchors := c.anchors + 1 }
  else c

/-- The name of an anchor by its number. -/
def anchorName (n : Nat) : Text :=
  'i' :: 'd' :: Text.padded 3 n

/-- The anchor that an object needs. -/
def Census.anchor? (c : Census) (id : Nat) : Option Text :=
  match c.met.find? fun e => e.1 == id with
  | some (_, some n) => some (anchorName n)
  | _ => none

/-- The identity under which a value can be shared. The empty tuple is never shared. -/
def shareId? : Value → Option Nat
  | .date id _ | .dateTime id _ | .list id _ | .dict id _ | .set id _ => id
  | .tuple id items => if items.isEmpty then none else id
  | _ => none

mutual

/-- Counts the objects of a value, in the order in which they are written. -/
def census (c : Census) (v : Value) : Census :=
  match v with
  | .back id => c.again id
  | .date (some id) _ | .dateTime (some id) _ => if c.has id then c.again id else c.enter id
  | .list id items | .set id items =>
    match id with
    | none => censusItems c items
    | some id => if c.has id then c.again id else censusItems (c.enter id) items
  | .tuple id items =>
    match id with
    | none => censusItems c items
    | some id =>
      if items.isEmpty then c
      else if c.has id then c.again id else censusItems (c.enter id) items
  | .dict id entries =>
    match id with
    | none => censusEntries c entries
    | some id => if c.has id then c.again id else censusEntries (c.enter id) entries
  | _ => c
termination_by structural v

/-- Counts the objects of values. -/
def censusItems (c : Census) (items : List Value) : Census :=
  match items with
  | [] => c
  | v :: r => censusItems (census c v) r
termination_by structural items

/-- Counts the objects of dictionary entries. -/
def censusEntries (c : Census) (entries : List (Value × Value)) : Census :=
  match entries with
  | [] => c
  | (k, v) :: r => censusEntries (census (census c k) v) r
termination_by structural entries

end

/-- The text of a floating-point number: one with an exponent always has a point too. -/
def floatText (x : Binary64) : Text :=
  match x with
  | .nan => ".nan".toList
  | .infinite negative => (if negative then "-.inf" else ".inf").toList
  | x =>
    let s := x.text
    if s.contains '.' then s
    else s.flatMap fun c => if c == 'e' then ".0e".toList else [c]

/-- A scalar without an anchor. -/
def leaf (tag : Tag) (text : Text) : Outline :=
  .scalar none tag text .any

/-- A part of a value that cannot be written: a foreign object or the unset mark. -/
abbrev Unwritable := Value

/-- Writes an object that may be shared: as an alias once it is among those written, and with the
anchor it needs otherwise. -/
def buildShared (c : Census) (done : List Nat) (id : Option Nat)
    (body : Option Text → List Nat → Except Unwritable (Outline × List Nat)) :
    Except Unwritable (Outline × List Nat) :=
  match id with
  | none => body none done
  | some id =>
    if done.contains id then .ok (.aliasOf ((c.anchor? id).getD []), done)
    else body (c.anchor? id) (id :: done)

mutual

/-- The outline of a value, given the anchors of its objects and those written already. The first
part of a value that cannot be written is the error. -/
def build (c : Census) (done : List Nat) (v : Value) : Except Unwritable (Outline × List Nat) :=
  match v with
  | .null => .ok (leaf .null "null".toList, done)
  | .bool b => .ok (leaf .bool (if b then "true" else "false").toList, done)
  | .int n => .ok (leaf .int (Text.ofInt n), done)
  | .float x => .ok (leaf .float (floatText x), done)
  | .nan => .ok (leaf .float ".nan".toList, done)
  | .str s => .ok (leaf .str s, done)
  | .bytes b => .ok (.scalar none .binary (Base64.encodeLines b) .literal, done)
  | .date id d => buildShared c done id fun anchor done =>
    .ok (.scalar anchor .timestamp d.text .any, done)
  | .dateTime id t => buildShared c done id fun anchor done =>
    .ok (.scalar anchor .timestamp (t.text ' ') .any, done)
  | .list id items => buildShared c done id fun anchor done => do
    let (items, done) ← buildItems c done items
    return (.sequence anchor items, done)
  | .tuple id items => buildShared c done (if items.isEmpty then none else id) fun anchor done => do
    let (items, done) ← buildItems c done items
    return (.sequence anchor items, done)
  | .set id members => buildShared c done id fun anchor done => do
    let (members, done) ← buildItems c done members
    return (.mapping anchor .set (members.map fun m => (m, leaf .null "null".toList)), done)
  | .dict id entries => buildShared c done id fun anchor done => do
    let (pairs, done) ← buildEntries c done entries
    return (.mapping anchor .map pairs, done)
  | .back id => .ok (.aliasOf ((c.anchor? id).getD []), done)
  | .foreign => .error .foreign
  | .unset => .error .unset
termination_by structural v

/-- The outlines of values. -/
def buildItems (c : Census) (done : List Nat) (items : List Value) :
    Except Unwritable (List Outline × List Nat) :=
  match items with
  | [] => .ok ([], done)
  | v :: r => do
    let (o, done) ← build c done v
    let (r, done) ← buildItems c done r
    return (o :: r, done)
termination_by structural items

/-- The outlines of dictionary entries. -/
def buildEntries (c : Census) (done : List Nat) (entries : List (Value × Value)) :
    Except Unwritable (List (Outline × Outline) × List Nat) :=
  match entries with
  | [] => .ok ([], done)
  | (k, v) :: r => do
    let (key, done) ← build c done k
    let (value, done) ← build c done v
    let (r, done) ← buildEntries c done r
    return ((key, value) :: r, done)
termination_by structural entries

end

/-- The outline of a value. -/
def ofValue (v : Value) : Except Unwritable Outline :=
  (build (census {} v) [] v).map (·.1)

end Outline

end YamlEdit
