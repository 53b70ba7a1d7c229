import YamlEdit.Load.Error
import YamlEdit.Number.Numeral
import YamlEdit.Value.Literal

/-!
# Paths

A path names a node by the keys and positions that lead to it from the document's own node. Dotted
text is cut at its points; the empty text names the document's node.
-/

namespace YamlEdit

/-- One step of a path: a text, or a number, a boolean or null as such. -/
abbrev Segment := Value

namespace Path

/-- The segments of a dotted path. -/
def split (path : Text) : List Segment :=
  if path.isEmpty then [] else (Text.splitOn path ['.']).map Value.str

/-- The text that a segment is compared with keys as. A number with more digits than numerals may have
has none, and that is an error. -/
def keyText : Segment → Except LoadError Text
  | .str s => .ok s
  | .int n =>
    if Numeral.maxDecimalDigits < (Text.ofNat n.natAbs).length then .error (.literal .malformed)
    else .ok (Text.ofInt n)
  | v => .ok v.literal

/-- The position that a segment names: a whole number, or a text of digits. A text with a digit that
no number may hold has none, and that is an error. -/
def position? : Segment → Except LoadError (Option Int)
  | .int n => .ok (some n)
  | .str s =>
    if !s.isEmpty && s.all Text.isDigitLike then
      match Numeral.int? 10 s with
      | some n => .ok (some n)
      | none => .error (.literal .malformed)
    else .ok none
  | _ => .ok none

end Path

namespace Tree

/-- The node that an alias stands for, or the error of one without a node. -/
def target (t : Tree) (n : Node) : Except LoadError Node :=
  match t.target? n with
  | some n => .ok n
  | none => .error (.compose ⟨.danglingAlias, t.text, none, none⟩)

/-- The value of the first scalar key with a text. -/
def lookupKey (t : Tree) (key : Text) : List (Nat × Nat) → Except LoadError (Option Node)
  | [] => .ok none
  | (k, v) :: r => do
    let n ← t.target ((t.node? k).getD default)
    match n.body with
    | .scalar _ text _ => if text = key then return t.node? v else lookupKey t key r
    | _ => lookupKey t key r

/-- The item at a position. -/
def lookupItem (t : Tree) (items : List Nat) (position : Option Int) : Option Node :=
  match position with
  | some n => if 0 ≤ n then (items[n.toNat]?).bind t.node? else none
  | none => none

/-- The node that one segment leads to from another. -/
def step (t : Tree) (n : Node) (segment : Segment) : Except LoadError (Option Node) := do
  let n ← t.target n
  match n.body with
  | .mapping _ _ pairs => t.lookupKey (← Path.keyText segment) pairs
  | .sequence _ _ items => return t.lookupItem items (← Path.position? segment)
  | _ => return none

/-- The node that a path leads to from another. -/
def follow (t : Tree) : (n : Node) → List Segment → Except LoadError (Option Node)
  | n, [] => .ok (some n)
  | n, segment :: r => do
    match ← t.step n segment with
    | some n => follow t n r
    | none => return none

/-- The node at a path, if there is one. -/
def find (t : Tree) (path : List Segment) : Except LoadError (Option Node) :=
  match t.root? with
  | some root => t.follow root path
  | none => .ok none

end Tree

end YamlEdit
