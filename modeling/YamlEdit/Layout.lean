import YamlEdit.Number.Binary64
import YamlEdit.Text.Lines
import YamlEdit.Value.Basic

/-!
# Layouts

How new text is spelled: what stands between its lines, and how far a nested block goes in. A layout
holds what was asked for, of whatever kind, and a setting of the wrong kind is a fault only where
the setting is used. `Layout.of` gives the layouts that can have no fault.
-/

namespace YamlEdit

/-- What is to stand between the lines of new text. -/
inductive Separator where
  | text (s : Text)
  /-- Bytes, which join bytes and no text. -/
  | bytes
  /-- Anything else, which joins nothing. -/
  | other
deriving DecidableEq, Repr, Inhabited

/-- A number of columns. -/
inductive Columns where
  | whole (n : Int)
  /-- A floating-point number. -/
  | fraction (x : Binary64)
  /-- A value that counts as nothing, such as null. -/
  | absent
  | other
deriving DecidableEq, Repr, Inhabited

/-- Why a setting of a layout cannot be used. -/
inductive LayoutFault where
  /-- An empty line break cuts no text into lines. -/
  | emptyBreak
  /-- The line break is no text. -/
  | breakKind
  /-- The line break is nothing that joins lines. -/
  | breakJoins
  /-- The number of columns is no whole number. -/
  | columnsKind
  /-- The number of columns is larger than any line is long. -/
  | columnsRange
deriving DecidableEq, Repr

/-- The spelling of new text: its line break, and the indentation step of nested blocks. -/
structure Layout where
  lineBreak : Separator := .text ['\n']
  indent : Columns := .whole 2
deriving DecidableEq, Repr, Inhabited

/-- The separator that a setting is. -/
def Separator.ofValue : Value → Separator
  | .str s => .text s
  | .bytes _ => .bytes
  | _ => .other

namespace Columns

/-- The number of columns that a setting is; true counts as one and false as zero. -/
def ofValue : Value → Columns
  | .bool b => .whole (if b then 1 else 0)
  | .int n => .whole n
  | .float x => .fraction x
  | .nan => .fraction .nan
  | v => if v.isNothing then .absent else .other

/-- The column that lies so many columns behind another. -/
def behind (column : Nat) : Columns → Except LayoutFault Columns
  | whole n => .ok (.whole (column + n))
  | fraction x => .ok (.fraction x)
  | _ => .error .columnsKind

/-- The step of nested blocks, zero where none is asked for. A fraction counts as two columns as
long as nothing is indented by it. -/
def step : Columns → Except LayoutFault Nat
  | whole n => .ok n.toNat
  | fraction _ => .ok 2
  | absent => .ok 0
  | other => .error .columnsKind

/-- Whether a step is a fraction that blocks would be indented by; others are not used at all. -/
def isUsedFraction : Columns → Bool
  | fraction x => x.isBetween 1 10
  | _ => false

/-- More characters than any line has. -/
def limit : Nat := 9223372036854775808

/-- The number of columns as a number of spaces to write; none are written for less than one. -/
def spaces : Columns → Except LayoutFault Nat
  | whole n => if n < -limit ∨ (limit : Int) ≤ n then .error .columnsRange else .ok n.toNat
  | _ => .error .columnsKind

end Columns

namespace Layout

/-- The layout of a line break and a step. -/
def of (lineBreak : LineBreak) (indent : Nat) : Layout :=
  ⟨.text lineBreak.text, .whole indent⟩

/-- The layout of settings of any kind. -/
def ofValues (lineBreak indent : Value) : Layout :=
  ⟨.ofValue lineBreak, .ofValue indent⟩

/-- The line break as text. -/
def breakText (l : Layout) : Except LayoutFault Text :=
  match l.lineBreak with
  | .text s => .ok s
  | _ => .error .breakKind

/-- The lines of a text behind some columns of spaces. -/
def indented (l : Layout) (s : Text) (columns : Columns) : Except LayoutFault Text := do
  let depth ← columns.spaces
  match l.lineBreak with
  | .text [] => .error .emptyBreak
  | .text lineBreak => .ok (s.indent depth lineBreak)
  | .bytes => .error .breakKind
  | .other => .error .breakJoins

@[simp] theorem breakText_of (b : LineBreak) (indent : Nat) :
    (of b indent).breakText = .ok b.text :=
  rfl

/-- A layout of a line break indents every text by every number of columns that lines have. -/
theorem indented_of (b : LineBreak) (indent : Nat) (s : Text) (n : Nat) (h : n < Columns.limit) :
    (of b indent).indented s (.whole n) = .ok (s.indent n b.text) := by
  have range : ¬ ((n : Int) < -Columns.limit ∨ (Columns.limit : Int) ≤ n) := by omega
  have spaces : (Columns.whole n).spaces = .ok n := by
    rw [Columns.spaces, if_neg range, Int.toNat_natCast]
  cases b <;> simp [indented, spaces, of, LineBreak.text, bind, Except.bind]

end Layout

end YamlEdit
