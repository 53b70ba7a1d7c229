import YamlEdit.Layout
import YamlEdit.Outline.Render
import YamlEdit.Value.Literal

/-!
# Fragments

Fresh text for a value, to be put into a document: the value's outline without the marks that end a
document of its own, in the line breaks of the document.
-/

namespace YamlEdit

/-- A value that has no spelling, because of itself or of a part of it. -/
structure UnknownValue where
  value : Value
  part : Option Value

/-- What is said about a value without a spelling. -/
def UnknownValue.message (e : UnknownValue) : Text :=
  "unknown value type: ".toList ++ e.value.typeName ++
    match e.part with
    | none => []
    | some part =>
      " (('cannot represent an object', ".toList ++ part.literal ++ "))".toList

/-- Why there is no fragment for a value. -/
inductive FragmentFault where
  | unknown (e : UnknownValue)
  | layout (fault : LayoutFault)

namespace Value

/-- The value as a document of its own. -/
def document (v : Value) (indent : Columns) (flow : Bool) : Except FragmentFault Text :=
  match indent.step, Outline.ofValue v with
  | .error fault, _ => .error (.layout fault)
  | .ok _, .error part => .error (.unknown ⟨v, some part⟩)
  | .ok step, .ok o =>
    if indent.isUsedFraction && o.isIndented flow then .error (.layout .columnsKind)
    else .ok (o.render step flow)

/-- A document without the end marker behind a bare scalar and without its last line feed. -/
def withoutEnd (s : Text) : Text :=
  let s := if "\n...\n".toList.isSuffixOf s then s.take (s.length - 4) else s
  if s.getLast? = some '\n' then s.dropLast else s

/-- A document of line feeds in another line break. -/
def inBreaks (s : Text) (lineBreak : Separator) : Except FragmentFault Text :=
  match lineBreak with
  | .text b => .ok (if b = ['\n'] then s else Text.replaceAll s ['\n'] b)
  | _ => .error (.layout .breakKind)

/-- The value in the line breaks and the indentation of a layout, in block form unless `flow`. -/
def dump (v : Value) (layout : Layout) (flow : Bool := false) : Except FragmentFault Text := do
  inBreaks (withoutEnd (← v.document layout.indent flow)) layout.lineBreak

/-- The value on one line where it is a scalar: a string between double quotes, anything else as it
is dumped. -/
def scalarText : Value → Except FragmentFault Text
  | str s => .ok (Outline.doubleQuoted s)
  | v => v.dump {}

end Value

end YamlEdit
