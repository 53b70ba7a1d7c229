import YamlEdit.Text.Position

/-!
# Drafts

A text that is edited through the positions it had at first. Every edit replaces a range of the
first text; `locate` says where a position of it lies in the text as it is now, so edits can be made
one after another without counting what the earlier ones moved. Any number is taken as a position;
those outside of the text are meant as cuts of it mean them.
-/

namespace YamlEdit

/-- One edit: the range of the first text that it replaced, and the length of what it put there. -/
structure Draft.Splice where
  start : Int
  stop : Int
  size : Nat
deriving DecidableEq, Repr

/-- By how much an edit moves what lies behind it. -/
def Draft.Splice.growth (e : Draft.Splice) : Int :=
  e.size - (e.stop - e.start)

/-- A text under edit. -/
structure Draft where
  /-- The text as it is now. -/
  text : Text
  /-- By how much all edits together changed its length. -/
  delta : Int := 0
  /-- The edits, first one first. -/
  edits : List Draft.Splice := []
deriving Repr, Inhabited

namespace Draft

/-- The draft of a text that nothing was done to. -/
def ofText (s : Text) : Draft :=
  { text := s }

/-- A position inside of a replaced range stands for the start of the range. -/
def outside (d : Draft) (pos : Int) : Int :=
  match d.edits.find? fun e => e.start < pos && pos < e.stop with
  | some e => e.start
  | none => pos

/-- By how much the edits that end at or before a position move it. -/
def shiftAt (d : Draft) (pos : Int) : Int :=
  (d.edits.filter fun e => e.stop ≤ pos).foldr (fun e shift => e.growth + shift) 0

/-- Where a position of the first text lies now. -/
def locate (d : Draft) (pos : Int) : Int :=
  let pos := d.outside pos
  pos + d.shiftAt pos

/-- Whether an edit replaced the character at a position of the first text. -/
def covers (d : Draft) (pos : Int) : Bool :=
  d.edits.any fun e => e.start ≤ pos && pos < e.stop

/-- By how much a new edit changes the length of the text. -/
def growthOf (d : Draft) (start stop : Int) (fragment : Text) : Int :=
  fragment.length - (d.locate stop - d.locate start)

/-- Replaces the range from `start` up to `stop` of the first text. -/
def splice (d : Draft) (start stop : Int) (fragment : Text) : Draft :=
  { text :=
      d.text.take (Text.place d.text (d.locate start)) ++ fragment ++
        d.text.drop (Text.place d.text (d.locate stop))
    delta := d.delta + d.growthOf start stop fragment
    edits := d.edits ++ [⟨start, stop, fragment.length⟩] }

/-- Whether a position of the first text lies at the start of a line now. After edits whose ranges
overlap it may lie outside of the text. -/
def atLineStart (d : Draft) (pos : Int) : Except Text.Outside Bool :=
  let here := d.locate pos
  if here == 0 then .ok true
  else
    match Text.charAt? d.text (here - 1) with
    | some c => .ok (Text.isBreak c)
    | none => .error ⟨here - 1⟩

@[simp] theorem locate_ofText (s : Text) (pos : Int) : (ofText s).locate pos = pos := by
  simp [locate, outside, shiftAt, ofText]

@[simp] theorem edits_splice (d : Draft) (start stop : Int) (fragment : Text) :
    (d.splice start stop fragment).edits = d.edits ++ [⟨start, stop, fragment.length⟩] := rfl

end Draft

end YamlEdit
