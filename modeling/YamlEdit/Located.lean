import YamlEdit.Mark
import YamlEdit.Text.Quoted

/-!
# Complaints about a text

A cause with the places that belong to it: where the construct began that could not be read, and
where reading it failed.
-/

namespace YamlEdit

/-- A cause that knows its wording. -/
class Complaint (κ : Type) where
  /-- What was being read. -/
  context? : κ → Option Text
  /-- What is wrong. -/
  problem : κ → Text

/-- A cause and its places in a text; either place may be unknown. -/
structure Located (κ : Type) where
  cause : κ
  source : Text
  /-- Where the construct began. -/
  began : Option Mark
  /-- Where reading it failed. -/
  failed : Option Mark

namespace Located

variable {κ : Type}

/-- Whether the place where the construct began is worth showing: it is not the line and column
where reading failed. -/
def showsBegan (e : Located κ) : Bool :=
  match e.began, e.failed with
  | some b, some f => b.line != f.line || b.column != f.column
  | _, _ => true

/-- The lines of the message: context, its place, problem, its place. -/
def message [Complaint κ] (e : Located κ) : Text :=
  let began := if e.showsBegan then e.began.map (·.describe e.source) else none
  let parts :=
    [Complaint.context? e.cause, began, some (Complaint.problem e.cause),
      e.failed.map (·.describe e.source)]
  ['\n'].intercalate (parts.filterMap id)

end Located

/-- How a message shows the character that was found; the end of the text shows as a zero. -/
def foundChar (found : Option Char) : Text :=
  Text.quoted [found.getD '\x00']

end YamlEdit
