import YamlEdit.Number.Shortest
import YamlEdit.Text.Quoted
import YamlEdit.Value.Basic

/-!
# Values in log lines

The one-line spelling of a value in messages and log lines: quoted texts, brackets around lists,
braces around dictionaries and sets, and dates as calls of their constructors.
-/

namespace YamlEdit.Value

/-- Texts with commas between them. -/
def commas (parts : List Text) : Text :=
  ", ".toList.intercalate parts

/-- The spelling of a call with its arguments. -/
def call (name : String) (args : List Text) : Text :=
  name.toList ++ '(' :: commas args ++ [')']

/-- The spelling of an offset from universal time. -/
def offsetLiteral (minutes : Int) : Text :=
  if minutes = 0 then "datetime.timezone.utc".toList
  else
    let days := minutes.fdiv 1440
    let seconds := (minutes.fmod 1440) * 60
    let dayPart := if days = 0 then [] else ["days=".toList ++ Text.ofInt days]
    let secondPart := if seconds = 0 then [] else ["seconds=".toList ++ Text.ofInt seconds]
    call "datetime.timezone" [call "datetime.timedelta" (dayPart ++ secondPart)]

/-- The spelling of a date. -/
def dateLiteral (d : Date) : Text :=
  call "datetime.date" [Text.ofNat d.year, Text.ofNat d.month, Text.ofNat d.day]

/-- The spelling of a time; zero seconds and microseconds at the end are left out. -/
def dateTimeLiteral (t : DateTime) : Text :=
  let fields := [t.date.year, t.date.month, t.date.day, t.hour, t.minute].map Text.ofNat
  let tail :=
    if t.micro ≠ 0 then [Text.ofNat t.second, Text.ofNat t.micro]
    else if t.second ≠ 0 then [Text.ofNat t.second]
    else []
  let zone :=
    match t.offset with
    | none => []
    | some minutes => ["tzinfo=".toList ++ offsetLiteral minutes]
  call "datetime.datetime" (fields ++ tail ++ zone)

/-- The spelling of a tuple from its items; a single one is followed by a comma. -/
def tupleLiteral : List Text → Text
  | [x] => '(' :: x ++ ",)".toList
  | items => '(' :: commas items ++ [')']

/-- The spelling of a set from its members. -/
def setLiteral : List Text → Text
  | [] => "set()".toList
  | members => '\x7b' :: commas members ++ ['\x7d']

mutual

/-- The spelling of a value. -/
def literal : Value → Text
  | null => "None".toList
  | bool b => (if b then "True" else "False").toList
  | int n => Text.ofInt n
  | float x => x.text
  | nan => "nan".toList
  | str s => Text.quoted s
  | bytes b => Text.quotedBytes b
  | date _ d => dateLiteral d
  | dateTime _ t => dateTimeLiteral t
  | list _ items => '[' :: commas (literals items) ++ [']']
  | dict _ entries => '\x7b' :: commas (entryLiterals entries) ++ ['\x7d']
  | tuple _ items => tupleLiteral (literals items)
  | set _ members => setLiteral (literals members)
  | back _ => "[...]".toList
  | foreign => "<opaque>".toList
  | unset => "UNSET".toList

/-- The spellings of values. -/
def literals : List Value → List Text
  | [] => []
  | v :: r => literal v :: literals r

/-- The spellings of dictionary entries. -/
def entryLiterals : List (Value × Value) → List Text
  | [] => []
  | (k, v) :: r => (literal k ++ ": ".toList ++ literal v) :: entryLiterals r

end

end YamlEdit.Value
