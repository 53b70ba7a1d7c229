import YamlEdit.Number.Numeral
import YamlEdit.Time.Calendar

/-!
# Time stamps

The written form of dates and times: `2001-12-14`, or a date, a `T` or blanks, a time of day and
maybe `Z` or an offset. A line feed may end the text.
-/

namespace YamlEdit

/-- A written offset from universal time. -/
inductive Stamp.Zone where
  | utc
  | offset (negative : Bool) (hours minutes : Text)
deriving DecidableEq, Repr

/-- A written time of day. -/
structure Stamp.Clock where
  hour : Text
  minute : Text
  second : Text
  fraction : Text
  zone : Option Stamp.Zone
deriving DecidableEq, Repr

/-- The digits of a written date and time. -/
structure Stamp where
  year : Text
  month : Text
  day : Text
  clock : Option Stamp.Clock
deriving DecidableEq, Repr

namespace Stamp

/-- Takes from `least` to `most` digits, as many as there are. -/
def digits? (least most : Nat) (s : Text) : Option (Text × Text) :=
  let ds := (s.take most).takeWhile Char.isDigit
  if ds.length < least then none else some (ds, s.drop ds.length)

/-- Takes one given character. -/
def char? (c : Char) : Text → Option Text
  | d :: r => if d = c then some r else none
  | [] => none

/-- Whether the text ends here, or after one line feed. -/
def atEnd (s : Text) : Bool :=
  s.isEmpty || s == ['\n']

/-- The offset at the end of a stamp; the minutes are optional. -/
def zone? : Text → Option Zone
  | 'Z' :: r => if atEnd r then some .utc else none
  | c :: r =>
    if c == '+' || c == '-' then do
      let (hours, r) ← digits? 1 2 r
      if atEnd r then return .offset (c == '-') hours []
      let r ← char? ':' r
      let (minutes, r) ← digits? 2 2 r
      if atEnd r then return .offset (c == '-') hours minutes
      none
    else none
  | [] => none

/-- The fraction of a second and what follows it. -/
def fractionOf : Text → Text × Text
  | '.' :: r => (r.takeWhile Char.isDigit, r.dropWhile Char.isDigit)
  | s => ([], s)

/-- The time of day at the end of a stamp. -/
def clock? (s : Text) : Option Clock := do
  let (hour, s) ← digits? 1 2 s
  let s ← char? ':' s
  let (minute, s) ← digits? 2 2 s
  let s ← char? ':' s
  let (second, s) ← digits? 2 2 s
  let (fraction, s) := fractionOf s
  if atEnd s then return ⟨hour, minute, second, fraction, none⟩
  let zone ← zone? (s.dropWhile fun c => c == ' ' || c == '\t')
  return ⟨hour, minute, second, fraction, some zone⟩

/-- What is left after the mark between date and time: one `T` of either case, or blanks. -/
def afterGap? : Text → Option Text
  | c :: r =>
    if c == 'T' || c == 't' then some r
    else if c == ' ' || c == '\t' then some (r.dropWhile fun c => c == ' ' || c == '\t')
    else none
  | [] => none

/-- Reads a stamp. -/
def read? (s : Text) : Option Stamp := do
  let (year, s) ← digits? 4 4 s
  let s ← char? '-' s
  let (month, s) ← digits? 1 2 s
  let s ← char? '-' s
  let (day, s) ← digits? 1 2 s
  if atEnd s then return ⟨year, month, day, none⟩
  let clock ← clock? (← afterGap? s)
  return ⟨year, month, day, some clock⟩

/-- Whether a plain scalar of this form is a time stamp: a date alone needs two digits for the month
and two for the day. -/
def isImplicit (t : Stamp) : Bool :=
  t.clock.isSome || (t.month.length == 2 && t.day.length == 2)

/-- The number that digits spell; zero if there are none. -/
def number (s : Text) : Nat :=
  (Numeral.digitsFrom? 10 0 s).getD 0

/-- The offset in minutes. -/
def Zone.minutes : Zone → Int
  | utc => 0
  | offset negative hours minutes =>
    let size : Int := number hours * 60 + number minutes
    if negative then -size else size

/-- The calendar date of a stamp, whether or not it is in the calendar. -/
def date (t : Stamp) : Date :=
  ⟨number t.year, number t.month, number t.day⟩

/-- The time on a date; of the fraction the first six digits count. -/
def Clock.on (c : Clock) (date : Date) : DateTime :=
  let micro := c.fraction.take 6
  { date
    hour := number c.hour
    minute := number c.minute
    second := number c.second
    micro := number (micro ++ List.replicate (6 - micro.length) '0')
    offset := c.zone.map Zone.minutes }

end Stamp

end YamlEdit
