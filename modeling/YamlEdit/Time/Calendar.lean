import YamlEdit.Text.Basic

/-!
# Dates and times

Dates of the Gregorian calendar from year 1 to 9999, and times of a day on them, with or without an
offset from universal time. Two times with offsets are equal when they are the same instant.
-/

namespace YamlEdit

/-- A calendar date. -/
structure Date where
  year : Nat
  month : Nat
  day : Nat
deriving DecidableEq, Repr, Inhabited

/-- A time on a date, to the microsecond; the offset from universal time is in minutes. -/
structure DateTime where
  date : Date
  hour : Nat
  minute : Nat
  second : Nat
  micro : Nat
  offset : Option Int
deriving DecidableEq, Repr, Inhabited

namespace Date

/-- Whether a year has a 29th of February. -/
def isLeap (year : Nat) : Bool :=
  year % 4 == 0 && (year % 100 != 0 || year % 400 == 0)

/-- The number of days of a month. -/
def daysIn (year month : Nat) : Nat :=
  match month with
  | 2 => if isLeap year then 29 else 28
  | 4 | 6 | 9 | 11 => 30
  | _ => 31

/-- Whether the date is in the calendar. -/
def isValid (d : Date) : Bool :=
  1 ≤ d.year && d.year ≤ 9999 && 1 ≤ d.month && d.month ≤ 12 &&
    1 ≤ d.day && d.day ≤ daysIn d.year d.month

/-- The number of the day, counted from the first day of year 1 as day 1. -/
def ordinal (d : Date) : Nat :=
  let years := d.year - 1
  let months := (List.range (d.month - 1)).foldr (fun m days => daysIn d.year (m + 1) + days) 0
  years * 365 + years / 4 - years / 100 + years / 400 + months + d.day

/-- Year, month and day with hyphens between them. -/
def text (d : Date) : Text :=
  Text.padded 4 d.year ++ '-' :: Text.padded 2 d.month ++ '-' :: Text.padded 2 d.day

end Date

namespace DateTime

/-- Whether date, time and offset are in their ranges; an offset stays below one day. -/
def isValid (t : DateTime) : Bool :=
  t.date.isValid && t.hour < 24 && t.minute < 60 && t.second < 60 && t.micro < 1000000 &&
    match t.offset with
    | none => true
    | some minutes => minutes.natAbs < 24 * 60

/-- The microsecond of a time without regard to its offset. -/
def localMicros (t : DateTime) : Int :=
  (((t.date.ordinal * 24 + t.hour) * 60 + t.minute) * 60 + t.second) * 1000000 + t.micro

/-- Whether two times are the same: the same instant if both have an offset, the same fields if none
has one. -/
def sameTime (t u : DateTime) : Bool :=
  match t.offset, u.offset with
  | none, none => t.localMicros == u.localMicros
  | some a, some b => t.localMicros - a * 60000000 == u.localMicros - b * 60000000
  | _, _ => false

/-- An offset as a sign, hours and minutes. -/
def offsetText (minutes : Int) : Text :=
  (if minutes < 0 then '-' else '+') ::
    Text.padded 2 (minutes.natAbs / 60) ++ ':' :: Text.padded 2 (minutes.natAbs % 60)

/-- Date and time with `separator` between them; microseconds only if there are any. -/
def text (t : DateTime) (separator : Char) : Text :=
  t.date.text ++ separator :: Text.padded 2 t.hour ++ ':' :: Text.padded 2 t.minute ++
    ':' :: Text.padded 2 t.second ++
    (if t.micro = 0 then [] else '.' :: Text.padded 6 t.micro) ++
    match t.offset with
    | none => []
    | some minutes => offsetText minutes

theorem sameTime_self (t : DateTime) : t.sameTime t = true := by
  unfold sameTime
  cases t.offset <;> simp

theorem sameTime_comm (t u : DateTime) : t.sameTime u = u.sameTime t := by
  unfold sameTime
  cases t.offset <;> cases u.offset <;> simp only [Bool.beq_comm]

end DateTime

end YamlEdit
