/-
The written forms of a time.
-/
import Stepwise.Calendar.Time

namespace Stepwise

namespace Calendar

def weekdayNames : List String := ["Sun", "Mon", "Tue", "Wed", "Thu", "Fri", "Sat"]

def monthNames : List String :=
  ["Jan", "Feb", "Mar", "Apr", "May", "Jun", "Jul", "Aug", "Sep", "Oct", "Nov", "Dec"]

/-- A count with zeros in front. -/
def padded (width : Nat) (n : Nat) : String :=
  let text := toString n
  String.ofList (List.replicate (width - text.length) '0') ++ text

/-- A year has four digits; one that does not fit or lies before zero has a sign as well. -/
def yearText (year : Int) : String :=
  if 0 ≤ year && year ≤ 9999 then padded 4 year.natAbs
  else (if year < 0 then "-" else "+") ++ padded 4 year.natAbs

/-- The hour on a clock of twelve. -/
def hour12 (hour : Nat) : Nat := if hour % 12 == 0 then 12 else hour % 12

/-- The text of a time in a form. -/
def text (form : DateForm) (time : Int) (ps : Parts Int) : String :=
  let two (i : Int) := padded 2 i.toNat
  let weekday := (weekdayNames[weekdayOf time]?).getD ""
  let month := (monthNames[ps.month.toNat]?).getD ""
  let year := yearText ps.year
  let clock := two ps.hours ++ ":" ++ two ps.minutes ++ ":" ++ two ps.seconds
  let date := weekday ++ " " ++ month ++ " " ++ two ps.day ++ " " ++ year
  let localeDate := toString (ps.month + 1) ++ "/" ++ toString ps.day ++ "/" ++ year
  let localeTime :=
    toString (hour12 ps.hours.toNat) ++ ":" ++ two ps.minutes ++ ":" ++ two ps.seconds
      ++ if ps.hours < 12 then " AM" else " PM"
  match form with
  | .full => date ++ " " ++ clock ++ " GMT+0000 (UTC)"
  | .date => date
  | .time => clock ++ " GMT+0000 (UTC)"
  | .iso =>
    year ++ "-" ++ two (ps.month + 1) ++ "-" ++ two ps.day ++ "T" ++ clock ++ "."
      ++ padded 3 ps.milliseconds.toNat ++ "Z"
  | .utc => weekday ++ ", " ++ two ps.day ++ " " ++ month ++ " " ++ year ++ " " ++ clock ++ " GMT"
  | .locale => localeDate ++ ", " ++ localeTime
  | .localeDate => localeDate
  | .localeTime => localeTime

/-- The text of the number that a date holds, if it is a time that can be told. -/
def textOf? (form : DateForm) (time : Float) : Option String := do
  let t ← Double.toInt? time
  return text form t (← parts? t)

/-- The text of the number that a date holds. -/
def textOf (form : DateForm) (time : Float) : String :=
  (textOf? form time).getD "Invalid Date"

end Calendar

end Stepwise
