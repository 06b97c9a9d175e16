/-
Days of the proleptic Gregorian calendar.

Days are counted from the first of January 1970.  The count goes by cycles of four
hundred years, and within one by years that begin in March, so that a leap day is the
last of its year.
-/
namespace Stepwise

namespace Calendar

structure Date where
  year : Int
  /-- From 1 to 12. -/
  month : Nat
  /-- From 1 on. -/
  day : Nat
deriving DecidableEq, Repr

/-- The days of a cycle of four hundred years. -/
def cycleDays : Nat := 146097

/-- The day count of the first of March of the year zero. -/
def marchZero : Int := -719468

/-- How many days of a year that begins in March lie before a month, March being zero. -/
def daysBefore (marchMonth : Nat) : Nat := (153 * marchMonth + 2) / 5

/-- The day of a date, also of a day that the month does not have: it counts on. -/
def Date.toDay (d : Date) : Int :=
  let year := if d.month ≤ 2 then d.year - 1 else d.year
  let ofCycle := (year % 400).toNat
  let ofYear : Int := daysBefore ((d.month + 9) % 12) + d.day - 1
  marchZero + year / 400 * cycleDays + (ofCycle * 365 + ofCycle / 4 - ofCycle / 100 : Nat) + ofYear

/-- The date of a day. -/
def Date.ofDay (day : Int) : Date :=
  let n := day - marchZero
  let ofCycle := (n % cycleDays).toNat
  let centuries := min 3 (ofCycle / 36524)
  let ofCentury := ofCycle - centuries * 36524
  let fours := ofCentury / 1461
  let ofFour := ofCentury - fours * 1461
  let years := min 3 (ofFour / 365)
  let ofYear := ofFour - years * 365
  let marchMonth := (5 * ofYear + 2) / 153
  let year : Int := n / cycleDays * 400 + (centuries * 100 + fours * 4 + years : Nat)
  let month := if marchMonth < 10 then marchMonth + 3 else marchMonth - 9
  ⟨if month ≤ 2 then year + 1 else year, month, ofYear - daysBefore marchMonth + 1⟩

def isLeap (year : Int) : Bool := year % 4 == 0 && (year % 100 != 0 || year % 400 == 0)

/-- How many days a month has. -/
def monthLength (year : Int) (month : Nat) : Nat :=
  if month == 2 then if isLeap year then 29 else 28
  else if month == 4 || month == 6 || month == 9 || month == 11 then 30
  else 31

/-- The years that can be told. -/
def firstYear : Int := -262143

def lastYear : Int := 262142

def isYear (year : Int) : Bool := firstYear ≤ year && year ≤ lastYear

/-- Is there such a date? -/
def Date.isValid (d : Date) : Bool :=
  isYear d.year && 1 ≤ d.month && d.month ≤ 12 && 1 ≤ d.day && d.day ≤ monthLength d.year d.month

/-- Is the day in a year that can be told? -/
def isDay (day : Int) : Bool :=
  (Date.mk firstYear 1 1).toDay ≤ day && day ≤ (Date.mk lastYear 12 31).toDay

/-- The day of the week, Sunday being zero. -/
def weekday (day : Int) : Nat := ((day + 4) % 7).toNat

end Calendar

end Stepwise
