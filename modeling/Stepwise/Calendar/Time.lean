/-
Points in time.

A point in time is a count of milliseconds from the epoch.  `parts` tells its year down
to its milliseconds; `compose` counts them together again, and takes parts out of their
range over into the next one: month twelve is January of the next year, day zero the
last day of the month before.

There is no time zone but the universal one.
-/
import Stepwise.Builtin.Name
import Stepwise.Calendar.Day
import Stepwise.Number.Whole

namespace Stepwise

namespace Calendar

/-- The parts of a point in time.  Months count from zero, days from one. -/
structure Parts (α : Type) where
  year : α
  month : α
  day : α
  hours : α
  minutes : α
  seconds : α
  milliseconds : α

namespace Parts

def set (ps : Parts α) (v : α) : DatePart → Parts α
  | .year => { ps with year := v }
  | .month => { ps with month := v }
  | .day => { ps with day := v }
  | .hours => { ps with hours := v }
  | .minutes => { ps with minutes := v }
  | .seconds => { ps with seconds := v }
  | .milliseconds => { ps with milliseconds := v }

def get (ps : Parts α) : DatePart → α
  | .year => ps.year
  | .month => ps.month
  | .day => ps.day
  | .hours => ps.hours
  | .minutes => ps.minutes
  | .seconds => ps.seconds
  | .milliseconds => ps.milliseconds

def order : List DatePart := [.year, .month, .day, .hours, .minutes, .seconds, .milliseconds]

/-- The parts from `first` on replaced by values, as far as there are any. -/
def setFrom (ps : Parts α) (first : DatePart) (values : List α) : Parts α :=
  ((order.dropWhile (· != first)).zip values).foldl (fun ps (part, v) => ps.set v part) ps

def map (f : α → β) (ps : Parts α) : Parts β :=
  ⟨f ps.year, f ps.month, f ps.day, f ps.hours, f ps.minutes, f ps.seconds, f ps.milliseconds⟩

/-- All parts by a function that may fail on any. -/
def mapM? (f : α → Option β) (ps : Parts α) : Option (Parts β) := do
  return ⟨← f ps.year, ← f ps.month, ← f ps.day, ← f ps.hours, ← f ps.minutes, ← f ps.seconds,
    ← f ps.milliseconds⟩

end Parts

def msPerSecond : Int := 1000

def msPerMinute : Int := 60 * msPerSecond

def msPerHour : Int := 60 * msPerMinute

def msPerDay : Int := 24 * msPerHour

/-- No time is further from the epoch. -/
def maxTime : Int := 8640000000000000

/-- The parts of a time, if its year can be told. -/
def parts? (time : Int) : Option (Parts Int) :=
  let day := time / msPerDay
  let rest := time % msPerDay
  if isDay day then
    let date := Date.ofDay day
    some ⟨date.year, date.month - 1, date.day, rest / msPerHour, rest / msPerMinute % 60,
      rest / msPerSecond % 60, rest % msPerSecond⟩
  else none

/-- The day of the week of a time, Sunday being zero. -/
def weekdayOf (time : Int) : Nat := weekday (time / msPerDay)

/-- A time within the bound, or none. -/
def clip? (time : Int) : Option Int :=
  if time.natAbs ≤ maxTime then some time else none

/-- The time of parts, which may be out of their range.  Every product and every sum is
rounded as one of doubles is. -/
def compose? (ps : Parts Int) : Option Int := do
  let year ← Whole.add? ps.year (Whole.floorQuotient ps.month 12)
  let month := (ps.month % 12).toNat
  if !isYear year then none
  else
    let start := (Date.mk year (month + 1) 1).toDay * msPerDay
    let days ← Whole.mul? (← Whole.add? ps.day (-1)) msPerDay
    let t ← Whole.add? start days
    let t ← Whole.add? t (← Whole.mul? ps.hours msPerHour)
    let t ← Whole.add? t (← Whole.mul? ps.minutes msPerMinute)
    let t ← Whole.add? t (← Whole.mul? ps.seconds msPerSecond)
    clip? (← Whole.add? t ps.milliseconds)

/-! ### Times as doubles -/

/-- A time as the number a date holds; no time is not a number. -/
def toDouble : Option Int → Float
  | some time => Double.ofInt time
  | none => Double.nan

/-- A number cut to a time within the bound; a number beyond it, though it be cut to the
bound itself, is none. -/
def clip (time : Float) : Float :=
  if Double.abs time ≤ Double.ofInt maxTime then toDouble (Double.toInt? time) else Double.nan

/-- The time of parts given by doubles, each cut to its whole part. -/
def compose (ps : Parts Float) : Float :=
  toDouble ((ps.mapM? Double.toInt?).bind compose?)

/-- The whole milliseconds of a number whose year can be told. -/
def timeOf? (time : Float) : Option Int :=
  (Double.toInt? time).filter fun t => isDay (t / msPerDay)

/-- The parts of the time that a number stands for. -/
def partsOf? (time : Float) : Option (Parts Int) := (Double.toInt? time).bind parts?

end Calendar

end Stepwise
