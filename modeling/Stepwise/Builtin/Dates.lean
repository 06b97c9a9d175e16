/-
Dates.

A date holds a number of milliseconds, not a number where it is invalid.  There is no
time zone, so the local methods and the universal ones are the same.
-/
import Stepwise.Builtin.Arguments
import Stepwise.Calendar.Reader

namespace Stepwise

namespace Dates

open Store

/-! ### Making a date -/

/-- The year of two digits is one of the twentieth century. -/
def fullYear (year : Float) : Float :=
  let y := Double.trunc year
  if 0.0 ≤ y && y ≤ 99.0 then 1900.0 + y else year

/-- The time of a year and what follows, given as arguments; the year has to be there. -/
def timeOfParts (s : Heap) (args : List Value) : Float :=
  let given : Calendar.Parts Float := ⟨Double.nan, 0.0, 1.0, 0.0, 0.0, 0.0, 0.0⟩
  let parts := given.setFrom .year (args.map s.toNumber)
  Calendar.compose { parts with year := fullYear parts.year }

/-- The time of a single argument: that of another date, what a text says, or a number. -/
def timeOfValue (s : Heap) (v : Value) : Float :=
  match (s.objectOf? v).map Object.kind with
  | some (.date time) => time
  | _ =>
    match s.toPrimitive v .default with
    | .string text => Calendar.ofText text
    | p => p.toNumber

/-- The time that arguments give: none, a single value, or parts. -/
def timeOf (s : Heap) : List Value → Float
  | [] => s.clock
  | [v] => timeOfValue s v
  | args => timeOfParts s args

/-- Turn a fresh receiver into a date; without one, write the time that it is. -/
def construct (receiver : Value) (args : List Value) : Edit Value := do
  let isNew ← Edit.ask fun s => s.isBlankInstance receiver Intrinsic.date
  match isNew, receiver with
  | true, .object id =>
    let time ← Edit.ask fun s => Calendar.clip (timeOf s args)
    setKind id (.date time)
    return receiver
  | _, _ => Edit.ask fun s => .string (Calendar.textOf .full s.clock)

/-! ### Reading a date -/

/-- The number that a date holds. -/
def held (s : Heap) (receiver : Value) : Except Failure Float :=
  match (s.objectOf? receiver).map Object.kind with
  | some (.date time) => return time
  | _ => throw (.wrongType "this is not a Date object.")

/-- A number read off the parts of a time, where they can be told. -/
def reading (time : Float) (read : Calendar.Parts Int → Int) : Value :=
  .number (Calendar.toDouble ((Calendar.partsOf? time).map read))

/-- The day of the week of a time, where its year can be told. -/
def weekday (time : Float) : Value :=
  .number (Calendar.toDouble ((Calendar.timeOf? time).map fun t => Calendar.weekdayOf t))

/-- Years are counted from here in the short form. -/
def shortYearBase : Int := 1900

def writing (form : DateForm) (time : Float) : Except Failure Value :=
  match Calendar.textOf? form time, form with
  | some text, _ => return .string text
  | none, .iso => throw (.outOfRange "Invalid time value")
  | none, _ => return .string "Invalid Date"

/-! ### Setting a date -/

/-- Set the time of a date. -/
def setTime (receiver : Value) (time : Float) : Edit Value := do
  let time := Calendar.clip time
  (receiver.objectId?).forM fun id => setKind id (.date time)
  return .number time

/-- The time with some parts replaced.  An invalid date stays invalid, but setting the year
starts over from the epoch. -/
def withParts (s : Heap) (time : Float) (first : DatePart) (count : Nat) (args : List Value) :
    Option Float :=
  let base := if time.isNaN && first == .year then 0.0 else time
  let values := if args.isEmpty then [Double.nan] else (args.take count).map s.toNumber
  (Calendar.partsOf? base).map fun parts =>
    Calendar.compose ((parts.map Double.ofInt).setFrom first values)

def setParts (receiver : Value) (first : DatePart) (count : Nat) (args : List Value) :
    Edit Value := do
  let time ← Edit.query fun s => return withParts s (← held s receiver) first count args
  match time with
  | some time => setTime receiver time
  | none => return .number Double.nan

/-- The methods of dates. -/
def method (method : DateMethod) (receiver : Value) (args : List Value) : Edit Value := do
  match method with
  | .setParts first count => setParts receiver first count args
  | method =>
    let time ← Edit.query fun s => held s receiver
    match method with
    | .getTime => return .number time
    | .getTimezoneOffset => return reading time fun _ => 0
    | .getPart part => return reading time fun parts => parts.get part
    | .getWeekday => return weekday time
    | .getYear => return reading time fun parts => parts.year - shortYearBase
    | .toText form => Edit.query fun _ => writing form time
    | .setTime =>
      let time ← Edit.ask fun s => s.numberArgument args 0
      setTime receiver time
    | .setParts _ _ => return .undefined

end Dates

end Stepwise
