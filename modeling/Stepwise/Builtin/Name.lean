/-
The functions of the standard library, by name.

A function object holds one of these names and the library says elsewhere what it does,
so that objects are data and the whole library is one case distinction.
-/
namespace Stepwise

inductive ArrayMethod where
  | push | pop | shift | unshift | splice | reverse
  | concat | slice | join | toText | indexOf | lastIndexOf
deriving DecidableEq

inductive NumberMethod where
  | toFixed | toText | toPrecision | toExponential | valueOf
deriving DecidableEq

inductive StringMethod where
  | toLower | toUpper | trim | trimLeft | trimRight | charAt | charCodeAt
  | indexOf | lastIndexOf | split | substring | substr | concat | valueOf
deriving DecidableEq

/-- The parts of a date, from the year down. -/
inductive DatePart where
  | year | month | day | hours | minutes | seconds | milliseconds
deriving DecidableEq

/-- The written forms of a date. -/
inductive DateForm where
  | full | date | time | iso | utc | locale | localeDate | localeTime
deriving DecidableEq

inductive DateMethod where
  | getTime | getTimezoneOffset | getPart (part : DatePart) | getWeekday | getYear
  | setTime | setParts (first : DatePart) (count : Nat)
  | toText (form : DateForm)
deriving DecidableEq

inductive MathFunction where
  | abs | acos | asin | atan | ceil | cos | exp | floor | log | round | sin | sqrt | tan
  | atan2 | pow | max | min | random
deriving DecidableEq

inductive GlobalFunction where
  | isNaN | isFinite | parseInt | parseFloat | escape | unescape
  | encodeURI | encodeURIComponent | decodeURI | decodeURIComponent
deriving DecidableEq

inductive Builtin where
  | objectConstructor | functionConstructor | arrayConstructor | numberConstructor
  | stringConstructor | booleanConstructor | dateConstructor
  | objectToText | functionToText | booleanToText
  /-- Returns its receiver. -/
  | itself
  | booleanValue
  | array (method : ArrayMethod)
  | number (method : NumberMethod)
  | string (method : StringMethod)
  | date (method : DateMethod)
  | dateNow | dateParse | dateUTC
  | math (f : MathFunction)
  | global (f : GlobalFunction)
deriving DecidableEq

/-- The functions that a host lends to a script. -/
inductive HostFunction where
  /-- Writes its arguments into the journal and returns the first. -/
  | record
  /-- Fails in the way its first argument names. -/
  | fail
  /-- Returns its receiver. -/
  | receiver
  /-- Returns how many arguments it got. -/
  | argumentCount
deriving DecidableEq

inductive NativeCode where
  | builtin (b : Builtin)
  | host (f : HostFunction)
deriving DecidableEq

end Stepwise
