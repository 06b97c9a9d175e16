/-
What the library functions do.

None of them runs a script: a call ends within the step that makes it.
-/
import Stepwise.Builtin.Arithmetic
import Stepwise.Builtin.Compiling
import Stepwise.Builtin.Conversions
import Stepwise.Builtin.Dates
import Stepwise.Builtin.Host
import Stepwise.Builtin.Numeral
import Stepwise.Builtin.Texts

namespace Stepwise

def Builtin.call (b : Builtin) (receiver : Value) (args : List Value) : Edit Value :=
  match b with
  | .objectConstructor => Wrapping.object receiver args
  | .functionConstructor => Compiling.construct args
  | .arrayConstructor => Sequence.construct receiver args
  | .numberConstructor => Wrapping.number receiver args
  | .stringConstructor => Wrapping.text receiver args
  | .booleanConstructor => Wrapping.boolean receiver args
  | .dateConstructor => Dates.construct receiver args
  | .objectToText => Edit.ask fun s => .string (s.toText receiver)
  | .functionToText => Edit.query fun s => Compiling.functionText s receiver
  | .booleanToText => Edit.query fun s => Wrapping.booleanText s receiver
  | .itself => return receiver
  | .booleanValue => Edit.query fun s => (Wrapping.booleanOf s receiver).map .boolean
  | .array m => Sequence.method m receiver args
  | .number m => Edit.query fun s => Numeral.method s m receiver args
  | .string m => Texts.method m receiver args
  | .date m => Dates.method m receiver args
  | .dateNow => Edit.ask fun s => .number s.clock
  | .dateParse => Edit.ask fun s => .number (Calendar.ofText (s.textArgument args 0))
  | .dateUTC => Edit.ask fun s => .number (Dates.timeOfParts s args)
  | .math f => Arithmetic.apply f args
  | .global f => Edit.query fun s => Conversions.apply s f args

def NativeCode.call (code : NativeCode) (receiver : Value) (args : List Value) : Edit Value :=
  match code with
  | .builtin b => b.call receiver args
  | .host f => f.call receiver args

end Stepwise
