/-
The mathematical functions.
-/
import Stepwise.Builtin.Arguments
import Stepwise.Number.Elementary.Arc
import Stepwise.Number.Elementary.Circular
import Stepwise.Number.Elementary.Exponential

namespace Stepwise

namespace Arithmetic

/-- A power.  One to an infinite power is not a number, and so is anything to a power that
is not a number. -/
def power (base exponent : Float) : Float :=
  if exponent.isNaN || (Double.abs base == 1.0 && exponent.isInf) then Double.nan
  else Elementary.pow base exponent

/-- The better one of two numbers that `better` compares; of two zeros the second wins if it
has the sign asked for. -/
def pick (better : Float → Float → Bool) (negativeZero : Bool) (best n : Float) : Float :=
  if better n best || (n == 0.0 && best == 0.0 && Double.isNegative n == negativeZero) then n
  else best

/-- The greatest of some numbers, if all of them are numbers; positive zero counts as
greater. -/
def greatest (ns : List Float) : Float :=
  if ns.any Float.isNaN then Double.nan
  else ns.foldl (pick (fun a b => b < a) false) (-Double.infinity)

/-- The least of some numbers, if all of them are numbers; negative zero counts as less. -/
def least (ns : List Float) : Float :=
  if ns.any Float.isNaN then Double.nan
  else ns.foldl (pick (fun a b => a < b) true) Double.infinity

/-! ### Random numbers -/

/-- The next state of the generator. -/
def shuffle (x : UInt64) : UInt64 :=
  let x := x ^^^ (x >>> 12)
  let x := x ^^^ (x <<< 25)
  x ^^^ (x >>> 27)

/-- The number below one that a state stands for. -/
def unitOf (x : UInt64) : Float :=
  Float.ofNat ((x * 0x2545f4914f6cdd1d) >>> 11).toNat / Float.ofNat (1 <<< 53)

/-- A number below one, not the one of last time. -/
def random : Edit Float := do
  let seed ← Edit.ask fun s => shuffle s.seed
  Edit.commit fun s => { s with seed }
  return unitOf seed

/-- The functions of one number, by name. -/
def unary? : MathFunction → Option (Float → Float)
  | .abs => some Double.abs
  | .acos => some Elementary.acos
  | .asin => some Elementary.asin
  | .atan => some Elementary.atan
  | .ceil => some Double.ceil
  | .cos => some Elementary.cos
  | .exp => some Elementary.exp
  | .floor => some Double.floor
  | .log => some Elementary.log
  | .round => some Double.roundHalfUp
  | .sin => some Elementary.sin
  | .sqrt => some Float.sqrt
  | .tan => some Elementary.tan
  | .atan2 | .pow | .max | .min | .random => none

def apply (f : MathFunction) (args : List Value) : Edit Value := do
  match f with
  | .random => return .number (← random)
  | .atan2 => Edit.ask fun s => .number (Elementary.atan2 (s.numberArgument args 0) (s.numberArgument args 1))
  | .pow => Edit.ask fun s => .number (power (s.numberArgument args 0) (s.numberArgument args 1))
  | .max => Edit.ask fun s => .number (greatest (args.map s.toNumber))
  | .min => Edit.ask fun s => .number (least (args.map s.toNumber))
  | f => Edit.ask fun s => .number (((unary? f).getD id) (s.numberArgument args 0))

end Arithmetic

end Stepwise
