/-
Numbers as texts, in the forms that scripts ask for.

Each form takes a count of digits or a radix and refuses one that is out of range.  What
is not finite has no digits and is written as always.
-/
import Stepwise.Builtin.Wrapping
import Stepwise.Number.Radix

namespace Stepwise

namespace Numeral

/-- Is the count within the bounds? -/
def within (low high : Float) (count : Float) : Bool := low ≤ count && count ≤ high

/-- The sign of a number other than zero. -/
def isBelowZero (negative : Bool) (m : Dyadic) : Bool := negative && m.significand != 0

/-- From this size on a number is not written out. -/
def fixedBound : Float := 1e21

/-- With a number of digits behind the point. -/
def fixed (n places : Float) : Except Failure String :=
  if !within 0.0 100.0 places then
    throw (.outOfRange "toFixed() digits argument must be between 0 and 100")
  else
    match Double.parts n with
    | .finite negative m =>
      if fixedBound ≤ n || n ≤ -fixedBound then return Layout.ofDouble n
      else return Layout.signed (isBelowZero negative m) (Layout.fixed m (Double.clamp places 100))
    | _ => return Layout.ofDouble n

/-- In a radix. -/
def inRadix (n radix : Float) : Except Failure String :=
  if !within 2.0 36.0 radix then
    throw (.outOfRange "toString() radix must be between 2 and 36")
  else
    match Double.parts n with
    | .finite negative m =>
      if radix == 10.0 then return Layout.ofDouble n
      else return Layout.signed (isBelowZero negative m) (Radix.text (Double.clamp radix 36) m)
    | _ => return Layout.ofDouble n

/-- With a number of significant digits. -/
def precise (n digits : Float) : Except Failure String :=
  match Double.parts n with
  | .finite negative m =>
    if !within 1.0 100.0 digits then
      throw (.outOfRange "toPrecision() argument must be between 1 and 100")
    else
      let places := Double.clamp digits 100 - 1
      if m.significand == 0 then return String.ofList (Layout.fixed m places)
      else
        let (digits, exponent) := Layout.significant m places
        return Layout.signed negative (Layout.precise digits exponent)
  | _ => return Layout.ofDouble n

/-- With an exponent, and a number of digits behind the point or as few as read back. -/
def exponential (n : Float) (places : Option Float) : Except Failure String :=
  match Double.parts n with
  | .finite negative m => do
    let (digits, exponent) ←
      match places with
      | none => pure (if m.significand == 0 then ([0], 0) else Shortest.digits m)
      | some places =>
        if !within 0.0 100.0 places then
          throw (.outOfRange "toExponential() argument must be between 0 and 100")
        else pure (Layout.significant m (Double.clamp places 100))
    return Layout.signed (isBelowZero negative m) (Layout.exponential digits exponent)
  | _ => return Layout.ofDouble n

/-- The methods of numbers. -/
def method (s : Heap) (method : NumberMethod) (receiver : Value) (args : List Value) :
    Except Failure Value := do
  let n ← Wrapping.numberOf s receiver
  let given := !(argument args 0).isUndefined
  match method with
  | .valueOf => return .number n
  | .toFixed => return .string (← fixed n (s.wholeArgument args 0 0.0))
  | .toText => return .string (← inRadix n (s.wholeArgument args 0 10.0))
  | .toPrecision =>
    if given then return .string (← precise n (s.wholeArgument args 0 1.0))
    else return .string (Layout.ofDouble n)
  | .toExponential =>
    return .string
      (← exponential n (if given then some (s.wholeArgument args 0 0.0) else none))

end Numeral

end Stepwise
