/-
The written forms of numbers.

A number is laid out from its digits and the power of ten of the leading one.  The
general form writes `21` places before the point and six zeros behind it at most and
turns to an exponent beyond; the precise form decides by the number of digits asked
for; the fixed form has a given number of digits behind the point.
-/
import Stepwise.Number.Double
import Stepwise.Number.Shortest

namespace Stepwise

namespace Layout

/-- `d.ddd` with the sign and the digits of the exponent behind an `e`. -/
def exponential (digits : List Nat) (exponent : Int) : List Char :=
  let mantissa :=
    match digits with
    | [] => []
    | [d] => [Digits.toChar d]
    | d :: rest => Digits.toChar d :: '.' :: Digits.toChars rest
  mantissa ++ 'e' :: (if 0 ≤ exponent then '+' else '-') :: Digits.toChars (Digits.ofNat exponent.natAbs)

/-- Digits with a point after the first `n` of them, and none after the last. -/
def pointAfter (n : Nat) (digits : List Nat) : List Char :=
  let rest := digits.drop n
  if rest.isEmpty then Digits.toChars (digits.take n)
  else Digits.toChars (digits.take n) ++ '.' :: Digits.toChars rest

/-- `0.` with zeros in front of the digits. -/
def belowOne (zeros : Nat) (digits : List Nat) : List Char :=
  '0' :: '.' :: (List.replicate zeros '0' ++ Digits.toChars digits)

/-- The general form: positional while the leading digit stands at `10 ^ 20` at most and
at `10 ^ -6` at least, exponential beyond. -/
def general (digits : List Nat) (exponent : Int) : List Char :=
  let point := exponent + 1
  if (digits.length : Int) ≤ point && point ≤ 21 then
    Digits.toChars digits ++ List.replicate (point - digits.length).toNat '0'
  else if 0 < point && point ≤ 21 then
    pointAfter point.toNat digits
  else if -6 < point && point ≤ 0 then
    belowOne (-point).toNat digits
  else
    exponential digits exponent

/-- The form with a given number of significant digits, which are all of them: exponential
when the digits end before the point or more than six zeros stand behind it. -/
def precise (digits : List Nat) (exponent : Int) : List Char :=
  if exponent < -6 || (digits.length : Int) ≤ exponent then exponential digits exponent
  else if 0 ≤ exponent then pointAfter (exponent + 1).toNat digits
  else belowOne (-exponent - 1).toNat digits

/-- A minus sign where it is due. -/
def signed (negative : Bool) (text : List Char) : String :=
  String.ofList (if negative then '-' :: text else text)

/-- The text of a number: the shortest digits that read back, in the general form.  Zero
has no sign. -/
def ofDouble (x : Float) : String :=
  match Double.parts x with
  | .nan => "NaN"
  | .infinite negative => signed negative "Infinity".toList
  | .finite negative m =>
    if m.significand == 0 then "0"
    else
      let (digits, exponent) := Shortest.digits m
      signed negative (general digits exponent)

/-- The fixed form of a magnitude, with `places` digits behind the point. -/
def fixed (m : Dyadic) (places : Nat) : List Char :=
  let (whole, fraction) := Digits.expand m
  let (whole, fraction) := Digits.roundHalfUp whole fraction places
  if places == 0 then Digits.toChars whole
  else Digits.toChars whole ++ '.' :: Digits.toChars fraction

/-- The digits of a magnitude rounded to a leading one and `places` more, and the power of
ten of the first. -/
def significant (m : Dyadic) (places : Nat) : List Nat × Int :=
  let (digits, exponent) := Digits.scientific m
  Digits.roundScientific digits exponent places

end Layout

end Stepwise
