/-
Numbers in a radix from two to thirty-six.

Reading adds the digits up in doubles, one after the other.  Writing divides the whole
part down, rounding each quotient as a double before it is cut, and multiplies the
fraction up for at most fifty-two digits.
-/
import Stepwise.Number.Double
import Stepwise.Number.Digits

namespace Stepwise

namespace Radix

/-- The value of a character as a digit below `radix`; letters of either case count from ten. -/
def digit? (radix : Nat) (c : Char) : Option Nat :=
  let v :=
    if '0' ≤ c && c ≤ '9' then some (c.toNat - '0'.toNat)
    else if 'a' ≤ c && c ≤ 'z' then some (c.toNat - 'a'.toNat + 10)
    else if 'A' ≤ c && c ≤ 'Z' then some (c.toNat - 'A'.toNat + 10)
    else none
  v.filter (· < radix)

/-- The double that digits add up to; none without a digit or with a wrong one. -/
def read? (radix : Nat) (text : List Char) : Option Float :=
  if text.isEmpty then none
  else
    text.foldlM (fun acc c => (digit? radix c).map fun d =>
      acc * Float.ofNat radix + Float.ofNat d) 0.0

/-- The digits of a whole number, put in front of `acc`; `fuel` bounds their number. -/
def wholeDigits (radix : Nat) : (fuel n : Nat) → (acc : List Nat) → List Nat
  | 0, _, acc => acc
  | fuel + 1, n, acc =>
    if n == 0 then acc
    else wholeDigits radix fuel (Dyadic.truncQuotient n radix) (n % radix :: acc)

/-- At most `count` digits of a number below one. -/
def fractionDigits (radix : Nat) : (count : Nat) → Dyadic → List Nat
  | 0, _ => []
  | count + 1, x =>
    let y := x.scale radix
    let rest := y.fraction
    y.floor :: if rest.significand == 0 then [] else fractionDigits radix count rest

/-- How many digits behind the point are written at most. -/
def maxFractionDigits : Nat := 52

/-- The digits of a magnitude before and behind the point. -/
def digits (radix : Nat) (x : Dyadic) : List Nat × List Nat :=
  let whole := wholeDigits radix (Dyadic.bitLength x.floor) x.floor []
  (if whole.isEmpty then [0] else whole,
    if x.isWhole then [] else fractionDigits radix maxFractionDigits x.fraction)

/-- The text of a magnitude. -/
def text (radix : Nat) (x : Dyadic) : List Char :=
  let (whole, fraction) := digits radix x
  Digits.toChars whole ++ if fraction.isEmpty then [] else '.' :: Digits.toChars fraction

end Radix

end Stepwise
