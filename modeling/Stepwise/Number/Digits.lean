/-
Decimal digits of doubles, all of them.

Every finite double has a finite decimal expansion, and `expand` writes it out.  The
fixed and exponential forms round such an expansion, halves upward, on the digits
themselves: cut, and carry one into what was kept when the first digit cut off is
five or more.
-/
import Stepwise.Number.Dyadic

namespace Stepwise

namespace Digits

/-- The decimal digits of a number, the leading one first; zero has one digit. -/
def ofNat (n : Nat) : List Nat :=
  (Nat.toDigits 10 n).map fun c => c.toNat - '0'.toNat

/-- The character of a digit below thirty-six. -/
def toChar (d : Nat) : Char :=
  if d < 10 then Char.ofNat ('0'.toNat + d)
  else if d < 36 then Char.ofNat ('a'.toNat + (d - 10))
  else '0'

def toChars (ds : List Nat) : List Char := ds.map toChar

/-- The same digits with zeros in front, `n` in all. -/
def padLeft (n : Nat) (ds : List Nat) : List Nat :=
  List.replicate (n - ds.length) 0 ++ ds

/-- The digits before and behind the point.  A half power `2 ^ -k` has `k` digits, since it
is `5 ^ k / 10 ^ k`. -/
def expand (x : Dyadic) : List Nat × List Nat :=
  let k := (-x.exponent).toNat
  let rest := x.fraction.significand * Nat.pow 5 k
  (ofNat x.floor, if rest == 0 then [] else padLeft k (ofNat rest))

/-- Add one to a number given by its digits; the carry may lengthen it. -/
def succ (ds : List Nat) : List Nat :=
  match go ds with
  | (true, ds) => 1 :: ds
  | (false, ds) => ds
where
  /-- Whether a carry runs out of the digits, and the digits after it. -/
  go : List Nat → Bool × List Nat
    | [] => (true, [])
    | d :: ds =>
      match go ds with
      | (false, ds) => (false, d :: ds)
      | (true, ds) => if d == 9 then (true, 0 :: ds) else (false, (d + 1) :: ds)

/-- The number `whole.fraction` with `places` digits behind the point, halves rounded up. -/
def roundHalfUp (whole fraction : List Nat) (places : Nat) : List Nat × List Nat :=
  let kept := whole ++ (fraction.take places ++ List.replicate (places - fraction.length) 0)
  let rounded :=
    match fraction[places]? with
    | some d => if 5 ≤ d then succ kept else kept
    | none => kept
  rounded.splitAt (rounded.length - places)

/-- The digits from the leading one on, and the power of ten the leading one counts.
Zero is a single digit at power zero. -/
def scientific (x : Dyadic) : List Nat × Int :=
  let (whole, fraction) := expand x
  if whole != [0] then (whole ++ fraction, (whole.length : Int) - 1)
  else
    match fraction.dropWhile (· == 0) with
    | [] => ([0], 0)
    | ds => (ds, -((fraction.takeWhile (· == 0)).length : Int) - 1)

/-- A leading digit and `places` more after it, rounded, and the power of ten of the first.
When a carry makes one digit more, the last is dropped and the power raised: `9.99` becomes
`1.00` at the next power. -/
def roundScientific (digits : List Nat) (exponent : Int) (places : Nat) : List Nat × Int :=
  let (whole, fraction) := roundHalfUp (digits.take 1) (digits.drop 1) places
  let all := whole ++ fraction
  if places + 1 < all.length then (all.take (places + 1), exponent + 1) else (all, exponent)

end Digits

end Stepwise
