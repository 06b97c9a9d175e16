/-
The shortest decimal that reads back.

A positive double stands for an interval of reals, those that round to it; the ends
belong to it exactly when the significand is even.  Of the decimals in the interval,
the ones with the fewest digits are kept, of these the nearest to the double, and of
two equally near ones the larger.

On the grid of decimals with a given number of digits only the two neighbours of the
double can be nearest, so the search tries these, from one digit to seventeen; with
seventeen a neighbour always lies inside.
-/
import Stepwise.Number.Digits

namespace Stepwise

namespace Shortest

/-- A positive double `m · 2 ^ e` with its interval, all times a power of two that makes
every bound a whole number, over a common denominator. -/
structure Interval where
  low : Nat
  value : Nat
  high : Nat
  den : Nat
  /-- Do the ends round to the double? -/
  closed : Bool

/-- The interval of `x`.  Below a power of two the neighbours lie half as far apart. -/
def Interval.of (x : Dyadic) : Interval :=
  let m := x.significand
  let lowGap := if m == 1 <<< 52 && x.exponent != -1074 then 1 else 2
  let up := 1 <<< (x.exponent - 2).toNat
  ⟨(4 * m - lowGap) * up, 4 * m * up, (4 * m + 2) * up, 1 <<< (2 - x.exponent).toNat, m % 2 == 0⟩

/-- Is `d · 10 ^ p` in the interval? -/
def Interval.contains (i : Interval) (d : Nat) (p : Int) : Bool :=
  let v := d * Nat.pow 10 p.toNat * i.den
  let unit := Nat.pow 10 (-p).toNat
  if i.closed then i.low * unit ≤ v && v ≤ i.high * unit
  else i.low * unit < v && v < i.high * unit

/-- The power of ten of the leading digit of `num / den`, from an estimate by binary
digits that is off by one at most. -/
def leadingPower (num den : Nat) : Int :=
  let binary : Int := (Dyadic.bitLength num : Int) - Dyadic.bitLength den
  let guess := (binary * 30103).fdiv 100000
  let reaches (k : Int) : Bool := den * Nat.pow 10 k.toNat ≤ num * Nat.pow 10 (-k).toNat
  if reaches (guess + 1) then guess + 1 else if reaches guess then guess else guess - 1

/-- The nearer of the two neighbours of the double on the grid of multiples of `10 ^ p`,
if it lies in the interval; otherwise the other one, if that does. -/
def Interval.neighbour? (i : Interval) (p : Int) : Option Nat :=
  let num := i.value * Nat.pow 10 (-p).toNat
  let den := i.den * Nat.pow 10 p.toNat
  let below := num / den
  let above := below + 1
  let aboveNearer := den ≤ 2 * (num % den)
  let inBelow := below != 0 && i.contains below p
  let inAbove := i.contains above p
  if inAbove && (aboveNearer || !inBelow) then some above
  else if inBelow then some below
  else none

/-- Try `count` digit lengths, beginning with `n` digits. -/
def search (i : Interval) (top : Int) : (n count : Nat) → Nat × Int
  | n, 0 => (i.value / i.den, top - n)
  | n, count + 1 =>
    let p := top - (n : Int) + 1
    match i.neighbour? p with
    | some d => (d, p)
    | none => search i top (n + 1) count

/-- The shortest decimal `d · 10 ^ p` for a positive double. -/
def decimal (x : Dyadic) : Nat × Int :=
  if 0 ≤ x.exponent || !x.isWhole then
    let i := Interval.of x
    search i (leadingPower i.value i.den) 1 17
  else
    -- a whole number below 2 ^ 53 is the only one in its interval
    (x.floor, 0)

/-- The digits without trailing zeros, and the power of ten of the leading one. -/
def digits (x : Dyadic) : List Nat × Int :=
  let (d, p) := decimal x
  let ds := Digits.ofNat d
  ((ds.reverse.dropWhile (· == 0)).reverse, p + ds.length - 1)

end Shortest

end Stepwise
