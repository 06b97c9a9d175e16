/-
Quarters of the circle in a number.

An argument of a circular function is brought into an eighth of the circle around zero by
taking quarters off it, and the rest is kept in two parts.  For numbers of moderate size
a quarter in a few parts is precise enough.  A large number is multiplied by two over pi
digit by digit, with only as many digits as the rest needs.
-/
import Stepwise.Number.Elementary.Words

namespace Stepwise

namespace Elementary

/-! ### Numbers of moderate size -/

/-- A number as so many quarters of the circle and a rest in two parts. -/
structure Reduced where
  quarters : Int
  rest : Float
  tail : Float

def twoOverPi : Float := 0.6366197723675814

/-- A quarter of the circle: three front parts, and behind each what is still missing. -/
def quarter1 : Float := 1.5707963267341256

def quarter1Tail : Float := 6.077100506506192e-11

def quarter2 : Float := 6.077100506303966e-11

def quarter2Tail : Float := 2.0222662487959506e-21

def quarter3 : Float := 2.0222662487111665e-21

def quarter3Tail : Float := 8.4784276603689e-32

/-- Adding and subtracting this rounds to a whole number. -/
def roundingShift : Float := 6755399441055744.0

/-- Take `n` quarters off, each in the first parts. -/
def takeFew (x : Float) (n : Int) : Reduced :=
  let f := Double.ofInt n
  let z := x - f * quarter1
  let rest := z - f * quarter1Tail
  ⟨n, rest, (z - rest) - f * quarter1Tail⟩

/-- One more pair of parts for the rest of a number, when the ones before have cancelled too
many places: what is left, and what to take off it. -/
def refine (f r part tail : Float) : Float × Float :=
  let w := f * part
  let r' := r - w
  (r', f * tail - ((r - r') - w))

/-- How many binary places were lost between a number and its rest. -/
def placesLost (x rest : Float) : Int := (Double.exponentField x : Int) - Double.exponentField rest

/-- Take the nearest number of quarters off a number of moderate size. -/
def takeNearest (x : Float) : Reduced :=
  let f := (x * twoOverPi + roundingShift) - roundingShift
  let n := (Double.toInt? f).getD 0
  let r := x - f * quarter1
  let w := f * quarter1Tail
  let (r, w) :=
    if 16 < placesLost x (r - w) then
      let (r, w) := refine f r quarter2 quarter2Tail
      if 49 < placesLost x (r - w) then refine f r quarter3 quarter3Tail else (r, w)
    else (r, w)
  let rest := r - w
  ⟨n, rest, (r - rest) - w⟩

/-! ### Large numbers -/

/-- Large numbers are reduced in digits of this many binary places. -/
def digitBits : Nat := 24

/-- How many digits of two over pi are known. -/
def knownDigits : Nat := 66

/-- Two over pi, from the point on. -/
def twoOverPiDigits : Nat :=
  0xa2f9836e4e441529fc2757d1f534ddc0db6295993c439041fe5163abdebbc561b7246e3a424dd2e006492eea09d1921cfe1deb1cb129a73ee88235f52ebb4484e99c7026b45f7e413991d639835339f49c845f8bbdf9283b1ff897ffde05980fef2f118b5a0a6d1f6d367ecf27cb09b74f463f669e5fea2d7527bac7ebe5f17b3d0739f78a5292ea6bfb5fb11f8d5d0856033046fc7b6babf0cfbc209af4361da9e391615ee61b086599855f14a068408dffd8804d73273106061556ca73a8c960e27bc08c6b

/-- The digits of two over pi up to one place behind the point, the last `count` of them. -/
def twoOverPiSlice (place count : Nat) : Nat :=
  (twoOverPiDigits >>> (digitBits * (knownDigits - place))) % 1 <<< (digitBits * count)

/-- Half of pi in digits that count units of `2 ^ -23`, and each a place less than the one
before.  The last bit of the fourth belongs to the place of the fifth. -/
def halfPiDigits : List Nat := [0xc90fda, 0xa22168, 0xc234c4, 0xc6628b, 0x80dc1c]

/-- The binary places of the first digit of half of pi. -/
def halfPiBits : Nat := 23

/-- A magnitude in three digits, the first of them full, as a multiple of a power of two. -/
structure Large where
  digits : List Nat
  exponent : Int

/-- The digits of a normal double. -/
def Large.ofDyadic (m : Dyadic) : Large :=
  let padded := m.significand <<< (3 * digitBits - Dyadic.precision)
  let base := 1 <<< digitBits
  ⟨[padded / (base * base), padded / base % base, padded % base],
    m.exponent + Dyadic.precision - digitBits⟩

/-- The digit of two over pi from which on its product with the number counts: those before
make whole turns of the circle. -/
def Large.firstDigit (x : Large) : Nat := ((x.exponent - 3) / digitBits).toNat

/-- A product cut to full digits, with so many binary places behind the point. -/
structure Product where
  units : Nat
  places : Nat

/-- The number times two over pi, less whole turns, with `count` digits behind the first one
that counts.  Products with digits that lie farther behind are left out, each for itself. -/
def Large.turns (x : Large) (count : Nat) : Product :=
  let last := x.firstDigit + count + 1
  ⟨(x.digits.mapIdx fun i d => d * twoOverPiSlice (last - i) (count + 1)).foldl (· + ·) 0,
    (digitBits * (x.firstDigit + count + 1) - x.exponent).toNat⟩

/-- The nearest whole number to a product, and how far off it lies. -/
structure Nearest where
  whole : Nat
  above : Bool
  distance : Product

def Product.nearest (p : Product) : Nearest :=
  let one := 1 <<< p.places
  let whole := p.units / one
  let rest := p.units % one
  if one ≤ 2 * rest then ⟨whole + 1, true, one - rest, p.places⟩ else ⟨whole, false, rest, p.places⟩

/-- The digits of a number, the first one first; none for zero. -/
def baseDigits : (fuel n : Nat) → (acc : List Nat) → List Nat
  | 0, _, acc => acc
  | fuel + 1, n, acc =>
    if n == 0 then acc else baseDigits fuel (n >>> digitBits) (n % 1 <<< digitBits :: acc)

/-- The digits that a distance has in all. -/
def Product.digits (p : Product) : List Nat := baseDigits (p.places / digitBits + 1) p.units []

/-- A distance is taken with this many digits at least, behind the first that counts. -/
def leastDigits : Nat := 4

/-- The nearest number of quarters to a large number.  Where the distance has lost digits, as
many more are taken; next to a multiple of a quarter that happens more than once. -/
def Large.nearestFrom (x : Large) : (fuel count : Nat) → Nearest
  | 0, count => (x.turns count).nearest
  | fuel + 1, count =>
    let nearest := (x.turns count).nearest
    let kept := nearest.distance.digits.length
    if kept ≤ leastDigits then x.nearestFrom fuel (count + (leastDigits + 1 - kept)) else nearest

/-- No double lies so near to a multiple of a quarter that more digits than this are lost. -/
def maxLostDigits : Nat := 8

/-- The terms of the product of a distance and half of pi, the largest first: each is what
digits whose places add up to one number make together, and none is rounded. -/
def Product.halfPiTerms (p : Product) : List Float :=
  let ds := p.digits
  ds.mapIdx fun i _ =>
    let parts := halfPiDigits.mapIdx fun k d => if k ≤ i then d * ds.getD (i - k) 0 else 0
    let units := parts.foldl (· + ·) 0
    let behind := digitBits * (ds.length - 1 - i)
    Double.ofDyadic false ⟨units, (behind : Int) - p.places - halfPiBits⟩

/-- Take the nearest number of quarters off a large magnitude.  The terms of the rest are added
from the least to the largest, and what that loses is the tail. -/
def takeLarge (m : Dyadic) : Reduced :=
  let nearest := (Large.ofDyadic m).nearestFrom maxLostDigits leastDigits
  let terms := nearest.distance.halfPiTerms
  let rest := terms.foldr (fun t sum => sum + t) 0.0
  let tail := (terms.drop 1).foldl (fun sum t => sum + t) (terms.headD 0.0 - rest)
  ⟨nearest.whole, Double.withSign nearest.above rest, Double.withSign nearest.above tail⟩

/-! ### Any number -/

/-- The same for the opposite number. -/
def Reduced.neg (r : Reduced) : Reduced := ⟨-r.quarters, -r.rest, -r.tail⟩

/-- Take quarters off a finite number beyond an eighth of the circle.  Next to a multiple of a
quarter the first parts are not enough. -/
def reduce (x : Float) : Reduced :=
  let high := Double.rank x
  let few (n : Int) : Reduced := takeFew x (if x < 0.0 then -n else n)
  if high ≤ 0x400f6a7a then
    if high % 0x100000 == 0x921fb then takeNearest x
    else if high ≤ 0x4002d97c then few 1
    else few 2
  else if high ≤ 0x401c463b then
    if high == 0x4012d97c || high == 0x401921fb then takeNearest x
    else if high ≤ 0x4015fdbc then few 3
    else few 4
  else if high < 0x413921fb then takeNearest x
  else
    match Double.parts x with
    | .finite negative m => if negative then (takeLarge m).neg else takeLarge m
    | _ => ⟨0, x - x, x - x⟩

end Elementary

end Stepwise
