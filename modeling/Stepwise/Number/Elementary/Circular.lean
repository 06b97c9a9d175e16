/-
Sine, cosine and tangent.

Each has a polynomial within an eighth of the circle around zero.  Elsewhere quarters are
taken off the argument, and their number says which polynomial answers and with what sign.
-/
import Stepwise.Number.Elementary.Quarters

namespace Stepwise

namespace Elementary

/-! ### Within an eighth of the circle -/

/-- The upper half of an eighth of the circle. -/
def eighthRank : Nat := 0x3fe921fb

def sineFirst : Float := -0.16666666666666632

/-- Of the sine, from the fifth power on. -/
def sineMiddle : List Float := [0.00833333333332249, -0.0001984126982985795, 2.7557313707070068e-06]

def sineLast : List Float := [-2.5050760253406863e-08, 1.58969099521155e-10]

/-- The sine of `x + y`, where `y` is the tail. -/
def sineNearZero (x y : Float) : Float :=
  let z := x * x
  let w := z * z
  let r := horner sineMiddle z + z * w * horner sineLast z
  let v := z * x
  x - ((z * (0.5 * y - v * r) - y) - v * sineFirst)

/-- The sine of a number without a tail. -/
def sineOf (x : Float) : Float :=
  let z := x * x
  let w := z * z
  let r := horner sineMiddle z + z * w * horner sineLast z
  x + z * x * (sineFirst + z * r)

/-- Of the cosine, from the fourth power on. -/
def cosineFirst : List Float := [0.0416666666666666, -0.001388888888887411, 2.480158728947673e-05]

def cosineLast : List Float := [-2.7557314351390663e-07, 2.087572321298175e-09, -1.1359647557788195e-11]

/-- The cosine of `x + y`, where `y` is the tail. -/
def cosineNearZero (x y : Float) : Float :=
  let z := x * x
  let r := z * horner cosineFirst z + z * z * (z * z) * horner cosineLast z
  let half := 0.5 * z
  let w := 1.0 - half
  w + (((1.0 - w) - half) + (z * r - x * y))

def tangentFirst : Float := 0.3333333333333341

/-- Of the tangent, from the fifth power on: those of every second odd power, and those
between. -/
def tangentOdd : List Float :=
  [0.13333333333320124, 0.021869488294859542, 0.0035920791075913124, 0.0005880412408202641,
    7.817944429395571e-05, -1.8558637485527546e-05]

def tangentEven : List Float :=
  [0.05396825397622605, 0.0088632398235993, 0.0014562094543252903, 0.0002464631348184699,
    7.140724913826082e-05, 2.590730518636337e-05]

/-- From here on the tangent is taken of the rest to an eighth of the circle. -/
def tangentTurnRank : Nat := 0x3fe59428

def eighth : Float := 0.7853981633974483

def eighthTail : Float := 3.061616997868383e-17

/-- What the tangent of `x + y` adds to `x`. -/
def tangentRest (x y : Float) : Float :=
  let z := x * x
  let w := z * z
  let r := horner tangentOdd w
  let v := z * horner tangentEven w
  let s := z * x
  y + z * (s * (r + v) + y) + s * tangentFirst

/-- Minus one over `x + r`, taken in two parts. -/
def negatedInverse (x r : Float) : Float :=
  let w := x + r
  let front := Double.clearLow w
  let v := r - (front - x)
  let a := -1.0 / w
  let aFront := Double.clearLow a
  aFront + a * (1.0 + aFront * front + aFront * v)

/-- The tangent of `x + y`, or behind an odd number of quarters minus one over it. -/
def tangentNearZero (x y : Float) (odd : Bool) : Float :=
  if tangentTurnRank ≤ Double.rank x then
    let negative := Double.isNegative x
    let x := (eighth - Double.abs x) + (eighthTail - Double.withSign negative y)
    let r := tangentRest x 0.0
    let w := x + r
    let s := if odd then -1.0 else 1.0
    Double.withSign negative (s - 2.0 * (x + (r - w * w / (w + s))))
  else
    let r := tangentRest x y
    if odd then negatedInverse x r else x + r

/-! ### The functions -/

def sin (x : Float) : Float :=
  if !Double.isFinite x then Double.nan
  else if Double.rank x < 0x3e500000 then x
  else if Double.rank x ≤ eighthRank then sineOf x
  else
    let r := reduce x
    match (r.quarters % 4).toNat with
    | 0 => sineNearZero r.rest r.tail
    | 1 => cosineNearZero r.rest r.tail
    | 2 => -sineNearZero r.rest r.tail
    | _ => -cosineNearZero r.rest r.tail

def cos (x : Float) : Float :=
  if !Double.isFinite x then Double.nan
  else if Double.rank x < 0x3e46a09e then 1.0
  else if Double.rank x ≤ eighthRank then cosineNearZero x 0.0
  else
    let r := reduce x
    match (r.quarters % 4).toNat with
    | 0 => cosineNearZero r.rest r.tail
    | 1 => -sineNearZero r.rest r.tail
    | 2 => -cosineNearZero r.rest r.tail
    | _ => sineNearZero r.rest r.tail

def tan (x : Float) : Float :=
  if !Double.isFinite x then Double.nan
  else if Double.rank x < 0x3e400000 then x
  else if Double.rank x ≤ eighthRank then tangentNearZero x 0.0 false
  else
    let r := reduce x
    tangentNearZero r.rest r.tail (r.quarters % 2 == 1)

end Elementary

end Stepwise
