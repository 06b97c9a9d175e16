/-
Exponential, logarithm and power.

An argument is brought near zero or one by a power of two, where a short polynomial is
good to the last digit but one, and the power of two is put back at the end.  The
constants are split in two, a front part with zeros at its end and the rest, so that
their multiples lose nothing.
-/
import Stepwise.Number.Elementary.Words

namespace Stepwise

namespace Elementary

/-- The natural logarithm of two, in two parts. -/
def ln2High : Float := 0.6931471803691238

def ln2Low : Float := 1.9082149292705877e-10

/-- One over the natural logarithm of two. -/
def invLn2 : Float := 1.4426950408889634

/-- Of `x (e^x + 1) / (e^x - 1) - 2` in the square of `x`, from its first power on. -/
def expCoefficients : List Float :=
  [0.16666666666666602, -0.0027777777777015593, 6.613756321437934e-05, -1.6533902205465252e-06,
    4.1381367970572385e-08]

/-! ### Exponential -/

/-- From here on the exponential is infinite. -/
def expUpperBound : Float := 709.782712893384

/-- Down from here the exponential is zero. -/
def expLowerBound : Float := -745.1332191019411

/-- The exponential of `hi - lo`, which is near zero. -/
def expNearZero (hi lo : Float) : Float :=
  let x := hi - lo
  let xx := x * x
  let c := x - xx * horner expCoefficients xx
  1.0 + (x * c / (2.0 - c) - lo + hi)

/-- How many times the logarithm of two goes into a number beyond half of it. -/
def expShift (x : Float) : Int :=
  if Double.rank x < 0x3ff0a2b2 then (if x < 0.0 then -1 else 1)
  else (Double.toInt? (invLn2 * x + (if x < 0.0 then -0.5 else 0.5))).getD 0

def exp (x : Float) : Float :=
  if x.isNaN then x
  else if expUpperBound < x then Double.infinity
  else if x < expLowerBound then 0.0
  else if Double.rank x ≤ 0x3e300000 then 1.0 + x
  else if Double.rank x ≤ 0x3fd62e42 then expNearZero x 0.0
  else
    let k := expShift x
    let n := Double.ofInt k
    Double.scale (expNearZero (x - n * ln2High) (n * ln2Low)) k

/-! ### Logarithm -/

/-- Of `log ((1 + s) / (1 - s)) / s - 2` in the square of `s`; first those of its odd powers,
then those of the even ones. -/
def logOddCoefficients : List Float :=
  [0.6666666666666735, 0.2857142874366239, 0.1818357216161805, 0.14798198605116586]

def logEvenCoefficients : List Float := [0.3999999999940942, 0.22222198432149784, 0.15313837699209373]

/-- The upper half of the square root of one half, the least number near one. -/
def rootHalfRank : Nat := 0x3fe6a09e

/-- The logarithm of a positive number, given as `x · 2 ^ k`. -/
def logPositive (x : Float) (k : Int) : Float :=
  let high := Double.rank x + (0x3ff00000 - rootHalfRank)
  let n := Double.ofInt (k + high >>> 20 - 0x3ff)
  let f := Double.ofWords (high % 0x100000 + rootHalfRank) (Double.lowWord x) - 1.0
  let hfsq := 0.5 * f * f
  let s := f / (2.0 + f)
  let z := s * s
  let w := z * z
  let r := z * horner logOddCoefficients w + w * horner logEvenCoefficients w
  s * (hfsq + r) + n * ln2Low - hfsq + f + n * ln2High

def log (x : Float) : Float :=
  if x.isNaN then x
  else if x == 0.0 then -Double.infinity
  else if x < 0.0 then Double.nan
  else if x.isInf then x
  else if x == 1.0 then 0.0
  else if Double.rank x < 0x100000 then logPositive (x * Float.ofNat (1 <<< 54)) (-54)
  else logPositive x 0

/-! ### Power -/

/-- A number in two parts, of which the first has zeros at its end. -/
structure Split where
  high : Float
  low : Float

/-- Of the logarithm behind its first terms, in the square of `(x - 1) / (x + 1)`. -/
def powerLogCoefficients : List Float :=
  [0.5999999999999946, 0.4285714285785502, 0.33333332981837743, 0.272728123808534,
    0.23066074577556175, 0.20697501780033842]

/-- The logarithm of two, its front and its rest. -/
def lg2 : Float := 0.6931471805599453

def lg2High : Float := 0.6931471824645996

def lg2Low : Float := -1.904654299957768e-09

/-- Two over three times the logarithm of two, and its two parts. -/
def cp : Float := 0.9617966939259756

def cpHigh : Float := 0.9617967009544373

def cpLow : Float := -7.028461650952758e-09

/-- The two parts of one over the logarithm of two. -/
def invLn2High : Float := 1.4426950216293335

def invLn2Low : Float := 1.9259629911266175e-08

/-- Where a number near one lies: at one, or at one and a half, whose binary logarithm is in
two parts. -/
structure Anchor where
  point : Float
  logHigh : Float
  logLow : Float
  /-- One half of what the point is above one, in the upper half of a pattern. -/
  rankShift : Nat

def anchorOne : Anchor := ⟨1.0, 0.0, 0.0, 0⟩

def anchorOneAndHalf : Anchor := ⟨1.5, 0.5849624872207642, 1.350039202129749e-08, 0x40000⟩

/-- The binary logarithm of a number so near to one that the first terms of the series
suffice. -/
def log2NearOne (x : Float) : Split :=
  let t := x - 1.0
  let w := (t * t) * (0.5 - t * (0.3333333333333333 - t * 0.25))
  let u := invLn2High * t
  let v := t * invLn2Low - w * invLn2
  let high := Double.clearLow (u + v)
  ⟨high, v - (high - u)⟩

/-- The binary logarithm of `x · 2 ^ n`, where `x` lies near the anchor. -/
def log2At (a : Anchor) (x : Float) (n : Int) : Split :=
  let u := x - a.point
  let v := 1.0 / (x + a.point)
  let ss := u * v
  let sHigh := Double.clearLow ss
  -- x + a.point with zeros at its end, and the rest
  let tHigh :=
    Double.ofWords ((Double.rank x / 2 ||| 0x20000000) + 0x00080000 + a.rankShift) 0
  let tLow := x - (tHigh - a.point)
  let sLow := v * ((u - sHigh * tHigh) - sHigh * tLow)
  let s2 := ss * ss
  let r := s2 * s2 * horner powerLogCoefficients s2 + sLow * (sHigh + ss)
  let s2 := sHigh * sHigh
  let tHigh := Double.clearLow (3.0 + s2 + r)
  let tLow := r - ((tHigh - 3.0) - s2)
  let u := sHigh * tHigh
  let v := sLow * tHigh + tLow * ss
  let pHigh := Double.clearLow (u + v)
  let pLow := v - (pHigh - u)
  let zHigh := cpHigh * pHigh
  let zLow := cpLow * pHigh + pLow * cp + a.logLow
  let t := Double.ofInt n
  let high := Double.clearLow (((zHigh + zLow) + a.logHigh) + t)
  ⟨high, zLow - (((high - t) - a.logHigh) - zHigh)⟩

/-- The binary logarithm of a positive number. -/
def log2 (x : Float) : Split :=
  let (x, n) :=
    if Double.rank x < 0x100000 then (x * Float.ofNat (1 <<< 53), (-53 : Int)) else (x, 0)
  let n := n + Double.exponentField x - 0x3ff
  let fraction := Double.rank x % 0x100000
  let low := Double.lowWord x
  if fraction ≤ 0x3988e then log2At anchorOne (Double.ofWords (fraction + 0x3ff00000) low) n
  else if fraction < 0xbb67a then
    log2At anchorOneAndHalf (Double.ofWords (fraction + 0x3ff00000) low) n
  else log2At anchorOne (Double.ofWords (fraction + 0x3fe00000) low) (n + 1)

/-- The whole number nearest to a number beyond one half, as a double and as an integer. -/
def nearestWhole (z : Float) : Float × Int :=
  let negative := Double.isNegative z
  let k := Double.exponentField z - 0x3fe
  let high := Double.rank z + 0x100000 >>> k
  let k := high >>> 20 - 0x3ff
  let step := 1 <<< (20 - k)
  let n : Nat := (high % 0x100000 + 0x100000) / step
  (Double.withSign negative (Double.ofWords (high / step * step) 0), if negative then -(n : Int) else n)

/-- Two to the power of a number in two parts. -/
def exp2 (pHigh pLow : Float) : Float :=
  let z := pLow + pHigh
  let (t, n) := if 0x3fe00000 < Double.rank z then nearestWhole z else (0.0, 0)
  let pHigh := pHigh - t
  let t := Double.clearLow (pLow + pHigh)
  let u := t * lg2High
  let v := (pLow - (t - pHigh)) * lg2 + t * lg2Low
  let z := u + v
  let w := v - (z - u)
  let t := z * z
  let t := z - t * horner expCoefficients t
  let r := (z * t) / (t - 2.0) - (w + z * w)
  Double.scale (1.0 - (r - z)) n

/-- How much the power may exceed the largest one that is finite. -/
def overflowMargin : Float := 8.008566259537294e-17

/-- Two to the power of the product of a number and a logarithm; beyond the range of doubles
it is infinite or zero. -/
def powerOfLog (y : Float) (l : Split) : Float :=
  let y1 := Double.clearLow y
  let pLow := (y - y1) * l.high + y * l.low
  let pHigh := y1 * l.high
  let z := pLow + pHigh
  if 1024.0 < z || (z == 1024.0 && z - pHigh < pLow + overflowMargin) then Double.infinity
  else if z < -1075.0 || (z == -1075.0 && pLow ≤ z - pHigh) then 0.0
  else exp2 pHigh pLow

/-- A positive number other than one to a finite power. -/
def powerPositive (x y : Float) : Float :=
  let high := Double.rank y
  let grows := (1.0 < x) == (0.0 < y)
  let limit := if grows then Double.infinity else 0.0
  if 0x43f00000 < high then limit
  else if 0x41e00000 < high then
    if Double.rank x < 0x3fefffff || 0x3ff00000 < Double.rank x then limit
    else powerOfLog y (log2NearOne x)
  else powerOfLog y (log2 x)

/-- Is this an odd whole number? -/
def isOdd (y : Float) : Bool :=
  match Double.parts y with
  | .finite _ m => m.isWhole && m.floor % 2 == 1
  | _ => false

/-- A number to an infinite power. -/
def powerInfinite (x y : Float) : Float :=
  let size := Double.abs x
  if size == 1.0 then 1.0
  else if (1.0 < size) == (0.0 < y) then Double.infinity
  else 0.0

/-- A number to a power.  A negative number has powers with whole exponents only. -/
def pow (x y : Float) : Float :=
  if y == 0.0 || x == 1.0 then 1.0
  else if x.isNaN || y.isNaN then Double.nan
  else if y.isInf then powerInfinite x y
  else if y == 1.0 then x
  else if y == -1.0 then 1.0 / x
  else if y == 2.0 then x * x
  else if y == 0.5 && !Double.isNegative x then x.sqrt
  else
    let size := Double.abs x
    let negative := Double.isNegative x && isOdd y
    if size == 0.0 || size == 1.0 || size.isInf then
      if x == -1.0 && !Double.isWhole y then Double.nan
      else Double.withSign negative (if y < 0.0 then 1.0 / size else size)
    else if x < 0.0 && !Double.isWhole y then Double.nan
    else Double.withSign negative (powerPositive size y)

end Elementary

end Stepwise
