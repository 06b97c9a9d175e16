/-
The inverse circular functions.

The arc sine has a quotient of polynomials for small arguments, and for large ones goes
over to half the angle by a square root.  The arc tangent is taken of the difference to
the nearest of four angles.
-/
import Stepwise.Number.Elementary.Words

namespace Stepwise

namespace Elementary

/-! ### Arc sine and arc cosine -/

/-- A quarter of the circle, and what is missing. -/
def quarterTurn : Float := 1.5707963267948966

def quarterTurnTail : Float := 6.123233995736766e-17

def arcNumerator : List Float :=
  [0.16666666666666666, -0.3255658186224009, 0.20121253213486293, -0.04005553450067941,
    0.0007915349942898145, 3.479331075960212e-05]

def arcDenominator : List Float :=
  [1.0, -2.403394911734414, 2.0209457602335057, -0.6882839716054533, 0.07703815055590194]

/-- The arc sine of `x`, less `x` and divided by it, in the square of `x`. -/
def arcQuotient (z : Float) : Float := z * horner arcNumerator z / horner arcDenominator z

/-- The arc sine of a magnitude from one half to one. -/
def arcSineLarge (x : Float) : Float :=
  let z := (1.0 - x) * 0.5
  let s := z.sqrt
  let r := arcQuotient z
  if 0x3fef3333 ≤ Double.rank x then quarterTurn - (2.0 * (s + s * r) - quarterTurnTail)
  else
    let f := Double.clearLow s
    let c := (z - f * f) / (s + f)
    0.5 * quarterTurn
      - (2.0 * s * r - (quarterTurnTail - 2.0 * c) - (0.5 * quarterTurn - 2.0 * f))

def asin (x : Float) : Float :=
  let size := Double.abs x
  if x.isNaN || 1.0 < size then Double.nan
  else if size == 1.0 then x * quarterTurn
  else if size < 0.5 then
    if Double.rank x < 0x3e500000 && 0x00100000 ≤ Double.rank x then x
    else x + x * arcQuotient (x * x)
  else Double.withSign (Double.isNegative x) (arcSineLarge size)

def acos (x : Float) : Float :=
  if x.isNaN || 1.0 < Double.abs x then Double.nan
  else if x == 1.0 then 0.0
  else if x == -1.0 then 2.0 * quarterTurn
  else if Double.rank x < 0x3fe00000 then
    if Double.rank x ≤ 0x3c600000 then quarterTurn
    else quarterTurn - (x - (quarterTurnTail - x * arcQuotient (x * x)))
  else if x < 0.0 then
    let z := (1.0 + x) * 0.5
    let s := z.sqrt
    let w := arcQuotient z * s - quarterTurnTail
    2.0 * (quarterTurn - (s + w))
  else
    let z := (1.0 - x) * 0.5
    let s := z.sqrt
    let f := Double.clearLow s
    let c := (z - f * f) / (s + f)
    let w := arcQuotient z * s + c
    2.0 * (f + w)

/-! ### Arc tangent -/

def arcTangentOdd : List Float :=
  [0.3333333333333293, 0.14285714272503466, 0.09090887133436507, 0.06661073137387531,
    0.049768779946159324, 0.016285820115365782]

def arcTangentEven : List Float :=
  [-0.19999999999876483, -0.11111110405462356, -0.0769187620504483, -0.058335701337905735,
    -0.036531572744216916]

/-- What the arc tangent of a number near zero is less than the number. -/
def arcTangentRest (x : Float) : Float :=
  let z := x * x
  let w := z * z
  x * (z * horner arcTangentOdd w + w * horner arcTangentEven w)

/-- An angle with its tail, and what the arc tangent of a magnitude is measured from there. -/
structure Bearing where
  angle : Float
  tail : Float
  offset : Float

/-- The nearest of the angles whose tangents are one half, one, one and a half, and
infinite. -/
def bearing (x : Float) : Bearing :=
  let high := Double.rank x
  if high < 0x3fe60000 then
    ⟨0.4636476090008061, 2.2698777452961687e-17, (2.0 * x - 1.0) / (2.0 + x)⟩
  else if high < 0x3ff30000 then
    ⟨0.7853981633974483, 3.061616997868383e-17, (x - 1.0) / (x + 1.0)⟩
  else if high < 0x40038000 then
    ⟨0.982793723247329, 1.3903311031230998e-17, (x - 1.5) / (1.0 + 1.5 * x)⟩
  else ⟨1.5707963267948966, 6.123233995736766e-17, -1.0 / x⟩

def atan (x : Float) : Float :=
  let high := Double.rank x
  let negative := Double.isNegative x
  if x.isNaN then x
  else if 0x44100000 ≤ high then Double.withSign negative quarterTurn
  else if high < 0x3e400000 then x
  else if high < 0x3fdc0000 then x - arcTangentRest x
  else
    let b := bearing (Double.abs x)
    Double.withSign negative (b.angle - (arcTangentRest b.offset - b.tail - b.offset))

/-- Half of the circle, and what is missing. -/
def halfTurn : Float := 3.141592653589793

def halfTurnTail : Float := 1.2246467991473532e-16

/-- The angle of a point that lies ahead, and of one that lies behind. -/
def angleBehind (ahead : Float) : Float := halfTurn - (ahead - halfTurnTail)

/-- A quotient of this many binary places counts as infinite, or as zero. -/
def quotientPlaces : Nat := 64

/-- The angle of a point with positive coordinates, neither of them zero. -/
def angleAhead (y x : Float) (behind : Bool) : Float :=
  let shift := quotientPlaces <<< 20
  if behind && Double.rank y + shift < Double.rank x then 0.0 else atan (y / x)

/-- The angle of a point off the axes of zeros. -/
def angleOf (y x : Float) : Float :=
  let negative := Double.isNegative y
  let behind := Double.isNegative x
  let y := Double.abs y
  let x := Double.abs x
  if x.isInf then
    if y.isInf then Double.withSign negative (if behind then 3.0 * halfTurn / 4.0 else halfTurn / 4.0)
    else Double.withSign negative (if behind then halfTurn else 0.0)
  else if Double.rank x + quotientPlaces <<< 20 < Double.rank y || y.isInf then
    Double.withSign negative (halfTurn / 2.0)
  else
    let ahead := angleAhead y x behind
    Double.withSign negative (if behind then angleBehind ahead else ahead)

/-- The angle of a point, measured from the direction in which `x` grows. -/
def atan2 (y x : Float) : Float :=
  if x.isNaN || y.isNaN then Double.nan
  else if x == 1.0 then atan y
  else if y == 0.0 then
    if Double.isNegative x then Double.withSign (Double.isNegative y) halfTurn else y
  else if x == 0.0 then Double.withSign (Double.isNegative y) (halfTurn / 2.0)
  else angleOf y x

end Elementary

end Stepwise
