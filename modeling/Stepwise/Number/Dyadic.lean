/-
Whole numbers times a power of two.

The magnitude of every finite double is such a number, and the few places where
rounding decides an answer (digits in a radix, the reading of a decimal, a month
count divided by twelve) are computed here, exactly, and rounded once.

Rounding is always to the nearest, and a tie goes to the even neighbour.
-/
namespace Stepwise

/-- The number `significand · 2 ^ exponent`. -/
structure Dyadic where
  significand : Nat
  exponent : Int
deriving DecidableEq, Repr

namespace Dyadic

/-- `n / d` to the nearest whole number; a half goes to the even neighbour. -/
def divNearest (n d : Nat) : Nat :=
  let q := n / d
  let r := n % d
  if 2 * r < d then q else if d < 2 * r then q + 1 else q + q % 2

/-- How many binary digits `n` has; none for zero. -/
def bitLength (n : Nat) : Nat :=
  if n = 0 then 0 else n.log2 + 1

/-- How many significant binary digits a double holds. -/
def precision : Nat := 53

/-! ### Parts of a number -/

/-- The whole part. -/
def floor (x : Dyadic) : Nat :=
  (x.significand <<< x.exponent.toNat) >>> (-x.exponent).toNat

/-- What the whole part leaves over. -/
def fraction (x : Dyadic) : Dyadic :=
  ⟨x.significand % 1 <<< (-x.exponent).toNat, x.exponent⟩

/-- Is this a whole number? -/
def isWhole (x : Dyadic) : Bool :=
  x.fraction.significand == 0

/-- The smallest whole number that is not below. -/
def ceil (x : Dyadic) : Nat :=
  if x.isWhole then x.floor else x.floor + 1

/-! ### Arithmetic that rounds -/

/-- The nearest number of at most fifty-three binary digits. -/
def round (x : Dyadic) : Dyadic :=
  let extra := bitLength x.significand - precision
  ⟨divNearest x.significand (1 <<< extra), x.exponent + extra⟩

/-- A multiple by a whole number, rounded. -/
def scale (x : Dyadic) (k : Nat) : Dyadic :=
  round ⟨x.significand * k, x.exponent⟩

/-- `num / den` counted in units of `2 ^ e`, to the nearest. -/
def quotientAt (num den : Nat) (e : Int) : Nat :=
  divNearest (num <<< (-e).toNat) (den <<< e.toNat)

/-- The power of two of the last of the fifty-three leading digits of `num / den`. -/
def lastPlace (num den : Nat) : Int :=
  let e : Int := bitLength num - bitLength den - precision
  if (num <<< (-e).toNat) / (den <<< e.toNat) < 1 <<< precision then e else e + 1

/-- `num / den`, rounded. -/
def ofQuotient (num den : Nat) : Dyadic :=
  ⟨quotientAt num den (lastPlace num den), lastPlace num den⟩

/-- A whole number divided by another, rounded first and cut to its whole part
afterwards, as a division of doubles followed by a truncation does it. -/
def truncQuotient (num den : Nat) : Nat :=
  (ofQuotient num den).floor

end Dyadic

end Stepwise
