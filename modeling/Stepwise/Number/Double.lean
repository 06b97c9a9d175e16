/-
Doubles as signed dyadic numbers.

`parts` takes a double apart and `ofDyadic` puts one together, rounding where the
number has more digits than a double.  The whole-number operations of the language
(truncation, floor, remainder, conversion to 32-bit words) are defined on the parts,
so that each says what it computes.
-/
import Stepwise.Number.Dyadic

namespace Stepwise

namespace Double

/-- A double is not a number, infinite, or a signed dyadic number. -/
inductive Parts where
  | nan
  | infinite (negative : Bool)
  | finite (negative : Bool) (magnitude : Dyadic)

/-- The power of two of the last digit of the smallest doubles. -/
def leastPlace : Int := -1074

/-- The parts of a double. -/
def parts (x : Float) : Parts :=
  let bits := x.toBits
  let negative := bits >>> 63 == 1
  let biased := ((bits >>> 52) &&& 0x7ff).toNat
  let stored := (bits &&& 0xfffffffffffff).toNat
  if biased == 0x7ff then
    if stored == 0 then .infinite negative else .nan
  else if biased == 0 then
    .finite negative ⟨stored, leastPlace⟩
  else
    .finite negative ⟨stored + 1 <<< 52, leastPlace + biased - 1⟩

/-- Is the sign bit set?  It also is for negative zero. -/
def isNegative (x : Float) : Bool :=
  x.toBits >>> 63 == 1

/-- The magnitude. -/
def abs (x : Float) : Float := if isNegative x then -x else x

/-- A magnitude with a sign given to it. -/
def withSign (negative : Bool) (magnitude : Float) : Float := if negative then -magnitude else magnitude

/-- The bit pattern of infinity. -/
def infinityBits : Nat := 0x7ff0000000000000

/-- The double of `± units · 2 ^ e`, where `e` is the place of the last stored digit.
Since the exponent field counts places from `leastPlace`, a carry out of the
significand moves into it by itself. -/
def pack (negative : Bool) (units : Nat) (e : Int) : Float :=
  let bits := min ((e - leastPlace).toNat <<< 52 + units) infinityBits
  withSign negative (Float.ofBits (UInt64.ofNat bits))

/-- The nearest double to a signed dyadic number. -/
def ofDyadic (negative : Bool) (x : Dyadic) : Float :=
  if x.significand == 0 then
    if negative then -0.0 else 0.0
  else
    let e := max (x.exponent + Dyadic.bitLength x.significand - Dyadic.precision) leastPlace
    pack negative
      (Dyadic.divNearest (x.significand <<< (x.exponent - e).toNat) (1 <<< (e - x.exponent).toNat)) e

/-- The nearest double to a signed fraction. -/
def ofQuotient (negative : Bool) (num den : Nat) : Float :=
  if num == 0 then
    if negative then -0.0 else 0.0
  else
    let e := max (Dyadic.lastPlace num den) leastPlace
    pack negative (Dyadic.quotientAt num den e) e

/-- The nearest double to a signed whole number. -/
def ofWhole (negative : Bool) (n : Nat) : Float :=
  withSign negative (Float.ofNat n)

/-- The nearest double to an integer. -/
def ofInt (i : Int) : Float :=
  ofWhole (decide (i < 0)) i.natAbs

def nan : Float := 0.0 / 0.0

def infinity : Float := 1.0 / 0.0

def isFinite (x : Float) : Bool :=
  match parts x with
  | .finite _ _ => true
  | _ => false

/-! ### Whole parts -/

/-- The integer part, toward zero, of a finite double. -/
def toInt? (x : Float) : Option Int :=
  match parts x with
  | .finite negative m => some (if negative then -(m.floor : Int) else m.floor)
  | _ => none

/-- Is this a finite whole number? -/
def isWhole (x : Float) : Bool :=
  match parts x with
  | .finite _ m => m.isWhole
  | _ => false

/-- Toward zero. -/
def trunc (x : Float) : Float :=
  match parts x with
  | .finite negative m => if 0 ≤ m.exponent then x else ofWhole negative m.floor
  | _ => x

/-- Toward negative infinity. -/
def floor (x : Float) : Float :=
  match parts x with
  | .finite negative m =>
    if 0 ≤ m.exponent then x else ofWhole negative (if negative then m.ceil else m.floor)
  | _ => x

/-- Toward positive infinity. -/
def ceil (x : Float) : Float :=
  match parts x with
  | .finite negative m =>
    if 0 ≤ m.exponent then x else ofWhole negative (if negative then m.floor else m.ceil)
  | _ => x

/-- The nearest whole number, halves upward: `-2.5` gives `-2`.  What rounds to zero
keeps its sign. -/
def roundHalfUp (x : Float) : Float :=
  match parts x with
  | .finite negative m =>
    if 0 ≤ m.exponent then x
    else
      let twice : Dyadic := ⟨m.significand, m.exponent + 1⟩
      -- ⌊m + 1/2⌋, and ⌈m - 1/2⌉ below zero
      if negative then ofWhole true (twice.ceil / 2) else ofWhole false ((twice.floor + 1) / 2)
  | _ => x

/-- The double as an array length or index: a whole number from zero to `2 ^ 32 - 1`. -/
def toIndex? (x : Float) : Option Nat :=
  match parts x with
  | .finite negative m =>
    let n := m.floor
    if m.isWhole && (!negative || n == 0) && n < UInt32.size then some n else none
  | _ => none

/-- How many whole units lie between zero and a nonnegative double; none for a double
below zero, infinite or not a number. -/
def toNat? (x : Float) : Option Nat :=
  match parts x with
  | .finite false m => some m.floor
  | .finite true m => if m.significand == 0 then some 0 else none
  | _ => none

/-- A position brought into `0 .. bound`. -/
def clamp (x : Float) (bound : Nat) : Nat :=
  match parts x with
  | .nan => 0
  | .infinite negative => if negative then 0 else bound
  | .finite negative m => if negative then 0 else min m.floor bound

/-! ### Words -/

/-- The integer part modulo `2 ^ 32`; zero for what is not finite. -/
def toWord (x : Float) : UInt32 :=
  match toInt? x with
  | some i => UInt32.ofNat (i % UInt32.size).toNat
  | none => 0

/-- The same word read as a signed number. -/
def toSignedWord (x : Float) : Int32 :=
  (toWord x).toInt32

def ofWord (w : UInt32) : Float :=
  Float.ofNat w.toNat

def ofSignedWord (w : Int32) : Float :=
  ofInt w.toInt

/-! ### Remainder -/

/-- What is left of `x` after taking away `y` as often as it goes into `x`; the sign is
that of `x`. -/
def rem (x y : Float) : Float :=
  match parts x, parts y with
  | .finite negative m, .finite _ d =>
    if d.significand == 0 then nan
    else
      let e := min m.exponent d.exponent
      let r := (m.significand <<< (m.exponent - e).toNat)
        % (d.significand <<< (d.exponent - e).toNat)
      ofDyadic negative ⟨r, e⟩
  | .finite _ _, .infinite _ => x
  | _, _ => nan

end Double

end Stepwise
