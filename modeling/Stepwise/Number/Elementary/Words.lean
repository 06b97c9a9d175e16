/-
Halves of the bit pattern of a double.

The elementary functions decide by the size of their argument, to which the upper half of
the pattern is a fine enough guide, and they clear the lower half of a number to multiply
it without rounding.
-/
import Stepwise.Number.Double

namespace Stepwise

namespace Double

/-- The upper half of the pattern without the sign.  It grows with the magnitude. -/
def rank (x : Float) : Nat := (x.toBits >>> 32).toNat % 0x80000000

def lowWord (x : Float) : Nat := x.toBits.toNat % UInt32.size

/-- The double of an upper and a lower half. -/
def ofWords (high low : Nat) : Float := Float.ofBits (UInt64.ofNat (high <<< 32 + low))

/-- The number without the lower half of its pattern. -/
def clearLow (x : Float) : Float := Float.ofBits (x.toBits &&& 0xffffffff00000000)

/-- The exponent field of a pattern. -/
def exponentField (x : Float) : Nat := rank x >>> 20

/-- The number times a power of two, rounded once. -/
def scale (x : Float) (k : Int) : Float :=
  match parts x with
  | .finite negative m => ofDyadic negative ⟨m.significand, m.exponent + k⟩
  | _ => x

end Double

namespace Elementary

/-- The polynomial with the coefficients, that of the lowest power first. -/
def horner (coefficients : List Float) (x : Float) : Float :=
  coefficients.foldr (fun c acc => c + x * acc) 0.0

end Elementary

end Stepwise
