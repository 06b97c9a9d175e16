/-
Whole numbers as doubles hold them.

The arithmetic of dates runs on doubles that are whole.  A sum or a product is exact
while it has at most fifty-three binary digits, is rounded beyond, and is lost where no
double reaches.
-/
import Stepwise.Number.Double

namespace Stepwise

namespace Whole

/-- The nearest whole number that is a double; none beyond the largest double. -/
def round? (i : Int) : Option Int :=
  let n := (Dyadic.round ⟨i.natAbs, 0⟩).floor
  if 1 <<< 1024 ≤ n then none else some (if i < 0 then -(n : Int) else n)

def add? (a b : Int) : Option Int := round? (a + b)

def mul? (a b : Int) : Option Int := round? (a * b)

/-- A quotient rounded as a double and then brought down to a whole number. -/
def floorQuotient (a : Int) (b : Nat) : Int :=
  if a == 0 then 0
  else
    let q := Dyadic.ofQuotient a.natAbs b
    if a < 0 then -(q.ceil : Int) else q.floor

end Whole

end Stepwise
