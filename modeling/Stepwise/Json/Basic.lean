/-
JSON documents.

An object keeps its members in the order written, repeated names included, so that a
decoder can refuse a repetition.  A number keeps its decimal value, and whether it was
written as plain digits, since a count is no count when it is written `1.0`.
-/
import Stepwise.Number.Decimal

namespace Stepwise

inductive Json where
  | null
  | bool (b : Bool)
  | number (value : Decimal.Literal) (plain : Bool)
  | string (s : String)
  | array (items : List Json)
  | object (members : List (String × Json))

instance : Inhabited Json := ⟨.null⟩

namespace Json

def ofNat (n : Nat) : Json := .number ⟨false, n, 0⟩ true

def ofInt (i : Int) : Json := .number ⟨decide (i < 0), i.natAbs, 0⟩ true

/-- The member of a name, the first if there are several. -/
def member? (name : String) : Json → Option Json
  | .object members => members.lookup name
  | _ => none

/-- A count: a number written in plain digits, without a sign, below `2 ^ 64`. -/
def toCount? : Json → Option Nat
  | .number ⟨false, n, _⟩ true => if n < UInt64.size then some n else none
  | _ => none

/-- The double nearest to a number. -/
def toDouble? : Json → Option Float
  | .number l _ => some l.toDouble
  | _ => none

end Json

end Stepwise
