/-
Property keys.

A key is an array index or a name, and a text that writes an index is that index: no
object has a property twice, once by number and once by text.
-/
import Stepwise.Value

namespace Stepwise

/-- No index reaches this number, so that one more than an index is still a length. -/
def indexBound : Nat := UInt32.size - 1

/-- No length reaches this number. -/
def lengthBound : Nat := UInt32.size

inductive Key where
  | index (i : Nat)
  | name (s : String)
deriving DecidableEq, Inhabited

namespace Key

/-- The index that a text writes: digits, without a zero in front of others. -/
def readIndex? (text : List Char) : Option Nat :=
  if !text.isEmpty && text.length ≤ 10 && text.all Char.isDigit
      && (text.head? != some '0' || text.length == 1) then
    (some (Decimal.ofDigits text)).filter (· < indexBound)
  else none

def ofText (s : String) : Key :=
  match readIndex? s.toList with
  | some i => .index i
  | none => .name s

def ofNat (i : Nat) : Key :=
  if i < indexBound then .index i else .name (toString i)

def index? : Key → Option Nat
  | .index i => some i
  | .name _ => none

def toText : Key → String
  | .index i => toString i
  | .name s => s

def length : Key := .name "length"

def prototype : Key := .name "prototype"

end Key

end Stepwise
