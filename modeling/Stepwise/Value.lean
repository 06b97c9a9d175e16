/-
Values.

A value is a primitive or the place of an object in the store.  Here stands what a value
tells by itself; what needs the object behind it is said of the store.
-/
import Stepwise.Number.Layout
import Stepwise.Number.Reading
import Stepwise.Text.Units

namespace Stepwise

/-- The place of an object in the store. -/
structure ObjectId where
  index : Nat
deriving DecidableEq, Inhabited

inductive Value where
  | undefined
  | null
  | boolean (b : Bool)
  | number (n : Float)
  | string (s : String)
  | object (id : ObjectId)
deriving Inhabited

namespace Value

def ofNat (n : Nat) : Value := .number (Float.ofNat n)

def isNullish : Value → Bool
  | .undefined | .null => true
  | _ => false

def isUndefined : Value → Bool
  | .undefined => true
  | _ => false

def isPrimitive : Value → Bool
  | .object _ => false
  | _ => true

def objectId? : Value → Option ObjectId
  | .object id => some id
  | _ => none

/-- Does a condition with this value hold?  Every object counts as true. -/
def truthy : Value → Bool
  | .undefined | .null => false
  | .boolean b => b
  | .number n => !(n == 0.0) && !n.isNaN
  | .string s => !s.isEmpty
  | .object _ => true

/-- The number of a primitive; an object has none by itself. -/
def toNumber : Value → Float
  | .undefined => Double.nan
  | .null => 0.0
  | .boolean b => if b then 1.0 else 0.0
  | .number n => n
  | .string s => Reading.number s.toList
  | .object _ => Double.nan

/-- The text of a primitive; for an object the general one. -/
def toText : Value → String
  | .undefined => "undefined"
  | .null => "null"
  | .boolean b => if b then "true" else "false"
  | .number n => Layout.ofDouble n
  | .string s => s
  | .object _ => "[object Object]"

/-- The text that shows a value to a host, with quotes around strings. -/
def debugText : Value → String
  | .string s => "\"" ++ s ++ "\""
  | .object id => "[object #" ++ toString id.index ++ "]"
  | v => v.toText

/-- Sameness of kind and content; objects are the same only as themselves, and what is not
a number is never the same. -/
def strictEquals : Value → Value → Bool
  | .undefined, .undefined => true
  | .null, .null => true
  | .boolean a, .boolean b => a == b
  | .number a, .number b => a == b
  | .string a, .string b => a == b
  | .object a, .object b => a == b
  | _, _ => false

end Value

end Stepwise
