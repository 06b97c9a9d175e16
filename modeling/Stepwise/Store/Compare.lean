/-
Order and equality of values.
-/
import Stepwise.Store.Convert

namespace Stepwise

/-- The order of two numbers; none if one of them is not a number. -/
def compareNumbers (x y : Float) : Option Ordering :=
  if x < y then some .lt
  else if x == y then some .eq
  else if y < x then some .gt
  else none

/-- The order of two primitives: that of texts if both are, else that of their numbers. -/
def comparePrimitives (a b : Value) : Option Ordering :=
  match a, b with
  | .string x, .string y => some (Units.compare (Units.encode x.toList) (Units.encode y.toList))
  | a, b => compareNumbers a.toNumber b.toNumber

namespace Heap

/-- The order of two values, none if they cannot be compared.  An object is equal to itself,
whatever it converts to. -/
def compare (s : Heap) (a b : Value) : Option Ordering :=
  match a, b with
  | .object x, .object y =>
    if x == y then some .eq
    else comparePrimitives (s.toPrimitive a .number) (s.toPrimitive b .number)
  | a, b => comparePrimitives (s.toPrimitive a .number) (s.toPrimitive b .number)

/-- The equality that converts: null and undefined equal each other and nothing else, two
objects only themselves. -/
def looseEquals (s : Heap) (a b : Value) : Bool :=
  if a.isNullish || b.isNullish then a.isNullish && b.isNullish
  else
    match a, b with
    | .object x, .object y => x == y
    | a, b => s.compare (s.toPrimitive a .default) (s.toPrimitive b .default) == some .eq

end Heap

end Stepwise
