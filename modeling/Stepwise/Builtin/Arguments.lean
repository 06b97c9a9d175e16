/-
Arguments and receivers of library functions.

A missing argument reads as undefined.  Positions and counts are cut to whole numbers;
those that lie outside a sequence are brought to its ends.
-/
import Stepwise.Store.Write

namespace Stepwise

/-- The argument at a place, undefined when missing. -/
def argument (args : List Value) (i : Nat) : Value := (args[i]?).getD .undefined

/-! ### Positions -/

namespace Double

/-- A position counted from the start, or from the end if it is below zero, brought into
`0 .. length`.  The sign counts before the cut: half a step below zero is the end. -/
def relative (x : Float) (length : Nat) : Nat :=
  match parts x with
  | .nan => 0
  | .infinite negative => if negative then 0 else length
  | .finite negative m =>
    if negative && m.significand != 0 then length - m.floor else min m.floor length

/-- How many elements from the first on a backward search looks at that starts at a
position, counted from the end if its whole part is below zero. -/
def backwardCount (x : Float) (length : Nat) : Nat :=
  match parts x with
  | .nan => min 1 length
  | .infinite negative => if negative then 0 else length
  | .finite negative m =>
    if negative && m.floor != 0 then length + 1 - m.floor else min (m.floor + 1) length

end Double

namespace Heap

/-- The number of an argument. -/
def numberArgument (s : Heap) (args : List Value) (i : Nat) : Float := s.toNumber (argument args i)

/-- The text of an argument. -/
def textArgument (s : Heap) (args : List Value) (i : Nat) : String := s.toText (argument args i)

/-- The whole part of an argument, zero for what is not a number, and `default` where none is
given. -/
def wholeArgument (s : Heap) (args : List Value) (i : Nat) (default : Float) : Float :=
  match argument args i with
  | .undefined => default
  | v =>
    let n := s.toNumber v
    if n.isNaN then 0.0 else Double.trunc n

/-- A relative position given as an argument. -/
def positionArgument (s : Heap) (args : List Value) (i length default : Nat) : Nat :=
  match argument args i with
  | .undefined => default
  | v => Double.relative (s.toNumber v) length

/-! ### Receivers -/

/-- Is the receiver still as `new` makes it for the constructor: without properties, and
not yet of a kind of its own? -/
def isBlankInstance (s : Heap) (receiver : Value) (constructor : ObjectId) : Bool :=
  (s.objectOf? receiver).any fun o =>
    o.parent == some constructor && o.properties.isEmpty
      && match o.kind with
        | .ordinary | .array 0 => true
        | _ => false

/-- The primitive within a wrapper, or the primitive itself. -/
def unwrap (s : Heap) (v : Value) : Value :=
  match v with
  | .object id =>
    match (s.object? id).map Object.kind with
    | some (.wrapper payload) => payload
    | _ => v
  | v => v

end Heap

/-- Methods of the family refuse null and undefined as receivers. -/
def refuseNullish (family method : String) (receiver : Value) : Except Failure Unit :=
  if receiver.isNullish then
    throw (.wrongType (family ++ ".prototype." ++ method ++ " called on null or undefined"))
  else return ()

end Stepwise
