/-
Primitives and the objects that wrap them.

Called as a function, a constructor of primitives converts its argument; called with
`new`, it turns the fresh receiver into a wrapper of the result.
-/
import Stepwise.Builtin.Arguments

namespace Stepwise

namespace Wrapping

open Store

/-- A converted primitive: in a wrapper if the receiver is fresh from `new`, else bare. -/
def wrapIfNew (constructor : ObjectId) (receiver payload : Value) : Edit Value := do
  let isNew ← Edit.ask fun s => s.isBlankInstance receiver constructor
  match isNew, receiver with
  | true, .object id =>
    setKind id (.wrapper payload)
    return receiver
  | _, _ => return payload

def number (receiver : Value) (args : List Value) : Edit Value := do
  let n ← Edit.ask fun s => if args.isEmpty then 0.0 else s.numberArgument args 0
  wrapIfNew Intrinsic.number receiver (.number n)

def text (receiver : Value) (args : List Value) : Edit Value := do
  let t ← Edit.query fun s => if args.isEmpty then return "" else s.toText? (argument args 0)
  wrapIfNew Intrinsic.string receiver (.string t)

def boolean (receiver : Value) (args : List Value) : Edit Value :=
  wrapIfNew Intrinsic.boolean receiver (.boolean (argument args 0).truthy)

/-- A new wrapper of a primitive. -/
def wrap (constructor : ObjectId) (payload : Value) : Edit Value := do
  let id ← allocInstance (some constructor)
  setKind id (.wrapper payload)
  return .object id

/-- The object of a value: an object as it is, a primitive in a wrapper, and for null and
undefined an empty object. -/
def object (receiver : Value) (args : List Value) : Edit Value := do
  match argument args 0 with
  | .object id => return .object id
  | .undefined | .null =>
    let isNew ← Edit.ask fun s => s.isBlankInstance receiver Intrinsic.object
    if isNew then return receiver else return .object (← allocPlain)
  | .boolean b => wrap Intrinsic.boolean (.boolean b)
  | .number n => wrap Intrinsic.number (.number n)
  | .string t => wrap Intrinsic.string (.string t)

/-! ### Receivers of the methods of primitives -/

def booleanOf (s : Heap) (receiver : Value) : Except Failure Bool :=
  match s.unwrap receiver with
  | .boolean b => return b
  | _ => throw (.wrongType "Boolean.prototype method called on incompatible receiver")

def numberOf (s : Heap) (receiver : Value) : Except Failure Float :=
  match s.unwrap receiver with
  | .number n => return n
  | _ => throw (.wrongType "Number.prototype method called on incompatible receiver")

def textOf (s : Heap) (receiver : Value) : Except Failure String :=
  match s.unwrap receiver with
  | .string t => return t
  | _ => throw (.wrongType "String.prototype.valueOf requires that 'this' be a String")

def booleanText (s : Heap) (receiver : Value) : Except Failure Value := do
  return .string (Value.boolean (← booleanOf s receiver)).toText

end Wrapping

end Stepwise
