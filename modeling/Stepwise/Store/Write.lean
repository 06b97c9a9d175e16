/-
Writing properties.

What a write comes to is decided before anything is changed: it may be refused, it may
be ignored, it may set the length of an array, or it stores a property.  So a write that
is refused leaves the store as it was.
-/
import Stepwise.Store.Convert

namespace Stepwise

/-- What a write comes to. -/
inductive Write where
  | ignored
  | resize (id : ObjectId) (length : Nat)
  | put (id : ObjectId) (key : Key) (value : Value)

namespace Heap

/-- What writing a property comes to.  Primitives and the characters of a string do not take
a write. -/
def planWrite (s : Heap) (target : Value) (key : Key) (value : Value) : Except Failure Write :=
  match target with
  | .undefined | .null =>
    throw (.wrongType ("Cannot set property '" ++ key.toText ++ "' of " ++ target.toText))
  | .object id =>
    if (s.stringData? target).any fun text => stringOwns text key then return .ignored
    else if key == .length && s.isArray target then
      match Double.toIndex? (s.toNumber value) with
      | some length => return .resize id length
      | none => throw .invalidArrayLength
    else return .put id key value
  | _ => return .ignored

def carryOut : Write → Heap → Heap
  | .ignored, s => s
  | .resize id length, s => s.change id fun o => o.resize length
  | .put id key value, s => s.change id fun o => o.put key value

/-- Does `delete` report success?  A read-only property and the length of an array stay. -/
def canDelete (s : Heap) (target : Value) (key : Key) : Bool :=
  match s.objectOf? target with
  | none => false
  | some o =>
    if key == .length && o.isArray then false
    else
      match o.properties.get? key with
      | some p => !p.readonly
      | none => true

end Heap

namespace Store

/-- Write a property. -/
def setProperty (target : Value) (key : Key) (value : Value) : Edit Unit := do
  let write ← Edit.query fun s => s.planWrite target key value
  Edit.commit (Heap.carryOut write)

/-- The `delete` operator. -/
def deleteProperty (target : Value) (key : Key) : Edit Bool := do
  let can ← Edit.ask fun s => s.canDelete target key
  match can, target with
  | true, .object id =>
    Edit.commit fun s => s.change id fun o => o.erase key
    return true
  | _, _ => return false

/-- Set the length of an array. -/
def setLength (id : ObjectId) (length : Nat) : Edit Unit :=
  Edit.commit fun s => s.change id fun o => o.resize length

/-- Turn an object into one of another kind. -/
def setKind (id : ObjectId) (kind : Kind) : Edit Unit :=
  Edit.commit fun s => s.change id fun o => { o with kind }

end Store

end Stepwise
