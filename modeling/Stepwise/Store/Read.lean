/-
Reading properties.

Reads go to the nearest object on the chain that has the key.  Two keys are answered
before: the characters and the `length` of a string, and the `length` of an array.
-/
import Stepwise.Store.Chain

namespace Stepwise

namespace Heap

/-- The text of a string, bare or wrapped. -/
def stringData? (s : Heap) : Value → Option String
  | .string t => some t
  | .object id =>
    match (s.object? id).map Object.kind with
    | some (.wrapper (.string t)) => some t
    | _ => none
  | _ => none

/-- Is this a key that a string answers by itself? -/
def stringOwns (text : String) : Key → Bool
  | .index i => i < Units.length text.toList
  | key => key == .length

/-- What a string answers by itself. -/
def stringProperty? (text : String) : Key → Option Value
  | .index i => (Units.charAt? text.toList i).map .string
  | key => if key == .length then some (.ofNat (Units.length text.toList)) else none

/-- The length that an array answers by itself. -/
def arrayProperty? (s : Heap) (v : Value) (key : Key) : Option Value :=
  if key == .length then ((s.objectOf? v).bind Object.arrayLength?).map .ofNat else none

/-- The property of a value that can have properties. -/
def property (s : Heap) (v : Value) (key : Key) : Value :=
  match (s.stringData? v).bind fun text => stringProperty? text key with
  | some value => value
  | none =>
    match s.arrayProperty? v key with
    | some value => value
    | none =>
      match (s.start? v).bind fun id => s.find? id key with
      | some p => p.value
      | none => .undefined

def getProperty (s : Heap) (v : Value) (key : Key) : Except Failure Value :=
  if v.isNullish then
    throw (.wrongType ("Cannot read property '" ++ key.toText ++ "' of " ++ v.toText))
  else return s.property v key

/-- A named property of an object. -/
def get (s : Heap) (id : ObjectId) (name : String) : Value :=
  s.property (.object id) (.ofText name)

/-- Has an object the property, of its own or inherited? -/
def hasOf (s : Heap) (id : ObjectId) (key : Key) : Bool :=
  (key == .length && s.isArray (.object id))
    || (s.stringData? (.object id)).any (fun text => stringOwns text key)
    || (s.find? id key).isSome

/-- The `in` operator; a primitive has no properties to test. -/
def hasProperty (s : Heap) (v : Value) (key : Key) : Except Failure Bool :=
  match v with
  | .object id => return s.hasOf id key
  | v =>
    throw (.wrongType
      ("Cannot use 'in' operator to search for '" ++ key.toText ++ "' in " ++ v.toText))

end Heap

end Stepwise
