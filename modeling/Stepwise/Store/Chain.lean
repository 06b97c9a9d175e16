/-
Inheritance.

An object inherits from the `prototype` object of its parent, which may in turn inherit
from the prototype of another constructor.  A script can tie these links into a ring, so
every walk visits an object once at most; a walk takes no more steps than the store has
objects, and that many are its fuel.
-/
import Stepwise.Store.Basic

namespace Stepwise

namespace Heap

/-- The constructor that a value inherits from; a primitive has that of its wrapper. -/
def parent? (s : Heap) : Value → Option ObjectId
  | .undefined | .null => none
  | .boolean _ => some Intrinsic.boolean
  | .number _ => some Intrinsic.number
  | .string _ => some Intrinsic.string
  | .object id => (s.object? id).bind Object.parent

/-- The `prototype` of a constructor, if it is an object. -/
def prototypeOf? (s : Heap) (constructor : ObjectId) : Option ObjectId := do
  let o ← s.object? constructor
  let p ← o.properties.get? .prototype
  p.value.objectId?

/-- The next object to look at after one. -/
def next? (s : Heap) (id : ObjectId) : Option ObjectId := do
  let o ← s.object? id
  s.prototypeOf? (← o.parent)

/-- The first object to look at for a property of a value. -/
def start? (s : Heap) : Value → Option ObjectId
  | .object id => some id
  | v => (s.parent? v).bind s.prototypeOf?

/-- Steps enough for any walk. -/
def walkFuel (s : Heap) : Nat := s.objects.size + 1

/-! ### Finding a property -/

def findFrom (s : Heap) (key : Key) : (fuel : Nat) → (visited : List ObjectId) → ObjectId →
    Option Property
  | 0, _, _ => none
  | fuel + 1, visited, id =>
    if visited.contains id then none
    else
      match s.object? id with
      | none => none
      | some o =>
        match o.properties.get? key with
        | some p => some p
        | none =>
          match o.parent.bind s.prototypeOf? with
          | some next => s.findFrom key fuel (id :: visited) next
          | none => none

/-- The property of a key that is nearest to an object. -/
def find? (s : Heap) (id : ObjectId) (key : Key) : Option Property :=
  s.findFrom key s.walkFuel [] id

/-! ### The chain as a whole -/

def chainFrom (s : Heap) : (fuel : Nat) → (visited : List ObjectId) → ObjectId → List ObjectId
  | 0, _, _ => []
  | fuel + 1, visited, id =>
    if visited.contains id then []
    else
      id ::
        match s.next? id with
        | some next => s.chainFrom fuel (id :: visited) next
        | none => []

/-- The objects that a value's properties are looked for in, the nearest first. -/
def chain (s : Heap) (v : Value) : List ObjectId :=
  match s.start? v with
  | some id => s.chainFrom s.walkFuel [] id
  | none => []

/-! ### Instances -/

def inheritsFrom (s : Heap) (constructor : ObjectId) : (fuel : Nat) →
    (visited : List ObjectId) → (parent : ObjectId) → Bool
  | 0, _, _ => false
  | fuel + 1, visited, parent =>
    if parent == constructor then true
    else
      match s.prototypeOf? parent with
      | none => false
      | some proto =>
        if visited.contains proto then false
        else
          match (s.object? proto).bind Object.parent with
          | some next => s.inheritsFrom constructor fuel (proto :: visited) next
          | none => false

/-- Is an object with this parent an instance of the constructor? -/
def inherits (s : Heap) (parent constructor : ObjectId) : Bool :=
  s.inheritsFrom constructor s.walkFuel [] parent

/-- Is a value an instance of the constructor? -/
def isInstance (s : Heap) (v : Value) (constructor : ObjectId) : Bool :=
  (s.parent? v).any fun parent => s.inherits parent constructor

/-- The kind of a new object: what inherits from `Array` is an array. -/
def instanceKind (s : Heap) (parent : Option ObjectId) : Kind :=
  if parent.any fun parent => s.inherits parent Intrinsic.array then .array 0 else .ordinary

end Heap

namespace Store

/-- A new object that inherits from the prototype of `parent`. -/
def allocInstance (parent : Option ObjectId) : Edit ObjectId := do
  let kind ← Edit.ask fun s => s.instanceKind parent
  alloc (.new parent kind)

/-- The object of an empty literal. -/
def allocPlain : Edit ObjectId := allocInstance (some Intrinsic.object)

end Store

end Stepwise
