/-
Objects as primitives.

No script runs when an object is converted: what it becomes depends on its kind alone.
An array becomes the texts of its elements, joined; arrays within arrays are joined in
turn, and one that is already being joined further out becomes nothing, so a ring of
arrays has a text too.
-/
import Stepwise.Calendar.Form
import Stepwise.Store.Read

namespace Stepwise

/-- No text joined from an array has more bytes. -/
def maxTextBytes : Nat := 0x20000000 - 24

/-- An array beyond this length is walked by the indices it has, and not copied. -/
def maxDenseLength : Nat := 0x1000000

/-- What a conversion to a primitive is for. -/
inductive Hint where
  | default | number | string
deriving DecidableEq

namespace Heap

/-- The indices below a length that are worth a look: all of them, or of a long array those
that are there. -/
def elementIndices (s : Heap) (v : Value) (length : Nat) : List Nat :=
  if length ≤ maxDenseLength then List.range length
  else
    match s.objectOf? v with
    | some o => o.properties.indices.filter (· < length)
    | none => []

/-- The element at an index, whatever provides it. -/
def element (s : Heap) (v : Value) (i : Nat) : Value := s.property v (.ofNat i)

/-- The primitive of a value that is not an array. -/
def scalar (s : Heap) (v : Value) (hint : Hint) : Value :=
  match v with
  | .object id =>
    match (s.object? id).map Object.kind with
    | none => .undefined
    | some (.wrapper payload) => payload
    | some (.date time) =>
      if hint == .number then .number time else .string (Calendar.textOf .full time)
    | some (.function f) => .string f.source
    | some _ => .string "[object Object]"
  | v => v

/-! ### Joining -/

/-- So many copies of a separator. -/
def separators (separator : String) (count : Nat) : String :=
  if separator.isEmpty then "" else String.join (List.replicate count separator)

/-- A text within the limit. -/
def withinLimit (text : String) : Except Failure String :=
  if maxTextBytes < text.utf8ByteSize then throw .invalidStringLength else return text

/-- Append the elements at the given indices to a text that already has `written`
separators.  In front of the element at an index stand as many separators as the index
says. -/
def joinElements (elementText : Nat → Except Failure String) (separator : String) :
    (indices : List Nat) → (written : Nat) → (out : String) → Except Failure (Nat × String)
  | [], written, out => return (written, out)
  | i :: rest, written, out => do
    let text ← elementText i
    let out ← withinLimit (out ++ separators separator (i - written) ++ text)
    joinElements elementText separator rest i out

/-- The elements of an array-like value below a length, joined; `joinInner` joins an array
among them. -/
def joinWith (s : Heap) (joinInner : ObjectId → Except Failure String) (v : Value)
    (length : Nat) (separator : String) : Except Failure String := do
  if maxTextBytes < (length - 1) * separator.utf8ByteSize then throw .invalidStringLength
  let elementText (i : Nat) : Except Failure String :=
    match s.element v i with
    | .undefined | .null => return ""
    | .object id =>
      if s.isArray (.object id) then joinInner id
      else return (s.scalar (.object id) .string).toText
    | primitive => return primitive.toText
  let (written, out) ← joinElements elementText separator (s.elementIndices v length) 0 ""
  return out ++ separators separator (length - 1 - written)

/-- An array among the elements of others, joined with commas.  `joining` are the arrays
further out; each is another one, so the store has enough of them for fuel. -/
def joinNested (s : Heap) : (fuel : Nat) → (joining : List ObjectId) → ObjectId →
    Except Failure String
  | 0, _, _ => return ""
  | fuel + 1, joining, id =>
    if joining.contains id then return ""
    else
      let length := ((s.object? id).bind Object.arrayLength?).getD 0
      s.joinWith (s.joinNested fuel (id :: joining)) (.object id) length ","

/-- The text of an array. -/
def arrayText (s : Heap) (id : ObjectId) : Except Failure String :=
  s.joinNested s.walkFuel [] id

/-! ### Primitives, numbers and texts -/

/-- The primitive of a value; only an array too long to write has none. -/
def toPrimitive? (s : Heap) (v : Value) (hint : Hint) : Except Failure Value :=
  match v with
  | .object id =>
    if s.isArray v then (s.arrayText id).map .string else return s.scalar v hint
  | v => return v

/-- The primitive of a value, where no failure can be told: an array too long to write
becomes the empty text. -/
def toPrimitive (s : Heap) (v : Value) (hint : Hint) : Value :=
  match s.toPrimitive? v hint with
  | .ok p => p
  | .error _ => .string ""

def toNumber (s : Heap) (v : Value) : Float := (s.toPrimitive v .number).toNumber

def toText (s : Heap) (v : Value) : String := (s.toPrimitive v .string).toText

def toText? (s : Heap) (v : Value) : Except Failure String :=
  (s.toPrimitive? v .string).map Value.toText

/-- The text that a thrown value is reported with. -/
def display (s : Heap) (v : Value) : String := s.toText v

/-- The key that a value stands for. -/
def toKey (s : Heap) (v : Value) : Key :=
  match v with
  | .number n =>
    match (Double.toIndex? n).filter (· < indexBound) with
    | some i => .index i
    | none => .ofText v.toText
  | v => .ofText (s.toText v)

/-- The `typeof` of a value. -/
def typeName (s : Heap) (v : Value) : String :=
  match v with
  | .undefined => "undefined"
  | .null => "object"
  | .boolean _ => "boolean"
  | .number _ => "number"
  | .string _ => "string"
  | .object _ => if s.isCallable v then "function" else "object"

/-! ### Array-like values -/

/-- The `length` of a value, zero where it has no proper one. -/
def lengthOf (s : Heap) (v : Value) : Nat :=
  match s.getProperty v .length with
  | .ok n => (Double.toIndex? (s.toNumber n)).getD 0
  | .error _ => 0

/-- The elements of a value that is not too long; where there is none stands undefined. -/
def elements (s : Heap) (v : Value) : Except Failure (List Value) :=
  let length := s.lengthOf v
  if maxDenseLength < length then throw .invalidArrayLength
  else return (List.range length).map (s.element v)

/-- The elements of an object, joined. -/
def join (s : Heap) (id : ObjectId) (separator : String) : Except Failure String :=
  s.joinWith (s.joinNested s.walkFuel [id]) (.object id) (s.lengthOf (.object id)) separator

end Heap

end Stepwise
