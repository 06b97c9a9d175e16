/-
The methods of arrays.

They read and write through `length` and the indices, so they work on any value that has
these.  The methods that move elements within a long array touch only the indices that
are there; those that rebuild it refuse one that is too long.
-/
import Stepwise.Builtin.Arguments

namespace Stepwise

namespace Sequence

open Store

/-! ### Elements -/

def store (target : Value) (i : Nat) (v : Value) : Edit Unit := setProperty target (.ofNat i) v

def storeLength (target : Value) (length : Nat) : Edit Unit :=
  setProperty target .length (.ofNat length)

/-- Take the element at an index away. -/
def take (target : Value) (i : Nat) : Edit (Nat × Value) := do
  let v ← Edit.query fun s => s.getProperty target (.ofNat i)
  let _ ← deleteProperty target (.ofNat i)
  return (i, v)

/-- Take the elements below a length away, upward. -/
def takeAll (target : Value) (length : Nat) : Edit (List (Nat × Value)) := do
  let indices ← Edit.ask fun s => s.elementIndices target length
  indices.mapM (take target)

/-- Make the elements of a value those of a list. -/
def replaceAll (target : Value) (elements : List Value) : Edit Unit := do
  let oldLength ← Edit.ask fun s => s.lengthOf target
  elements.zipIdx.forM fun (v, i) => store target i v
  (List.range' elements.length (oldLength - elements.length)).forM fun i => do
    let _ ← deleteProperty target (.ofNat i)
  storeLength target elements.length

/-! ### The ends -/

/-- Add an element behind a length; the new length has to stay below the bound. -/
def append (target : Value) (length : Nat) (v : Value) : Edit Nat :=
  if length + 1 < lengthBound then do
    store target length v
    return length + 1
  else throw .invalidArrayLength

def push (target : Value) (args : List Value) : Edit Value := do
  let length ← Edit.ask fun s => s.lengthOf target
  let length ← args.foldlM (append target) length
  storeLength target length
  return .ofNat length

def pop (target : Value) : Edit Value := do
  let length ← Edit.ask fun s => s.lengthOf target
  match length with
  | 0 =>
    storeLength target 0
    return .undefined
  | last + 1 =>
    let (_, v) ← take target last
    storeLength target last
    return v

def shift (target : Value) : Edit Value := do
  let length ← Edit.ask fun s => s.lengthOf target
  match length with
  | 0 =>
    storeLength target 0
    return .undefined
  | last + 1 =>
    let first ← Edit.query fun s => s.getProperty target (.ofNat 0)
    let taken ← takeAll target length
    taken.forM fun (i, v) =>
      match i with
      | 0 => return ()
      | i + 1 => store target i v
    storeLength target last
    return first

def unshift (target : Value) (args : List Value) : Edit Value := do
  let length ← Edit.ask fun s => s.lengthOf target
  let newLength := length + args.length
  if newLength < lengthBound then
    let taken ← takeAll target length
    taken.forM fun (i, v) => store target (i + args.length) v
    args.zipIdx.forM fun (v, i) => store target i v
    storeLength target newLength
    return .ofNat newLength
  else throw .invalidArrayLength

/-! ### Cutting and joining -/

def reverse (target : Value) : Edit Value := do
  let elements ← Edit.query fun s => s.elements target
  replaceAll target elements.reverse
  return target

/-- How many elements `splice` removes behind its start, at most `available`: all of them
if only the start is given. -/
def removalCount (s : Heap) (args : List Value) (available : Nat) : Nat :=
  match args.length with
  | 0 => 0
  | 1 => available
  | _ => Double.clamp (s.numberArgument args 1) available

def splice (target : Value) (args : List Value) : Edit Value := do
  let elements ← Edit.query fun s => s.elements target
  let length := elements.length
  let start ← Edit.ask fun s => s.positionArgument args 0 length 0
  let count ← Edit.ask fun s => removalCount s args (length - start)
  let removed := (elements.drop start).take count
  replaceAll target (elements.take start ++ args.drop 2 ++ elements.drop (start + count))
  return .object (← allocArray removed)

def slice (target : Value) (args : List Value) : Edit Value := do
  let elements ← Edit.query fun s => s.elements target
  let length := elements.length
  let first ← Edit.ask fun s => s.positionArgument args 0 length 0
  let last ← Edit.ask fun s => s.positionArgument args 1 length length
  return .object (← allocArray ((elements.drop first).take (last - first)))

/-- What a value contributes to a concatenation: an array its elements, any other value
itself. -/
def contribution (s : Heap) (v : Value) : Except Failure (List Value) :=
  if s.isArray v then s.elements v else return [v]

def concat (target : Value) (args : List Value) : Edit Value := do
  let parts ← Edit.query fun s => (target :: args).mapM (contribution s)
  return .object (← allocArray parts.flatten)

def join (s : Heap) (target : Value) (args : List Value) : Except Failure Value :=
  let separator :=
    match argument args 0 with
    | .undefined => ","
    | v => s.toText v
  match target with
  | .object id => (s.join id separator).map .string
  | v => return .string (s.toText v)

/-! ### Searching -/

/-- Does the element at an index have the value? -/
def holds (s : Heap) (target wanted : Value) (i : Nat) : Bool :=
  (s.element target i).strictEquals wanted

/-- The place of a match as a value, minus one for none. -/
def place : Option Nat → Value
  | some i => .ofNat i
  | none => .number (-1.0)

def indexOf (s : Heap) (target : Value) (args : List Value) : Value :=
  let length := s.lengthOf target
  let start := s.positionArgument args 1 length 0
  place ((s.elementIndices target length).find? fun i =>
    start ≤ i && holds s target (argument args 0) i)

def lastIndexOf (s : Heap) (target : Value) (args : List Value) : Value :=
  let length := s.lengthOf target
  let count :=
    match argument args 1 with
    | .undefined => length
    | v => Double.backwardCount (s.toNumber v) length
  place ((s.elementIndices target length).reverse.find? fun i =>
    i < count && holds s target (argument args 0) i)

/-! ### The constructor and the methods -/

/-- Make an object an array of a length, if that is the only argument, or of elements. -/
def fill (id : ObjectId) (args : List Value) : Edit Unit :=
  match args with
  | [.number n] =>
    match Double.toIndex? n with
    | some length => setLength id length
    | none => throw .invalidArrayLength
  | args => args.zipIdx.forM fun (v, i) => define id (.ofNat i) (.plain v)

/-- A receiver that is fresh from `new` is filled, else a new array. -/
def construct (receiver : Value) (args : List Value) : Edit Value := do
  let isNew ← Edit.ask fun s => s.isBlankInstance receiver Intrinsic.array
  match isNew, receiver with
  | true, .object id =>
    fill id args
    return receiver
  | _, _ =>
    let id ← allocArray []
    fill id args
    return .object id

/-- The name of a method in what a failure says. -/
def methodName : ArrayMethod → String
  | .push => "push"
  | .pop => "pop"
  | .shift => "shift"
  | .unshift => "unshift"
  | .splice => "splice"
  | .reverse => "reverse"
  | .concat => "concat"
  | .slice => "slice"
  | .join | .toText => "join"
  | .indexOf => "indexOf"
  | .lastIndexOf => "lastIndexOf"

def method (method : ArrayMethod) (receiver : Value) (args : List Value) : Edit Value := do
  liftExcept (refuseNullish "Array" (methodName method) receiver)
  match method with
  | .push => push receiver args
  | .pop => pop receiver
  | .shift => shift receiver
  | .unshift => unshift receiver args
  | .splice => splice receiver args
  | .reverse => reverse receiver
  | .concat => concat receiver args
  | .slice => slice receiver args
  | .join => Edit.query fun s => join s receiver args
  | .toText => Edit.query fun s => join s receiver []
  | .indexOf => Edit.ask fun s => indexOf s receiver args
  | .lastIndexOf => Edit.ask fun s => lastIndexOf s receiver args
where
  /-- A check that does not look at the store. -/
  liftExcept (check : Except Failure Unit) : Edit Unit := Edit.query fun _ => check

end Sequence

end Stepwise
