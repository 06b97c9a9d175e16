/-
What operators compute.
-/
import Stepwise.Store.Compare

namespace Stepwise

namespace Heap

/-- `+` appends texts if one of the primitives is a text, and adds numbers otherwise. -/
def add (s : Heap) (a b : Value) : Except Failure Value := do
  match ← s.toPrimitive? a .default, ← s.toPrimitive? b .default with
  | .string x, b => return .string (x ++ b.toText)
  | a, .string y => return .string (a.toText ++ y)
  | a, b => return .number (a.toNumber + b.toNumber)

/-- Is the order of two values an accepted one?  Values that cannot be compared have none. -/
def ordered (s : Heap) (a b : Value) (accept : Ordering → Bool) : Value :=
  .boolean ((s.compare a b).any accept)

def numeric (s : Heap) (a b : Value) (f : Float → Float → Float) : Value :=
  .number (f (s.toNumber a) (s.toNumber b))

/-- An operation on the 32-bit words of two values. -/
def onWords (s : Heap) (a b : Value) (f : UInt32 → UInt32 → UInt32) : Value :=
  .number (Double.ofSignedWord (f (Double.toWord (s.toNumber a)) (Double.toWord (s.toNumber b))).toInt32)

/-- How far a shift goes: the last five bits of the word. -/
def shiftCount (s : Heap) (v : Value) : UInt32 := Double.toWord (s.toNumber v) &&& 31

def binary (s : Heap) (op : BinaryOp) (a b : Value) : Except Failure Value :=
  match op with
  | .eq => return .boolean (s.looseEquals a b)
  | .notEq => return .boolean (!s.looseEquals a b)
  | .strictEq => return .boolean (a.strictEquals b)
  | .strictNotEq => return .boolean (!a.strictEquals b)
  | .less => return s.ordered a b (· == .lt)
  | .lessEq => return s.ordered a b (· != .gt)
  | .greater => return s.ordered a b (· == .gt)
  | .greaterEq => return s.ordered a b (· != .lt)
  | .add => s.add a b
  | .sub => return s.numeric a b (· - ·)
  | .mul => return s.numeric a b (· * ·)
  | .div => return s.numeric a b (· / ·)
  | .rem => return s.numeric a b Double.rem
  | .bitAnd => return s.onWords a b (· &&& ·)
  | .bitOr => return s.onWords a b (· ||| ·)
  | .bitXor => return s.onWords a b (· ^^^ ·)
  | .shiftLeft =>
    return .number (Double.ofSignedWord (Double.toWord (s.toNumber a) <<< s.shiftCount b).toInt32)
  | .shiftRight =>
    return .number
      (Double.ofSignedWord (Double.toSignedWord (s.toNumber a) >>> (s.shiftCount b).toInt32))
  | .shiftRightZero =>
    return .number (Double.ofWord (Double.toWord (s.toNumber a) >>> s.shiftCount b))
  | .isIn => return .boolean (← s.hasProperty b (s.toKey a))
  | .instanceOf =>
    match b with
    | .object id =>
      if s.isCallable b then return .boolean (!a.isPrimitive && s.isInstance a id)
      else throw (.wrongType "Right-hand side of 'instanceof' is not callable")
    | _ => throw (.wrongType "Right-hand side of 'instanceof' is not callable")
  | .unknown token => throw (.unknownOperator token)

/-- An operator applied to a value; deleting what is only a value always succeeds. -/
def unary (s : Heap) (op : UnaryOp) (v : Value) : Except Failure Value :=
  match op with
  | .minus => return .number (-s.toNumber v)
  | .plus => return .number (s.toNumber v)
  | .not => return .boolean (!v.truthy)
  | .bitNot =>
    return .number (Double.ofSignedWord (Double.toWord (s.toNumber v) ^^^ 0xffffffff).toInt32)
  | .typeOf => return .string (s.typeName v)
  | .void => return .undefined
  | .delete => return .boolean true
  | .unknown token => throw (.unknownOperator token)

end Heap

/-- The number after an update. -/
def UpdateOp.apply : UpdateOp → Float → Except Failure Float
  | .increment, n => return n + 1.0
  | .decrement, n => return n - 1.0
  | .unknown token, _ => throw (.unknownOperator token)

end Stepwise
