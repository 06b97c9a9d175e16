/-
Places, and what operators do with them.

Nothing here looks at the frames of a machine: a variable is looked for from a scope that
is given, and the rest depends on the heap alone.
-/
import Stepwise.Store.Operate
import Stepwise.Store.Scope

namespace Stepwise

/-- A place that can be assigned to. -/
inductive Reference where
  /-- A variable, looked up anew at each use. -/
  | variable (name : String)
  | property (base : Value) (key : Key)

/-- What a finished node hands to the one below. -/
inductive Completion where
  | value (v : Value)
  | reference (r : Reference)

namespace Reference

def read (s : Heap) (scope : ObjectId) : Reference → Except Failure Value
  | .variable name => s.lookup scope name
  | .property base key => s.getProperty base key

def write (scope : ObjectId) (r : Reference) (v : Value) : Edit Unit :=
  match r with
  | .variable name => Store.assign scope name v
  | .property base key => Store.setProperty base key v

/-- Delete what a reference stands for; a variable that is not there counts as deleted. -/
def delete (scope : ObjectId) : Reference → Edit Bool
  | .property base key => Store.deleteProperty base key
  | .variable name => do
    let key := Key.ofText name
    match ← Edit.ask fun s => s.resolve? scope key with
    | some holder => Store.deleteProperty (.object holder) key
    | none => return true

end Reference

/-! ### Functions -/

/-- A function that closes over a scope.  One with a name sees itself, in a scope of its
own. -/
def Code.close (code : FunctionCode) (scope : ObjectId) : Edit ObjectId := do
  match code.name with
  | none => Store.allocScript code scope
  | some name =>
    let inner ← Store.allocScope (some scope)
    let function ← Store.allocScript code inner
    Store.declare inner name (.object function)
    return function

/-! ### Assignments -/

/-- The current value that a compound assignment combines. -/
def AssignmentOp.currentOf (s : Heap) (scope : ObjectId) (target : Reference) :
    AssignmentOp → Except Failure (Option (BinaryOp × Value))
  | .plain => return none
  | .combine op => return some (op, ← target.read s scope)
  | .unknown token => throw (.unknownOperator token)

/-- The value that an assignment stores. -/
def assigned (s : Heap) (current : Option (BinaryOp × Value)) (v : Value) : Except Failure Value :=
  match current with
  | some (op, old) => s.binary op old v
  | none => return v

/-- Update the number at a place.  The result is the new number or the one before. -/
def UpdateOp.perform (op : UpdateOp) (scope : ObjectId) (leading : Bool) (target : Reference) :
    Edit Value := do
  let old ← Edit.query fun s => return s.toNumber (← target.read s scope)
  let new ← Edit.query fun _ => op.apply old
  target.write scope (.number new)
  return .number (if leading then new else old)

/-! ### Operators -/

/-- Operators that look at the place and not at the value. -/
def UnaryOp.wantsPlace (op : UnaryOp) (operand : Node) : Bool :=
  match op, operand with
  | .delete, _ => true
  | .typeOf, .identifier _ => true
  | _, _ => false

/-- The `typeof` of a variable, which need not be there. -/
def Heap.typeOfVariable (s : Heap) (scope : ObjectId) (name : String) : Except Failure Value :=
  match s.resolve? scope (.ofText name) with
  | some _ => do return .string (s.typeName (← s.lookup scope name))
  | none => return .string "undefined"

/-- Apply an operator to what its operand came to. -/
def UnaryOp.perform (op : UnaryOp) (scope : ObjectId) (operand : Option Completion) :
    Edit Value := do
  match op, operand with
  | .delete, some (.reference r) => return .boolean (← r.delete scope)
  | .typeOf, some (.reference (.variable name)) => Edit.query fun s => s.typeOfVariable scope name
  | op, some (.value v) => Edit.query fun s => s.unary op v
  | op, _ => Edit.query fun s => s.unary op .undefined

/-- Does the left value decide a logical operation? -/
def LogicalOp.decides (op : LogicalOp) (left : Value) : Except Failure Bool :=
  match op with
  | .and => return !left.truthy
  | .or => return left.truthy
  | .unknown token => throw (.unknownOperator token)

/-! ### Members -/

/-- The property of a base, or the place of it. -/
def memberOf (s : Heap) (base : Value) (key : Key) (wantsReference : Bool) :
    Except Failure Completion := do
  if wantsReference then return .reference (.property base key)
  else return .value (← s.getProperty base key)

/-- The key behind a point. -/
def Node.nameAfterPoint : Node → Except Failure Key
  | .identifier name => return .ofText name
  | other => throw (.misplaced ("Unexpected " ++ other.typeName ++ " after '.'"))

end Stepwise
