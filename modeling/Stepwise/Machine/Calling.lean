/-
Calls, from the callee to the result.

A call is evaluated in its frame until its arguments are complete.  What it calls in the
end is settled then: `apply` and `call` make it a call of their receiver, and that may be
one of them again.
-/
import Stepwise.Builtin.Call
import Stepwise.Machine.Action

namespace Stepwise

/-! ### The callee and the arguments -/

/-- What the callee evaluated to: its value, the receiver that goes with it, and how a
failure names it. -/
def calleeOf (s : Heap) (scope : ObjectId) : Option Completion → Except Failure (Value × Value × String)
  | some (.reference (.property base key)) =>
    return (← s.getProperty base key, base, key.toText)
  | some (.reference (.variable name)) =>
    return (← s.lookup scope name, .object Intrinsic.globalScope, name)
  | some (.value v) => return (v, .object Intrinsic.globalScope, s.display v)
  | none => return (.undefined, .object Intrinsic.globalScope, "undefined")

/-- The function that is called, and its receiver. -/
def calledFunction (s : Heap) (scope : ObjectId) (constructs : Bool)
    (completion : Option Completion) : Except Failure (ObjectId × Value) := do
  let (callee, receiver, name) ← calleeOf s scope completion
  match callee with
  | .object id => if s.isCallable callee then return (id, receiver) else throw (refusal name)
  | _ => throw (refusal name)
where
  refusal (name : String) : Failure :=
    .wrongType (name ++ if constructs then " is not a constructor" else " is not a function")

/-- A call of what was evaluated, still without arguments; `new` makes the object it
constructs. -/
def beginCall (scope : ObjectId) (constructs : Bool) (completion : Option Completion) :
    Edit PendingCall := do
  let (callee, receiver) ← Edit.query fun s => calledFunction s scope constructs completion
  if constructs then
    let made := Value.object (← Store.allocInstance (some callee))
    return ⟨callee, made, some made, #[]⟩
  else return ⟨callee, receiver, none, #[]⟩

/-- The call with one more argument. -/
def PendingCall.with (call : PendingCall) (v : Value) : PendingCall :=
  { call with arguments := call.arguments.push v }

/-- Wait for the next argument, or make the call. -/
def Frame.nextArgument (f : Frame) (call : PendingCall) : List Node → Action
  | [] => .invoke f call
  | node :: rest => f.awaitValue (.argument call rest) node

/-- What a call delivers: `new` the object it made, unless the function returned another. -/
def outcome (constructed : Option Value) (result : Value) : Value :=
  match constructed, result with
  | some _, .object id => .object id
  | some receiver, _ => receiver
  | none, result => result

/-! ### What is called -/

/-- A call of something other than `apply` and `call`. -/
inductive Invocation where
  | script (code : FunctionCode) (closure : ObjectId) (receiver : Value) (args : List Value)
  | native (function : Native) (receiver : Value) (args : List Value)
  | eval (args : List Value)

namespace Invocation

/-- The receiver that an argument gives; for null and undefined it is the global scope. -/
def receiverOf (args : List Value) : Value :=
  let v := argument args 0
  if v.isNullish then .object Intrinsic.globalScope else v

/-- The arguments that `apply` finds in its list. -/
def spread (s : Heap) (args : List Value) : Except Failure (List Value) :=
  match argument args 1 with
  | .object id => s.elements (.object id)
  | _ => return []

/-- The function that `apply` or `call` is called on. -/
def target (s : Heap) (receiver : Value) (name : String) : Except Failure ObjectId :=
  match receiver with
  | .object id =>
    if s.isCallable receiver then return id
    else throw (.wrongType ("Function.prototype." ++ name ++ " called on a non-function"))
  | _ => throw (.wrongType ("Function.prototype." ++ name ++ " called on a non-function"))

/-- What a call comes to.  A call of `apply` on itself with an argument list that holds
itself never comes to anything, so the rewriting has fuel. -/
def resolve (s : Heap) : (fuel : Nat) → (callee : ObjectId) → (receiver : Value) →
    (args : List Value) → Except Failure Invocation
  | 0, _, _, _ => throw .outOfFuel
  | fuel + 1, callee, receiver, args =>
    match (s.object? callee).bind Object.callable? with
    | none => throw (.wrongType "Value is not a function")
    | some .apply => do
      let callee ← target s receiver "apply"
      resolve s fuel callee (receiverOf args) (← spread s args)
    | some .call => do
      let callee ← target s receiver "call"
      resolve s fuel callee (receiverOf args) (args.drop 1)
    | some (.native n) => return .native n receiver args
    | some .eval => return .eval args
    | some (.script code closure) => return .script code closure receiver args

end Invocation

/-- What a call with all its arguments comes to. -/
def PendingCall.resolve (call : PendingCall) (fuel : Nat) (s : Heap) : Except Failure Invocation :=
  Invocation.resolve s fuel call.callee call.receiver call.arguments.toList

/-- Bind what the body of a function sees in its scope: the arguments as an object, each
parameter, and what the body declares. -/
def bindCall (scope : ObjectId) (code : FunctionCode) (args : List Value) : Edit Unit := do
  let list ← Store.allocArray args
  Store.declare scope "arguments" (.object list)
  code.params.zipIdx.forM fun (name, i) => Store.declare scope name (argument args i)
  Store.hoist [code.body] scope

/-- The scope of a new activation. -/
def activate (code : FunctionCode) (closure : ObjectId) (args : List Value) : Edit ObjectId := do
  let scope ← Store.allocScope (some closure)
  bindCall scope code args
  return scope

end Stepwise
