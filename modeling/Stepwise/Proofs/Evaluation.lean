/-
Expressions, evaluated by recursion.

The machine keeps what is left to do in the slots and the stages of its frames.  Here an
expression is evaluated the way a reader of the script does it: operands, elements,
entries and arguments from left to right and each of them once, the right operand of a
logical operator and the branches of a choice only where they are wanted, and a place
before the value that goes there.  What is done to the heap at a node is the same as in
the machine.

An evaluation knows how deep it is: a node that has no room on the stack fails, here as
there.  How a call comes to its value is left open.
-/
import Stepwise.Machine.Step

namespace Stepwise

/-! ### Evaluations -/

/-- What an evaluation changes: the store, and the value of the last expression statement. -/
structure Moment where
  store : Store
  completion : Value

/-- An evaluation that ends with a value or a failure and leaves a moment in both cases, or
that comes to nothing. -/
abbrev Eval (α : Type) := ExceptT Failure (StateT Moment Option) α

namespace Eval

/-- Act on the store. -/
def act (action : Run α) : Eval α := fun ⟨store, completion⟩ =>
  let (result, store) := action store
  some (result, ⟨store, completion⟩)

instance : MonadLift Run Eval := ⟨act⟩

/-- Come to nothing. -/
def stuck : Eval α := fun _ => none

/-- Keep the value of an expression statement. -/
def complete (v : Value) : Eval Unit := fun moment => some (.ok (), { moment with completion := v })

end Eval

/-- Where a node is evaluated. -/
structure Site where
  context : Context
  /-- How many frames are below. -/
  depth : Nat

namespace Site

/-- Where the children of a node are evaluated. -/
def inner (c : Site) : Site := { c with depth := c.depth + 1 }

def scope (c : Site) : ObjectId := c.context.scope

end Site

/-- Fail if there is no room for one more frame. -/
def requireRoom (c : Site) : Eval Unit :=
  Eval.act (Run.query fun s =>
    if Machine.admitsFrame s c.depth then return () else throw .stackExhausted)

namespace Completion

/-- A result as a value; a reference reads as undefined here. -/
def result : Completion → Value
  | .value v => v
  | .reference _ => .undefined

/-- A result as a place. -/
def target : Completion → Except Failure Reference
  | .reference r => return r
  | .value _ => throw .invalidTarget

end Completion

/-! ### Expressions -/

/-- How a call comes to its value. -/
abbrev Calls := Site → PendingCall → Eval Value

mutual

/-- Evaluate an expression, for its value or for the place that it stands for. -/
def Node.evaluate (call : Calls) (c : Site) (wantsReference : Bool) (e : Node) : Eval Completion := do
  requireRoom c
  match e with
  | .identifier name =>
    if wantsReference then return .reference (.variable name)
    else return .value (← Edit.query fun s => s.lookup c.scope name)
  | .literal value isRegex => return .value (← Edit.query fun _ => value.toValue isRegex)
  | .thisValue => return .value c.context.receiver
  | .functionExpression code => return .value (.object (← code.close c.scope))
  | .arrayLiteral elements =>
    let array ← Store.allocArray []
    evaluateElements call c.inner array 0 elements
    return .value (.object array)
  | .objectLiteral entries =>
    let object ← Store.allocPlain
    evaluateEntries call c.inner object entries
    return .value (.object object)
  | .binary op left right =>
    let l ← left.evaluate call c.inner false
    let r ← right.evaluate call c.inner false
    return .value (← Edit.query fun s => s.binary op l.result r.result)
  | .logical op left right =>
    let l ← left.evaluate call c.inner false
    if ← Edit.query fun _ => op.decides l.result then return .value l.result
    else
      let r ← right.evaluate call c.inner false
      return .value r.result
  | .assignment op target value =>
    let t ← target.evaluate call c.inner true
    let place ← Edit.query fun _ => t.target
    let current ← Edit.query fun s => op.currentOf s c.scope place
    let new ← value.evaluate call c.inner false
    let v ← Edit.query fun s => assigned s current new.result
    place.write c.scope v
    return .value v
  | .update op leading target =>
    let t ← target.evaluate call c.inner true
    let place ← Edit.query fun _ => t.target
    return .value (← op.perform c.scope leading place)
  | .unary op operand =>
    let x ← operand.evaluate call c.inner (op.wantsPlace operand)
    return .value (← op.perform c.scope (some x))
  | .conditional test consequent alternate =>
    let t ← test.evaluate call c.inner false
    if t.result.truthy then consequent.evaluate call c false else alternate.evaluate call c false
  | .member computed object property =>
    let base ← object.evaluate call c.inner false
    if computed then
      let k ← property.evaluate call c.inner false
      let key ← Edit.ask fun s => s.toKey k.result
      Edit.query fun s => memberOf s base.result key wantsReference
    else
      let key ← Edit.query fun _ => property.nameAfterPoint
      Edit.query fun s => memberOf s base.result key wantsReference
  | .sequence expressions => return .value (← evaluateInSequence call c.inner .undefined expressions)
  | .call callee arguments =>
    let called ← beginCall c.scope false (some (← callee.evaluate call c.inner true))
    return .value (← call c (← evaluateArguments call c.inner called arguments))
  | .construct callee arguments =>
    let called ← beginCall c.scope true (some (← callee.evaluate call c.inner true))
    return .value (← call c (← evaluateArguments call c.inner called arguments))
  | .unsupported => throw (.misplaced "Unsupported syntax tree node")
  | _ => Eval.stuck

/-- Evaluate and store the elements of an array literal, from an index on.  Holes are passed
over, and count in the length. -/
def evaluateElements (call : Calls) (c : Site) (array : ObjectId) (index : Nat) :
    List (Option Node) → Eval Unit
  | [] => Store.setLength array index
  | none :: rest => evaluateElements call c array (index + 1) rest
  | some e :: rest => do
    let v ← e.evaluate call c false
    Store.define array (.ofNat index) (.plain v.result)
    evaluateElements call c array (index + 1) rest

/-- Evaluate and store the entries of an object literal. -/
def evaluateEntries (call : Calls) (c : Site) (object : ObjectId) : List (Entry Node) → Eval Unit
  | [] => return ()
  | ⟨kind, computed, name, e⟩ :: rest => do
    let key ← Edit.query fun s => (Entry.mk kind computed name e).toKey s
    let v ← e.evaluate call c false
    Store.define object key (.plain v.result)
    evaluateEntries call c object rest

/-- Evaluate expressions after each other, for the value of the last. -/
def evaluateInSequence (call : Calls) (c : Site) (last : Value) : List Node → Eval Value
  | [] => return last
  | e :: rest => do
    let v ← e.evaluate call c false
    evaluateInSequence call c v.result rest

/-- Evaluate the arguments of a call. -/
def evaluateArguments (call : Calls) (c : Site) (called : PendingCall) : List Node → Eval PendingCall
  | [] => return called
  | e :: rest => do
    let v ← e.evaluate call c false
    evaluateArguments call c (called.with v.result) rest

end

/-! ### Calls of native functions -/

end Stepwise
