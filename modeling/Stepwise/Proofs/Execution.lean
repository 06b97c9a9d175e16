/-
Statements, executed by recursion.

A statement ends in one of a few ways: it is done, or it jumps to a statement around it,
or out of the function.  A jump ends every statement that it passes; a loop takes jumps
without a label and those with one of its own, and a block takes a `break` with one of its
labels.  So no stack is looked through here: where a jump ends is seen from the way in
which statements stand in each other.

Loops and calls of functions need not come to an end.  A bound is given to both, the same
for all of them, and what exceeds it comes to nothing.
-/
import Stepwise.Proofs.Evaluation

namespace Stepwise

/-! ### Endings -/

/-- How a statement ends, if it does not fail. -/
inductive Ending where
  /-- It is done.  A block that comes to its end hands undefined down. -/
  | normal (handsDown : Bool)
  | breakTo (label : Option String)
  | continueAt (label : Option String)
  | returnWith (v : Value)

namespace Ending

/-- What is left of an ending around a block with these labels. -/
def pastBlock (labels : List String) : Ending → Ending
  | breakTo label => if label.any labels.contains then normal false else breakTo label
  | ending => ending

/-- What is left of the ending of its body around a loop with these labels; nothing is left if
the loop goes on. -/
def pastLoop (labels : List String) : Ending → Option Ending
  | normal _ => none
  | breakTo label => some (if label.all labels.contains then normal false else breakTo label)
  | continueAt label => if label.all labels.contains then none else some (continueAt label)
  | returnWith v => some (returnWith v)

/-- What the ending of its body makes of a call: a jump does not leave a function. -/
def pastCall : Ending → Eval Value
  | normal _ => return .undefined
  | returnWith v => return v
  | breakTo label => throw (Machine.jumpFailure label "break")
  | continueAt label => throw (Machine.jumpFailure label "continue")

end Ending

/-! ### Parts of statements -/

/-- The test of a loop or a branch. -/
def evaluateTest (call : Calls) (c : Site) (test : Node) : Eval Bool := do
  let t ← test.evaluate call c false
  return t.result.truthy

/-- A loop without a test goes on. -/
def evaluateTestIfAny (call : Calls) (c : Site) : Option Node → Eval Bool
  | some test => evaluateTest call c test
  | none => return true

def evaluateIfAny (call : Calls) (c : Site) : Option Node → Eval Unit
  | some e => do
    let _ ← e.evaluate call c false
  | none => return ()

/-- Assign the initial value of a variable, if there is one. -/
def declare (call : Calls) (c : Site) (name : String) : Option Node → Eval Unit
  | some e => do
    let v ← e.evaluate call c.inner false
    Store.assign c.scope name v.result
  | none => return ()

def declareAll (call : Calls) (c : Site) : List Node → Eval Unit
  | .variableDeclarator name init :: rest => do
    requireRoom c
    declare call c name init
    declareAll call c rest
  | [] => return ()
  | _ => Eval.stuck

/-- What a loop begins with. -/
def executeInit (call : Calls) (c : Site) : Option Node → Eval Unit
  | some (.variableDeclaration _ declarators) => do
    requireRoom c
    declareAll call c.inner declarators
  | init => evaluateIfAny call c init

/-- The place that a loop over names assigns to. -/
def enumeratedPlace (call : Calls) (c : Site) (target : Node) : Eval Reference := do
  match Frame.declaredTarget? target with
  | some name => return .variable name
  | none =>
    let t ← target.evaluate call c true
    Edit.query fun _ => t.target

/-- Assign the next name, if there is one. -/
def assignNextName (c : Site) (names : Enumeration) : Eval (Option Enumeration) := do
  match ← Edit.ask fun s => names.next? s with
  | none => return none
  | some (key, names) =>
    names.target.write c.scope (.string key.toText)
    return some names

/-- Repeat the body of a loop for as long as the test holds, up to a number of rounds. -/
def repeatWhile {σ : Type} (labels : List String) (test : σ → Eval (Option σ)) (body : Eval Ending)
    (update : Eval Unit) : (rounds : Nat) → σ → Eval Ending
  | 0, _ => Eval.stuck
  | rounds + 1, x => do
    match ← test x with
    | none => return .normal false
    | some x =>
      match (← body).pastLoop labels with
      | some ending => return ending
      | none =>
        update
        repeatWhile labels test body update rounds x

/-- A test that only decides. -/
def whenever (test : Eval Bool) : Unit → Eval (Option Unit) := fun _ => do
  return if ← test then some () else none

/-! ### Statements -/

mutual

/-- Execute a statement under its labels. -/
def Node.execute (call : Calls) (bound : Nat) (c : Site) (labels : List String) (n : Node) :
    Eval Ending := do
  requireRoom c
  match n with
  | .block body => return (← executeAll call bound c.inner body).pastBlock labels
  | .expressionStatement e =>
    let v ← e.evaluate call c.inner false
    Eval.complete v.result
    return .normal false
  | .variableDeclaration _ declarators =>
    declareAll call c.inner declarators
    return .normal false
  | .variableDeclarator name init =>
    declare call c name init
    return .normal false
  | .functionDeclaration _ | .empty => return .normal false
  | .ifStatement test consequent alternate =>
    if ← evaluateTest call c.inner test then consequent.execute call bound c labels
    else executeIfAny call bound c labels alternate
  | .forStatement init test update body =>
    executeInit call c.inner init
    repeatWhile labels (whenever (evaluateTestIfAny call c.inner test))
      (body.execute call bound c.inner []) (evaluateIfAny call c.inner update) bound ()
  | .forInStatement target object body =>
    let place ← enumeratedPlace call c.inner target
    let v ← object.evaluate call c.inner false
    let names ← Edit.ask fun s => Enumeration.start s place v.result
    repeatWhile labels (assignNextName c) (body.execute call bound c.inner []) (return ()) bound names
  | .whileStatement test body =>
    repeatWhile labels (whenever (evaluateTest call c.inner test))
      (body.execute call bound c.inner []) (return ()) bound ()
  | .doWhileStatement test body =>
    match (← body.execute call bound c.inner []).pastLoop labels with
    | some ending => return ending
    | none =>
      repeatWhile labels (whenever (evaluateTest call c.inner test))
        (body.execute call bound c.inner []) (return ()) bound ()
  | .breakStatement label => return .breakTo label
  | .continueStatement label => return .continueAt label
  | .returnStatement argument =>
    match argument with
    | some e =>
      let v ← e.evaluate call c.inner false
      return .returnWith v.result
    | none => return .returnWith .undefined
  | .throwStatement e =>
    let v ← e.evaluate call c.inner false
    Edit.query fun s => throw (Frame.raise s v.result)
  | .labeled label body => body.execute call bound c (labels ++ [label])
  | .unsupported => throw (.misplaced "Unsupported syntax tree node")
  | _ => Eval.stuck

/-- Execute the statements of a body, up to the first that jumps. -/
def executeAll (call : Calls) (bound : Nat) (c : Site) : List Node → Eval Ending
  | [] => return .normal true
  | n :: rest => do
    match ← n.execute call bound c [] with
    | .normal _ => executeAll call bound c rest
    | jump => return jump

def executeIfAny (call : Calls) (bound : Nat) (c : Site) (labels : List String) :
    Option Node → Eval Ending
  | some n => n.execute call bound c labels
  | none => return .normal false

end

/-! ### Calls of functions -/

/-- Execute the body of a function: a block, on the frame of the call. -/
def executeBody (call : Calls) (bound : Nat) (context : Context) (depth : Nat) : Node → Eval Value
  | .block body => do
    requireRoom ⟨context, depth + 1⟩
    let ending ← executeAll call bound ⟨context, depth + 2⟩ body
    ending.pastCall
  | _ => Eval.stuck

/-- What any call comes to.  Functions of the script are executed by recursion, up to a number
of calls inside one another; source text is run on a machine of its own. -/
def callAny (run : NestedRun) (fuel : Nat) : (bound : Nat) → Calls
  | 0, _, _ => Eval.stuck
  | bound + 1, c, called => do
    match ← Edit.query (called.resolve fuel) with
    | .native function receiver args =>
      return outcome called.constructed (← function.code.call receiver args)
    | .eval args =>
      if called.constructed.isSome then throw (.wrongType "eval is not a constructor")
      else Machine.evaluate run c.context c.depth args
    | .script code closure receiver args =>
      let scope ← activate code closure args
      let v ← executeBody (callAny run fuel bound) bound ⟨scope, receiver⟩ c.depth code.body
      return outcome called.constructed v

end Stepwise
