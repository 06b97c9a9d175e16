/-
Evaluators.

An evaluator runs a script a step at a time, and a host may look at it, or change the
globals, between any two steps.  A failure ends the script for good: the frames go, and
what the script did to the store until then stays.
-/
import Stepwise.Builtin.Install
import Stepwise.Machine.Step

namespace Stepwise

structure Evaluator where
  store : Store
  machine : Machine

namespace Evaluator

/-! ### Starting -/

/-- An evaluator of a program over a store.  The declarations are bound first, then the host
prepares the store, and then the program is ready to run. -/
def start (program : Program) (store : Store) (prepare : Run Unit) : Evaluator :=
  let (_, store) := Run.edit (Store.hoist program.body Intrinsic.globalScope) store
  let (_, store) := prepare store
  ⟨store, .ofProgram program Intrinsic.globalScope (.object Intrinsic.globalScope)⟩

/-- Set a global variable. -/
def setGlobal (name : String) (v : Value) : Run Unit :=
  Store.declare Intrinsic.globalScope name v

/-- Lend a function to the script, under its name. -/
def lend (f : HostFunction) : Run Unit := do
  let id ← Store.allocNative f.name (.host f) f.arity
  setGlobal f.name (.object id)

/-- Change the store between two steps. -/
def prepare (e : Evaluator) (act : Run Unit) : Evaluator :=
  let ⟨store, machine⟩ := e
  ⟨(act store).2, machine⟩

/-! ### Looking -/

def isDone (e : Evaluator) : Bool := e.machine.isIdle

def depth (e : Evaluator) : Nat := e.machine.depth

/-- The value of the last expression statement. -/
def completion (e : Evaluator) : Value := e.machine.completion

/-- The innermost scope. -/
def scope (e : Evaluator) : ObjectId := e.machine.scope

/-- A global variable, undefined if it is not there. -/
def global (e : Evaluator) (name : String) : Value := e.store.get Intrinsic.globalScope name

/-- The text that shows an evaluator to a host. -/
def debugText (e : Evaluator) : String :=
  "Evaluator \x7b stack_depth: " ++ toString e.depth ++ ", completion: " ++ e.completion.debugText

/-! ### Running -/

/-- One step.  Tells whether there was anything to do. -/
def step (fuel : Nat) (e : Evaluator) : Except Failure Bool × Evaluator :=
  let ⟨store, machine⟩ := e
  match Machine.step (Machine.runNested fuel) fuel machine store with
  | (.ok (some machine), store) => (.ok true, ⟨store, machine⟩)
  | (.ok none, store) => (.ok false, ⟨store, machine⟩)
  | (.error failure, store) => (.error failure, ⟨store, { machine with frames := [] }⟩)

/-- How a series of steps went. -/
structure Progress where
  /-- The depth of the stack after each step that had anything to do. -/
  depths : Array Nat
  /-- Whether the last step had anything to do, or how it failed. -/
  last : Except Failure Bool
  evaluator : Evaluator

def advanceFrom (fuel : Nat) : (steps : Nat) → (depths : Array Nat) → Evaluator → Progress
  | 0, depths, e => ⟨depths, .ok true, e⟩
  | steps + 1, depths, e =>
    match e.step fuel with
    | (.ok true, e) => advanceFrom fuel steps (depths.push e.depth) e
    | (last, e) => ⟨depths, last, e⟩

/-- A number of steps, as long as there is anything to do. -/
def advance (fuel steps : Nat) (e : Evaluator) : Progress := advanceFrom fuel steps #[] e

/-- Run for a number of steps at most.  Tells whether the end was reached. -/
def run (fuel : Nat) : (steps : Nat) → Evaluator → Except Failure Bool × Evaluator
  | 0, e => (.ok e.isDone, e)
  | steps + 1, e =>
    match e.step fuel with
    | (.ok true, e) => run fuel steps e
    | (.ok false, e) => (.ok true, e)
    | (.error failure, e) => (.error failure, e)

end Evaluator

end Stepwise
