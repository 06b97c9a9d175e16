/-
What a machine does with an action.

Most actions only move frames.  A call of a native function runs to its end at once, and
so does source text, on a machine of its own; the body of a script function runs above
the frame of the call.
-/
import Stepwise.Machine.Calling
import Stepwise.Machine.Stack

namespace Stepwise

/-- How a nested machine is run to its end. -/
abbrev NestedRun := Machine → Run Value

namespace Machine

/-! ### Source text -/

/-- Run with one more evaluation counted, and the frames of the machine that waits. -/
def suspended (frames : Nat) (act : Run α) : Run α := fun s =>
  let outerFrames := s.outerFrames
  let (result, s) := act { s with evalDepth := s.evalDepth + 1, outerFrames := outerFrames + frames }
  (result, { s with evalDepth := s.evalDepth - 1, outerFrames })

/-- The program of a source text, if one more evaluation may be nested. -/
def admitSource (s : Store) (source : String) : Except Failure Program :=
  if s.config.maxEvalDepth ≤ s.evalDepth then throw .stackExhausted else s.parse source

/-- Evaluate source text in a new scope within that of the caller. -/
def evaluateSource (run : NestedRun) (caller : Context) (depth : Nat) (source : String) :
    Run Value := do
  let program ← Run.query fun s => admitSource s source
  let scope ← Store.allocScope (some caller.scope)
  Store.hoist program.body scope
  suspended depth do
    run (← idle.push (.opening (.program program.body) scope caller.receiver))

/-- Evaluate the first argument if it is a text, else return it. -/
def evaluate (run : NestedRun) (caller : Context) (depth : Nat) (args : List Value) : Run Value :=
  match args with
  | [] => return .undefined
  | .string source :: _ => evaluateSource run caller depth source
  | v :: _ => return v

/-! ### Calls -/

/-- Make a call whose arguments are complete. -/
def invoke (run : NestedRun) (fuel : Nat) (m : Machine) (f : Frame) (call : PendingCall) :
    Run Machine := do
  match ← Edit.query (call.resolve fuel) with
  | .native function receiver args =>
    let result ← function.code.call receiver args
    return m.deliverValue (outcome call.constructed result)
  | .eval args =>
    if call.constructed.isSome then
      Run.query fun _ => throw (.wrongType "eval is not a constructor")
    else return m.deliverValue (← evaluate run m.context m.depth args)
  | .script code closure receiver args =>
    let scope ← activate code closure args
    (m.putBack { f with work := .running call.constructed }).push
      (.opening code.body scope receiver)

/-! ### Actions -/

/-- Carry out the action of a frame that has been taken off. -/
def obey (run : NestedRun) (fuel : Nat) (m : Machine) : Action → Run Machine
  | .await f child => (m.putBack f).push child
  | .invoke f call => invoke run fuel m f call
  | .become f => m.push f
  | .again f => return m.putBack f
  | .deliver c => return m.deliver c
  | .leave => return m
  | .complete v => return { m with completion := v }
  | .breakTo label => Run.query fun _ => m.breakTo label
  | .continueAt label => Run.query fun _ => m.continueAt label
  | .returnWith v => Run.query fun _ => m.returnWith v

end Machine

end Stepwise
