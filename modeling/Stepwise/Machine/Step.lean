/-
Steps and runs.

A step takes the innermost frame off and lets it do one thing.  Source text that a step
evaluates runs to its end within the step, on a machine nested in it; nothing bounds such
a run but the fuel it is given.
-/
import Stepwise.Machine.Invoke
import Stepwise.Machine.Resume

namespace Stepwise

namespace Machine

/-- Let a frame that has been taken off have its turn. -/
def turn (run : NestedRun) (fuel : Nat) (m : Machine) (f : Frame) : Run Machine := do
  let action ← f.resume m.context
  m.obey run fuel action

/-- One step, if there is anything left to do. -/
def step (run : NestedRun) (fuel : Nat) (m : Machine) : Run (Option Machine) :=
  match m.frames with
  | [] => return none
  | f :: below => do return some (← turn run fuel { m with frames := below } f)

/-- Run a machine to its end, with fuel for the steps of it and of the machines nested in it. -/
def runNested : (fuel : Nat) → NestedRun
  | 0, _ => Run.query fun _ => throw .outOfFuel
  | fuel + 1, m => do
    match ← step (runNested fuel) fuel m with
    | some m => runNested fuel m
    | none => return m.completion

end Machine

end Stepwise
