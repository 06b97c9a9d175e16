/-
The stack of frames.

The frames of a machine are those of the nodes under evaluation, the innermost first.
Nothing recurses outside of this list, so the depth of a script is bounded by the
settings alone.
-/
import Stepwise.Machine.Action

namespace Stepwise

/-- A stack and the value of the last expression statement. -/
structure Machine where
  frames : List Frame
  completion : Value

namespace Machine

/-- A machine with nothing to do. -/
def idle : Machine := ⟨[], .undefined⟩

def depth (m : Machine) : Nat := m.frames.length

def isIdle (m : Machine) : Bool := m.frames.isEmpty

/-- A machine that is about to run a program in a scope. -/
def ofProgram (p : Program) (scope : ObjectId) (receiver : Value) : Machine :=
  ⟨[.opening (.program p.body) scope receiver], .undefined⟩

/-! ### Putting frames on -/

/-- May one frame more stand on the stack?  The frames of the machines that wait count. -/
def admitsFrame (s : Store) (depth : Nat) : Bool := s.config.allowsDepth (s.outerFrames + depth + 1)

/-- Put a frame on. -/
def push (m : Machine) (f : Frame) : Run Machine :=
  Run.query fun s =>
    if admitsFrame s m.depth then return { m with frames := f :: m.frames }
    else throw .stackExhausted

/-- Put a frame back as it is. -/
def putBack (m : Machine) (f : Frame) : Machine := { m with frames := f :: m.frames }

/-! ### Handing results down -/

/-- Hand a result to the frame below. -/
def deliver (m : Machine) (c : Completion) : Machine :=
  match m.frames with
  | [] => m
  | f :: below => { m with frames := { f with value := some c } :: below }

def deliverValue (m : Machine) (v : Value) : Machine := m.deliver (.value v)

/-! ### Scope and receiver -/

/-- The innermost scope. -/
def scope? (m : Machine) : Option ObjectId := m.frames.findSome? Frame.scope

def scope (m : Machine) : ObjectId := m.scope?.getD Intrinsic.globalScope

/-- What `this` stands for. -/
def receiver (m : Machine) : Value :=
  (m.frames.findSome? Frame.receiver).getD (.object Intrinsic.globalScope)

def context (m : Machine) : Context := ⟨m.scope, m.receiver⟩

/-! ### Jumps -/

/-- The frames down to the first one that a jump looks for, unless one that ends the search
comes before it. -/
def framesDownTo (isTarget isEnd : Frame → Bool) : List Frame → Option (List Frame)
  | [] => none
  | f :: below =>
    if isTarget f then some (f :: below)
    else if isEnd f then none
    else framesDownTo isTarget isEnd below

/-- The frames below the statement that a `break` leaves.  A jump does not leave the function
or the program it stands in. -/
def framesAfterBreak (label : Option String) (frames : List Frame) : Option (List Frame) :=
  (framesDownTo (Frame.isBreakTarget label) Frame.opensScope frames).map List.tail

/-- The frames down to the loop that a `continue` goes on with. -/
def framesAtContinue (label : Option String) (frames : List Frame) : Option (List Frame) :=
  framesDownTo (Frame.isContinueTarget label) Frame.opensScope frames

/-- The frames down to the call that a `return` ends. -/
def framesAtReturn (frames : List Frame) : Option (List Frame) :=
  framesDownTo (fun f => f.work.isRunning) (fun f => f.work.isProgram) frames

/-- A jump to a label names the label when it fails. -/
def jumpFailure (label : Option String) (kind : String) : Failure :=
  match label with
  | some label => .misplaced ("Undefined label '" ++ label ++ "'")
  | none => .misplaced ("Illegal " ++ kind ++ " statement")

/-- The machine with the frames of a jump. -/
def jump (m : Machine) (frames : Option (List Frame)) (failure : Failure) : Except Failure Machine :=
  match frames with
  | some frames => return { m with frames }
  | none => throw failure

def breakTo (m : Machine) (label : Option String) : Except Failure Machine :=
  m.jump (framesAfterBreak label m.frames) (jumpFailure label "break")

def continueAt (m : Machine) (label : Option String) : Except Failure Machine :=
  m.jump (framesAtContinue label m.frames) (jumpFailure label "continue")

def returnWith (m : Machine) (v : Value) : Except Failure Machine :=
  (m.jump (framesAtReturn m.frames) (jumpFailure none "return")).map fun m => m.deliverValue v

end Machine

end Stepwise
