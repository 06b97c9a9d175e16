/-
Actions.

A frame whose turn it is sees the scope and the receiver around it and the heap, but not
the frames below.  It does what it has to do on the heap, and ends with an action: what
should become of itself on the stack.
-/
import Stepwise.Machine.Frame

namespace Stepwise

/-- What a frame sees of the frames below it. -/
structure Context where
  scope : ObjectId
  /-- What `this` stands for. -/
  receiver : Value

/-- What becomes of a frame that has had its turn. -/
inductive Action where
  /-- It waits for a child that begins above it. -/
  | await (f child : Frame)
  /-- It waits for a call: what its body comes to, if a script function is called, and
  else the result at once. -/
  | invoke (f : Frame) (call : PendingCall)
  /-- Another frame takes its place. -/
  | become (f : Frame)
  /-- It has its turn again. -/
  | again (f : Frame)
  /-- It hands a result to the frame below, and is gone. -/
  | deliver (c : Completion)
  /-- It is gone. -/
  | leave
  /-- It is gone, and the value of an expression statement is kept. -/
  | complete (v : Value)
  | breakTo (label : Option String)
  | continueAt (label : Option String)
  | returnWith (v : Value)

namespace Action

def deliverValue (v : Value) : Action := deliver (.value v)

end Action

namespace Frame

/-- Wait for a child, with this left to do. -/
def await (f : Frame) (work : Work) (child : Node) (wantsReference : Bool) : Action :=
  .await { f with work } (ofNode child wantsReference)

/-- Wait for the value of a child, with this left to do. -/
def awaitValue (f : Frame) (work : Work) (child : Node) : Action := f.await work child false

/-- Wait for the place that a child stands for, with this left to do. -/
def awaitReference (f : Frame) (work : Work) (child : Node) : Action := f.await work child true

/-- Wait for the value of a child if there is one, else go on at once. -/
def awaitIfAny (f : Frame) (work : Work) : Option Node → Action
  | some child => f.awaitValue work child
  | none => .again { f with work }

/-- The scope that a frame works in: its own if it opens one. -/
def scopeIn (f : Frame) (c : Context) : ObjectId := f.scope.getD c.scope

end Frame

end Stepwise
