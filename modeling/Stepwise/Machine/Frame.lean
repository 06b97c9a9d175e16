/-
Frames.

A frame is a node under evaluation: what is left to do there, and the result that the
node above it has handed down.  What is left to do keeps just those parts of the node that
are still needed.
-/
import Stepwise.Machine.Place

namespace Stepwise

/-- A call whose callee is known. -/
structure PendingCall where
  callee : ObjectId
  receiver : Value
  /-- The object that `new` has made, which is also the receiver. -/
  constructed : Option Value
  /-- The arguments so far. -/
  arguments : Array Value

/-- How far a loop over the names of an object has come. -/
structure Enumeration where
  target : Reference
  /-- The keys still to visit; each has to be there still when its turn comes, unless no
  object holds it. -/
  queue : List (Option ObjectId × Key)
  /-- The objects still to look into, the nearest first. -/
  chain : List ObjectId
  /-- The keys of the objects before. -/
  seen : List Key

/-- The parts of a loop with a test and an update. -/
structure ForLoop where
  test : Option Node
  update : Option Node
  body : Node

/-- What is left to do in a frame.  In all but a few cases the frame waits for the result of
a child. -/
inductive Work where
  /-- A node that has not begun. -/
  | node (node : Node) (wantsReference : Bool)
  -- statements
  | statements (ofProgram : Bool) (rest : List Node)
  | expression
  | declarators (rest : List Node)
  | initializer (name : String)
  | branch (consequent : Node) (alternate : Option Node)
  | forTest (loop : ForLoop)
  | forBody (loop : ForLoop)
  | forUpdate (loop : ForLoop)
  | whileNext (test body : Node)
  | whileTest (test body : Node)
  | doBody (body test : Node)
  | doTest (body test : Node)
  | forInTarget (object body : Node)
  | forInObject (target : Reference) (body : Node)
  | forInNext (names : Enumeration) (body : Node)
  | returnValue
  | throwValue
  -- expressions
  | element (array : ObjectId) (index : Nat) (rest : List (Option Node))
  | entry (object : ObjectId) (key : Key) (rest : List (Entry Node))
  | left (op : BinaryOp) (right : Node)
  | right (op : BinaryOp) (left : Value)
  | logicalLeft (op : LogicalOp) (right : Node)
  | logicalRight
  | assignTarget (op : AssignmentOp) (value : Node)
  /-- The value to come is assigned, or is first combined with the current one. -/
  | assignValue (target : Reference) (current : Option (BinaryOp × Value))
  | update (op : UpdateOp) (leading : Bool)
  | operand (op : UnaryOp)
  | choice (consequent alternate : Node)
  | memberObject (computed : Bool) (property : Node) (wantsReference : Bool)
  | memberKey (base : Value) (wantsReference : Bool)
  | sequence (rest : List Node)
  | callee (constructs : Bool) (arguments : List Node)
  | argument (call : PendingCall) (rest : List Node)
  /-- The body of a script function runs above. -/
  | running (constructed : Option Value)

namespace Work

/-- Loops are what jumps without a label go to. -/
def isLoop : Work → Bool
  | node n _ => n.isLoop
  | forTest _ | forBody _ | forUpdate _ | whileNext _ _ | whileTest _ _ | doBody _ _ | doTest _ _
  | forInTarget _ _ | forInObject _ _ | forInNext _ _ => true
  | _ => false

def isProgram : Work → Bool
  | node (.program _) _ => true
  | statements ofProgram _ => ofProgram
  | _ => false

/-- Does a script function run above? -/
def isRunning : Work → Bool
  | running _ => true
  | _ => false

end Work

structure Frame where
  work : Work
  /-- What the last finished child has handed down. -/
  value : Option Completion := none
  /-- The scope that opens here. -/
  scope : Option ObjectId := none
  /-- The receiver that is bound here. -/
  receiver : Option Value := none
  /-- The labels of the statement. -/
  labels : List String := []

namespace Frame

/-- A frame for a node that has not begun. -/
def ofNode (node : Node) (wantsReference : Bool) : Frame := { work := .node node wantsReference }

/-- A frame that opens a scope and binds a receiver. -/
def opening (node : Node) (scope : ObjectId) (receiver : Value) : Frame :=
  { work := .node node false, scope := some scope, receiver := some receiver }

/-- The value handed down; a reference reads as undefined here, and so does nothing. -/
def result (f : Frame) : Value :=
  match f.value with
  | some (.value v) => v
  | _ => .undefined

/-- The reference handed down. -/
def target (f : Frame) : Except Failure Reference :=
  match f.value with
  | some (.reference r) => return r
  | _ => throw .invalidTarget

/-- Does a scope begin here?  No jump to a statement gets past such a frame. -/
def opensScope (f : Frame) : Bool := f.scope.isSome

/-- Is it the statement that a `break` leaves: the one with the label, or a loop? -/
def isBreakTarget (label : Option String) (f : Frame) : Bool :=
  match label with
  | some label => f.labels.contains label
  | none => f.work.isLoop

/-- Is it the loop that a `continue` goes on with? -/
def isContinueTarget (label : Option String) (f : Frame) : Bool :=
  f.work.isLoop && label.all f.labels.contains

/-- The frame after its value was taken. -/
def taken (f : Frame) : Frame := { f with value := none }

end Frame

end Stepwise
