/-
What a frame does when its turn comes again.

In the frame lies what the child has handed down.
-/
import Stepwise.Machine.Begin
import Stepwise.Machine.Calling
import Stepwise.Machine.Enumeration

namespace Stepwise

namespace Frame

/-! ### Statements -/

/-- Run the chosen branch in place of the frame, under its labels. -/
def runBranch (f : Frame) : Option Node → Action
  | some node => .become { ofNode node false with labels := f.labels }
  | none => .leave

/-- Run the body of a loop, or leave the loop. -/
def runBody (f : Frame) (holds : Bool) (work : Work) (body : Node) : Action :=
  if holds then f.awaitValue work body else .leave

/-- Assign the next name and run the body, or leave the loop. -/
def nextName (c : Context) (f : Frame) (names : Enumeration) (body : Node) : Edit Action := do
  match ← Edit.ask fun s => names.next? s with
  | none => return .leave
  | some (key, names) =>
    names.target.write c.scope (.string key.toText)
    return f.awaitValue (.forInNext names body) body

/-- Fail with a thrown value. -/
def raise (s : Heap) (v : Value) : Failure := .thrown (s.display v) v

/-! ### Frames -/

/-- Go on with a frame. -/
def resume (c : Context) (f : Frame) : Edit Action := do
  match f.work with
  | .node node wantsReference => f.begin c wantsReference node
  -- statements
  | .statements ofProgram rest => return f.nextStatement ofProgram rest
  | .expression => return .complete f.result
  | .declarators rest => return f.nextDeclarator rest
  | .initializer name =>
    Store.assign (f.scopeIn c) name f.result
    return .leave
  | .branch consequent alternate =>
    return f.runBranch (if f.result.truthy then some consequent else alternate)
  | .forTest loop => return f.taken.awaitIfAny (.forBody loop) loop.test
  | .forBody loop =>
    return (if loop.test.isSome then f.taken else f).runBody (loop.test.isNone || f.result.truthy)
      (.forUpdate loop) loop.body
  | .forUpdate loop => return f.awaitIfAny (.forTest loop) loop.update
  | .whileNext test body => return f.awaitValue (.whileTest test body) test
  | .whileTest test body => return f.taken.runBody f.result.truthy (.whileNext test body) body
  | .doBody body test => return f.awaitValue (.doTest body test) test
  | .doTest body test => return f.taken.runBody f.result.truthy (.doBody body test) body
  | .forInTarget object body =>
    let target ← Edit.query fun _ => f.target
    return f.taken.awaitValue (.forInObject target body) object
  | .forInObject target body =>
    let names ← Edit.ask fun s => Enumeration.start s target f.result
    f.taken.nextName c names body
  | .forInNext names body => f.nextName c names body
  | .returnValue => return .returnWith f.result
  | .throwValue => Edit.query fun s => throw (raise s f.result)
  -- expressions
  | .element array index rest =>
    Store.define array (.ofNat index) (.plain f.result)
    f.taken.nextElement array (index + 1) rest
  | .entry object key rest =>
    Store.define object key (.plain f.result)
    f.taken.nextEntry object rest
  | .left op right => return f.taken.awaitValue (.right op f.result) right
  | .right op left => return .deliverValue (← Edit.query fun s => s.binary op left f.result)
  | .logicalLeft op right =>
    if ← Edit.query fun _ => op.decides f.result then return .deliverValue f.result
    else return f.taken.awaitValue .logicalRight right
  | .logicalRight => return .deliverValue f.result
  | .assignTarget op value =>
    let target ← Edit.query fun _ => f.target
    let current ← Edit.query fun s => op.currentOf s c.scope target
    return f.taken.awaitValue (.assignValue target current) value
  | .assignValue target current =>
    let v ← Edit.query fun s => assigned s current f.result
    target.write c.scope v
    return .deliverValue v
  | .update op leading =>
    let target ← Edit.query fun _ => f.target
    return .deliverValue (← op.perform c.scope leading target)
  | .operand op => return .deliverValue (← op.perform c.scope f.value)
  | .choice consequent alternate =>
    return .become (.ofNode (if f.result.truthy then consequent else alternate) false)
  | .memberObject computed property wantsReference =>
    if computed then return f.taken.awaitValue (.memberKey f.result wantsReference) property
    else
      let key ← Edit.query fun _ => property.nameAfterPoint
      return .deliver (← Edit.query fun s => memberOf s f.result key wantsReference)
  | .memberKey base wantsReference =>
    let key ← Edit.ask fun s => s.toKey f.result
    return .deliver (← Edit.query fun s => memberOf s base key wantsReference)
  | .sequence rest => return f.nextInSequence rest
  | .callee constructs arguments =>
    let call ← beginCall c.scope constructs f.value
    return f.taken.nextArgument call arguments
  | .argument call rest => return f.taken.nextArgument (call.with f.result) rest
  | .running constructed => return .deliverValue (outcome constructed f.result)

end Frame

end Stepwise
