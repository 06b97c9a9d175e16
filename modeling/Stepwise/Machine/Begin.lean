/-
What a node does when it begins.

A node either is done at once, or its frame waits for the first child.
-/
import Stepwise.Machine.Action
import Stepwise.Machine.Literal

namespace Stepwise

namespace Frame

/-! ### Along lists -/

/-- Run the next statement of a body; a body delivers undefined. -/
def nextStatement (f : Frame) (ofProgram : Bool) : List Node → Action
  | [] => .deliverValue .undefined
  | node :: rest => f.taken.awaitValue (.statements ofProgram rest) node

def nextDeclarator (f : Frame) : List Node → Action
  | [] => .leave
  | node :: rest => f.awaitValue (.declarators rest) node

/-- Evaluate the next element of an array literal.  Holes are passed over, and count in the
length. -/
def nextElement (f : Frame) (array : ObjectId) (index : Nat) : List (Option Node) → Edit Action
  | [] => do
    Store.setLength array index
    return .deliverValue (.object array)
  | none :: rest => f.nextElement array (index + 1) rest
  | some node :: rest => return f.awaitValue (.element array index rest) node

/-- Evaluate the next entry of an object literal. -/
def nextEntry (f : Frame) (object : ObjectId) : List (Entry Node) → Edit Action
  | [] => return .deliverValue (.object object)
  | entry :: rest => do
    let key ← Edit.query fun s => entry.toKey s
    return f.awaitValue (.entry object key rest) entry.value

/-- Evaluate the next expression of a sequence, which delivers the value of the last. -/
def nextInSequence (f : Frame) : List Node → Action
  | [] => .deliverValue f.result
  | node :: rest => f.awaitValue (.sequence rest) node

/-! ### Nodes -/

/-- The variable that a loop over names declares. -/
def declaredTarget? : Node → Option String
  | .variableDeclaration _ (.variableDeclarator name _ :: _) => some name
  | _ => none

/-- Begin a node, for its value or for the place that it stands for. -/
def begin (c : Context) (f : Frame) (wantsReference : Bool) (node : Node) : Edit Action :=
  match node with
  -- statements
  | .program body => return f.nextStatement true body
  | .block body => return f.nextStatement false body
  | .expressionStatement e => return f.awaitValue .expression e
  | .variableDeclaration _ declarators => return f.nextDeclarator declarators
  | .variableDeclarator name init =>
    match init with
    | some e => return f.awaitValue (.initializer name) e
    | none => return .leave
  -- a function is bound before its scope runs
  | .functionDeclaration _ => return .leave
  | .ifStatement test consequent alternate => return f.awaitValue (.branch consequent alternate) test
  | .forStatement init test update body => return f.awaitIfAny (.forTest ⟨test, update, body⟩) init
  | .forInStatement target object body =>
    match declaredTarget? target with
    | some name => return f.awaitValue (.forInObject (.variable name) body) object
    | none => return f.awaitReference (.forInTarget object body) target
  | .whileStatement test body => return f.awaitValue (.whileTest test body) test
  | .doWhileStatement test body => return f.awaitValue (.doBody body test) body
  | .breakStatement label => return .breakTo label
  | .continueStatement label => return .continueAt label
  | .returnStatement argument =>
    match argument with
    | some e => return f.awaitValue .returnValue e
    | none => return .returnWith .undefined
  | .throwStatement e => return f.awaitValue .throwValue e
  | .labeled label body => return .become { ofNode body false with labels := f.labels ++ [label] }
  | .empty => return .leave
  | .unsupported => throw (.misplaced "Unsupported syntax tree node")
  -- expressions
  | .identifier name =>
    if wantsReference then return .deliver (.reference (.variable name))
    else do return .deliverValue (← Edit.query fun s => s.lookup (f.scopeIn c) name)
  | .literal value isRegex => do
    return .deliverValue (← Edit.query fun _ => value.toValue isRegex)
  | .thisValue => return .deliverValue c.receiver
  | .functionExpression code => do return .deliverValue (.object (← code.close (f.scopeIn c)))
  | .arrayLiteral elements => do f.nextElement (← Store.allocArray []) 0 elements
  | .objectLiteral entries => do f.nextEntry (← Store.allocPlain) entries
  | .binary op left right => return f.awaitValue (.left op right) left
  | .logical op left right => return f.awaitValue (.logicalLeft op right) left
  | .assignment op target value => return f.awaitReference (.assignTarget op value) target
  | .update op leading target => return f.awaitReference (.update op leading) target
  | .unary op operand => return f.await (.operand op) operand (op.wantsPlace operand)
  | .conditional test consequent alternate => return f.awaitValue (.choice consequent alternate) test
  | .call callee arguments => return f.awaitReference (.callee false arguments) callee
  | .construct callee arguments => return f.awaitReference (.callee true arguments) callee
  | .member computed object property =>
    return f.awaitValue (.memberObject computed property wantsReference) object
  | .sequence expressions => return f.nextInSequence expressions

end Frame

end Stepwise
