/-
Scopes and the variables in them.

A scope is an object whose properties are variables, with a link to the scope around it.
A name is looked for from the innermost scope outward; a scope also shows what it
inherits, and so the global scope shows what every object has.
-/
import Stepwise.Store.Write

namespace Stepwise

namespace Heap

def resolveFrom (s : Heap) (key : Key) : (fuel : Nat) → (visited : List ObjectId) → ObjectId →
    Option ObjectId
  | 0, _, _ => none
  | fuel + 1, visited, id =>
    if visited.contains id then none
    else if s.hasOf id key then some id
    else
      match (s.object? id).bind Object.outerScope? with
      | some outer => s.resolveFrom key fuel (id :: visited) outer
      | none => none

/-- The innermost scope that has a variable. -/
def resolve? (s : Heap) (scope : ObjectId) (key : Key) : Option ObjectId :=
  s.resolveFrom key s.walkFuel [] scope

/-- The value of a variable. -/
def lookup (s : Heap) (scope : ObjectId) (name : String) : Except Failure Value :=
  match s.resolve? scope (.ofText name) with
  | some holder => s.getProperty (.object holder) (.ofText name)
  | none => throw (.undefinedName name)

/-- Does a scope itself have the variable? -/
def hasOwn (s : Heap) (scope : ObjectId) (name : String) : Bool :=
  (s.object? scope).any fun o => o.properties.contains (.ofText name)

end Heap

namespace Store

/-- Set a variable where it is defined. -/
def assign (scope : ObjectId) (name : String) (value : Value) : Edit Unit := do
  let holder? ← Edit.ask fun s => s.resolve? scope (.ofText name)
  match holder? with
  | some holder => setProperty (.object holder) (.ofText name) value
  | none => throw (.undefinedName name)

/-- Bind a variable in a scope. -/
def declare (scope : ObjectId) (name : String) (value : Value) : Edit Unit :=
  define scope (.ofText name) (.plain value)

end Store

/-- What a statement declares for the function around it. -/
inductive Declaration where
  | variable (name : String)
  | function (name : String) (code : FunctionCode)

/-- The variables of a list of declarators. -/
def declaredVariables (declarators : List Node) : List Declaration :=
  declarators.filterMap fun
    | .variableDeclarator name _ => some (.variable name)
    | _ => none

mutual

/-- The declarations in a statement, in the order of the text.  The bodies of functions in
it are left out: they declare for themselves. -/
def Node.declarations : Node → List Declaration
  | .variableDeclaration _ declarators => declaredVariables declarators
  | .functionDeclaration ⟨some name, params, body⟩ => [.function name ⟨some name, params, body⟩]
  | .block body => declarationsOf body
  | .ifStatement _ consequent alternate =>
    consequent.declarations ++ declarationsOfPart alternate
  | .forStatement init _ _ body => declarationsOfPart init ++ body.declarations
  | .forInStatement target _ body => target.declarations ++ body.declarations
  | .whileStatement _ body => body.declarations
  | .doWhileStatement _ body => body.declarations
  | .labeled _ body => body.declarations
  | _ => []

def declarationsOfPart : Option Node → List Declaration
  | some node => node.declarations
  | none => []

/-- The declarations in a list of statements. -/
def declarationsOf : List Node → List Declaration
  | [] => []
  | node :: rest => node.declarations ++ declarationsOf rest

end

namespace Store

/-- Bind what was declared.  A variable that is there keeps its value; a function is always
bound anew. -/
def bindDeclaration (scope : ObjectId) : Declaration → Edit Unit
  | .variable name => do
    let there ← Edit.ask fun s => s.hasOwn scope name
    if there then return () else declare scope name .undefined
  | .function name code => do
    let f ← allocScript code scope
    declare scope name (.object f)

/-- Bind everything that a body declares, before it runs. -/
def hoist (body : List Node) (scope : ObjectId) : Edit Unit :=
  (declarationsOf body).forM (bindDeclaration scope)

end Store

end Stepwise
