/-
Trees from JSON.

A node is an object with a `type` and the fields of that type, or an array of the type
and the fields in their order.  A field that the type knows may be given once, others do
not matter.  The optional fields may be left out; those that stand for a part of the
tree may be null as well.  An unknown type is a node that fails when it is reached.

A type below the root may also be given by its place in the list of types.
-/
import Stepwise.Failure
import Stepwise.Json.Reader
import Stepwise.Tree.Node

namespace Stepwise

namespace Decode

/-- The fields of a node, by name or in order. -/
inductive Content where
  | members (members : List (String × Json))
  | items (items : List Json)

/-- Fields by name. -/
abbrev Fields := List (String × Json)

/-- The fields of a content that a type knows under the given names.  Given by name, none
may be repeated; given in order, there may not be more than the type has. -/
def Content.fields? (known : List String) : Content → Option Fields
  | .members ms =>
    let fs := ms.filter fun m => known.contains m.1
    if fs.Pairwise fun a b => a.1 ≠ b.1 then some fs else none
  | .items xs => if xs.length ≤ known.length then some (known.zip xs) else none

/-- The content of an object or an array. -/
def content? : Json → Option Content
  | .object ms => some (.members ms)
  | .array xs => some (.items xs)
  | _ => none

/-! ### Fields -/

def string? : Json → Option String
  | .string s => some s
  | _ => none

def bool? : Json → Option Bool
  | .bool b => some b
  | _ => none

def list? (item : Json → Option α) : Json → Option (List α)
  | .array xs => xs.mapM item
  | _ => none

/-- Null for nothing. -/
def nullable? (item : Json → Option α) : Json → Option (Option α)
  | .null => some none
  | j => (item j).map some

/-- A field that has to be there. -/
def required? (name : String) (read : Json → Option α) (fs : Fields) : Option α :=
  (fs.lookup name).bind read

/-- A field with a value to take when it is not there. -/
def optional? (name : String) (default : α) (read : Json → Option α) (fs : Fields) : Option α :=
  match fs.lookup name with
  | some j => read j
  | none => some default

/-- A part of the tree that may be missing or null. -/
def part? (name : String) (read : Json → Option α) (fs : Fields) : Option (Option α) :=
  optional? name none (nullable? read) fs

/-- A name by itself: an object with a `name`, whatever else it holds. -/
def name? (j : Json) : Option String :=
  (content? j).bind fun c => (c.fields? ["name"]).bind (required? "name" string?)

/-- One word out of several: the word, or an object that has it for its only name and
nothing for its value. -/
def word? (choose : String → Option α) : Json → Option α
  | .string s => choose s
  | .object [(s, .null)] => choose s
  | .object [(s, .object [])] => choose s
  | _ => none

def variableKind? : String → Option VariableKind
  | "var" => some .varDeclared
  | "let" => some .letDeclared
  | "const" => some .constDeclared
  | _ => none

def entryKind? : String → Option EntryKind
  | "init" => some .plain
  | "get" => some .getter
  | "set" => some .setter
  | _ => none

def literalValue : Json → LiteralValue
  | .null => .null
  | .bool b => .boolean b
  | .number l _ => .number l.toDouble
  | .string s => .string s
  | _ => .unrepresentable

/-- Anything but null. -/
def isPresent : Json → Bool
  | .null => false
  | _ => true

/-! ### Nodes -/

/-- The types in order. -/
def typeNames : List String :=
  ["Program", "VariableDeclaration", "VariableDeclarator", "FunctionDeclaration",
    "FunctionExpression", "Identifier", "Literal", "ArrayExpression", "ObjectExpression",
    "BinaryExpression", "LogicalExpression", "AssignmentExpression", "UpdateExpression",
    "UnaryExpression", "ConditionalExpression", "CallExpression", "NewExpression",
    "MemberExpression", "SequenceExpression", "ThisExpression", "BlockStatement",
    "ExpressionStatement", "IfStatement", "ForStatement", "ForInStatement", "WhileStatement",
    "DoWhileStatement", "BreakStatement", "ContinueStatement", "ReturnStatement",
    "ThrowStatement", "LabeledStatement", "EmptyStatement"]

def code? (child : Json → Option Node) (c : Content) : Option FunctionCode := do
  let fs ← c.fields? ["id", "params", "body"]
  return ⟨← part? "id" name? fs, ← required? "params" (list? name?) fs, ← required? "body" child fs⟩

def propertyOf? (child : Json → Option Node) (j : Json) : Option (Entry Node) := do
  let fs ← (← content? j).fields? ["key", "value", "kind", "computed"]
  let key ← required? "key" child fs
  let value ← required? "value" child fs
  let kind ← optional? "kind" .plain (word? entryKind?) fs
  return ⟨kind, ← optional? "computed" false bool? fs, key, value⟩

/-- A node without fields.  Given in order, there must be none. -/
def leaf? (node : Node) : Content → Option Node
  | .members _ => some node
  | .items [] => some node
  | .items _ => none

/-- A node of a type from its content, where `child` decodes the nodes below it. -/
def nodeOf? (child : Json → Option Node) (typeName : String) (c : Content) : Option Node :=
  let children := list? child
  let operands (build : String → Node → Node → Node) : Option Node := do
    let fs ← c.fields? ["operator", "left", "right"]
    return build (← required? "operator" string? fs) (← required? "left" child fs)
      (← required? "right" child fs)
  let invocation (build : Node → List Node → Node) : Option Node := do
    let fs ← c.fields? ["callee", "arguments"]
    return build (← required? "callee" child fs) (← required? "arguments" children fs)
  let loop (build : Node → Node → Node) : Option Node := do
    let fs ← c.fields? ["test", "body"]
    return build (← required? "test" child fs) (← required? "body" child fs)
  let jump (build : Option String → Node) : Option Node := do
    let fs ← c.fields? ["label"]
    return build (← part? "label" name? fs)
  match typeName with
  | "Program" => do return .program (← required? "body" children (← c.fields? ["body"]))
  | "VariableDeclaration" => do
    let fs ← c.fields? ["declarations", "kind"]
    let declarators ← required? "declarations" children fs
    return .variableDeclaration (← optional? "kind" .varDeclared (word? variableKind?) fs) declarators
  | "VariableDeclarator" => do
    let fs ← c.fields? ["id", "init"]
    return .variableDeclarator (← required? "id" name? fs) (← part? "init" child fs)
  | "FunctionDeclaration" => return .functionDeclaration (← code? child c)
  | "FunctionExpression" => return .functionExpression (← code? child c)
  | "Identifier" => do return .identifier (← required? "name" string? (← c.fields? ["name"]))
  | "Literal" => do
    let fs ← c.fields? ["value", "regex"]
    let value ← optional? "value" .null (fun j => some (literalValue j)) fs
    return .literal value (← optional? "regex" false (fun j => some (isPresent j)) fs)
  | "ArrayExpression" => do
    let fs ← c.fields? ["elements"]
    return .arrayLiteral (← required? "elements" (list? (nullable? child)) fs)
  | "ObjectExpression" => do
    return .objectLiteral (← required? "properties" (list? (propertyOf? child)) (← c.fields? ["properties"]))
  | "BinaryExpression" => operands fun op => .binary (.ofToken op)
  | "LogicalExpression" => operands fun op => .logical (.ofToken op)
  | "AssignmentExpression" => operands fun op => .assignment (.ofToken op)
  | "UpdateExpression" => do
    let fs ← c.fields? ["operator", "argument", "prefix"]
    let op ← required? "operator" string? fs
    let target ← required? "argument" child fs
    return .update (.ofToken op) (← required? "prefix" bool? fs) target
  | "UnaryExpression" => do
    let fs ← c.fields? ["operator", "argument"]
    return .unary (.ofToken (← required? "operator" string? fs)) (← required? "argument" child fs)
  | "ConditionalExpression" => do
    let fs ← c.fields? ["test", "consequent", "alternate"]
    return .conditional (← required? "test" child fs) (← required? "consequent" child fs)
      (← required? "alternate" child fs)
  | "CallExpression" => invocation .call
  | "NewExpression" => invocation .construct
  | "MemberExpression" => do
    let fs ← c.fields? ["object", "property", "computed"]
    let object ← required? "object" child fs
    let property ← required? "property" child fs
    return .member (← optional? "computed" false bool? fs) object property
  | "SequenceExpression" => do
    return .sequence (← required? "expressions" children (← c.fields? ["expressions"]))
  | "ThisExpression" => leaf? .thisValue c
  | "BlockStatement" => do return .block (← required? "body" children (← c.fields? ["body"]))
  | "ExpressionStatement" => do
    return .expressionStatement (← required? "expression" child (← c.fields? ["expression"]))
  | "IfStatement" => do
    let fs ← c.fields? ["test", "consequent", "alternate"]
    return .ifStatement (← required? "test" child fs) (← required? "consequent" child fs)
      (← part? "alternate" child fs)
  | "ForStatement" => do
    let fs ← c.fields? ["init", "test", "update", "body"]
    return .forStatement (← part? "init" child fs) (← part? "test" child fs)
      (← part? "update" child fs) (← required? "body" child fs)
  | "ForInStatement" => do
    let fs ← c.fields? ["left", "right", "body"]
    return .forInStatement (← required? "left" child fs) (← required? "right" child fs)
      (← required? "body" child fs)
  | "WhileStatement" => loop .whileStatement
  | "DoWhileStatement" => loop .doWhileStatement
  | "BreakStatement" => jump .breakStatement
  | "ContinueStatement" => jump .continueStatement
  | "ReturnStatement" => do return .returnStatement (← part? "argument" child (← c.fields? ["argument"]))
  | "ThrowStatement" => do return .throwStatement (← required? "argument" child (← c.fields? ["argument"]))
  | "LabeledStatement" => do
    let fs ← c.fields? ["label", "body"]
    return .labeled (← required? "label" name? fs) (← required? "body" child fs)
  | "EmptyStatement" => leaf? .empty c
  | _ => leaf? .unsupported c

/-- The type of a node and its content.  The type may be given once. -/
def typed? (typeOf : Json → Option String) : Json → Option (String × Content)
  | .object ms => do
    let fs ← (Content.members ms).fields? ["type"]
    return (← required? "type" typeOf fs, .members (ms.filter fun m => m.1 != "type"))
  | .array (t :: xs) => do return (← typeOf t, .items xs)
  | _ => none

/-- A type by its name or by its place in the list. -/
def typeName? : Json → Option String
  | .string s => some s
  | j => j.toCount?.map fun n => (typeNames[n]?).getD "Unsupported"

/-- A node, with so many levels below it at most. -/
def node? : (levels : Nat) → Json → Option Node
  | 0, _ => none
  | levels + 1, j => do
    let (typeName, c) ← typed? typeName? j
    nodeOf? (node? levels) typeName c

/-- The node at the root, whose type is given by name. -/
def root? (levels : Nat) (j : Json) : Option Node := do
  let (typeName, c) ← typed? string? j
  nodeOf? (node? levels) typeName c

end Decode

/-- Decode the text of a tree that is a program as a whole. -/
def Program.ofText (text : String) : Except Failure Program :=
  match (Json.ofText? Json.maxLevels text).bind (Decode.root? Json.maxLevels) with
  | none => throw .malformed
  | some (.program body) => return ⟨body⟩
  | some node => throw (.misplaced ("Expected a Program node, found " ++ node.typeName))

end Stepwise
