/-
Syntax trees of scripts.

A tree is what a parser of the language delivers.  Statements and expressions are of one
type, since a tree from outside may hold either anywhere; what cannot be evaluated where
it stands fails when it is reached, and a node of an unknown type is kept as
`unsupported` and fails then too.
-/
import Stepwise.Tree.Operator

namespace Stepwise

/-- How variables are declared; all of them live in the whole function. -/
inductive VariableKind where
  | varDeclared | letDeclared | constDeclared
deriving DecidableEq

def VariableKind.token : VariableKind → String
  | .varDeclared => "var"
  | .letDeclared => "let"
  | .constDeclared => "const"

/-- What an entry of an object literal is. -/
inductive EntryKind where
  | plain | getter | setter
deriving DecidableEq

def EntryKind.token : EntryKind → String
  | .plain => "init"
  | .getter => "get"
  | .setter => "set"

inductive LiteralValue where
  | null
  | boolean (b : Bool)
  | number (n : Float)
  | string (s : String)
  /-- A value that no literal of the language has. -/
  | unrepresentable

/-- The name, the parameters and the body of a function. -/
structure Code (α : Type) where
  name : Option String
  params : List String
  body : α

/-- An entry of an object literal. -/
structure Entry (α : Type) where
  kind : EntryKind
  computed : Bool
  key : α
  value : α

inductive Node where
  | program (body : List Node)
  -- declarations
  | variableDeclaration (kind : VariableKind) (declarators : List Node)
  | variableDeclarator (name : String) (init : Option Node)
  | functionDeclaration (code : Code Node)
  -- expressions
  | functionExpression (code : Code Node)
  | identifier (name : String)
  | literal (value : LiteralValue) (isRegex : Bool)
  | arrayLiteral (elements : List (Option Node))
  | objectLiteral (entries : List (Entry Node))
  | binary (op : BinaryOp) (left right : Node)
  | logical (op : LogicalOp) (left right : Node)
  | assignment (op : AssignmentOp) (target value : Node)
  | update (op : UpdateOp) (leading : Bool) (target : Node)
  | unary (op : UnaryOp) (operand : Node)
  | conditional (test consequent alternate : Node)
  | call (callee : Node) (arguments : List Node)
  | construct (callee : Node) (arguments : List Node)
  | member (computed : Bool) (object property : Node)
  | sequence (expressions : List Node)
  | thisValue
  -- statements
  | block (body : List Node)
  | expressionStatement (expression : Node)
  | ifStatement (test consequent : Node) (alternate : Option Node)
  | forStatement (init test update : Option Node) (body : Node)
  | forInStatement (target object body : Node)
  | whileStatement (test body : Node)
  | doWhileStatement (test body : Node)
  | breakStatement (label : Option String)
  | continueStatement (label : Option String)
  | returnStatement (argument : Option Node)
  | throwStatement (argument : Node)
  | labeled (label : String) (body : Node)
  | empty
  | unsupported

instance : Inhabited Node := ⟨.empty⟩

/-- The code of a script function. -/
abbrev FunctionCode := Code Node

/-- A whole script. -/
structure Program where
  body : List Node

namespace Node

/-- The name of the type of a node. -/
def typeName : Node → String
  | program _ => "Program"
  | variableDeclaration _ _ => "VariableDeclaration"
  | variableDeclarator _ _ => "VariableDeclarator"
  | functionDeclaration _ => "FunctionDeclaration"
  | functionExpression _ => "FunctionExpression"
  | identifier _ => "Identifier"
  | literal _ _ => "Literal"
  | arrayLiteral _ => "ArrayExpression"
  | objectLiteral _ => "ObjectExpression"
  | binary _ _ _ => "BinaryExpression"
  | logical _ _ _ => "LogicalExpression"
  | assignment _ _ _ => "AssignmentExpression"
  | update _ _ _ => "UpdateExpression"
  | unary _ _ => "UnaryExpression"
  | conditional _ _ _ => "ConditionalExpression"
  | call _ _ => "CallExpression"
  | construct _ _ => "NewExpression"
  | member _ _ _ => "MemberExpression"
  | sequence _ => "SequenceExpression"
  | thisValue => "ThisExpression"
  | block _ => "BlockStatement"
  | expressionStatement _ => "ExpressionStatement"
  | ifStatement _ _ _ => "IfStatement"
  | forStatement _ _ _ _ => "ForStatement"
  | forInStatement _ _ _ => "ForInStatement"
  | whileStatement _ _ => "WhileStatement"
  | doWhileStatement _ _ => "DoWhileStatement"
  | breakStatement _ => "BreakStatement"
  | continueStatement _ => "ContinueStatement"
  | returnStatement _ => "ReturnStatement"
  | throwStatement _ => "ThrowStatement"
  | labeled _ _ => "LabeledStatement"
  | empty => "EmptyStatement"
  | unsupported => "Unsupported"

/-- Loops are what jumps without a label go to. -/
def isLoop : Node → Bool
  | forStatement _ _ _ _ | forInStatement _ _ _ | whileStatement _ _ | doWhileStatement _ _ => true
  | _ => false

end Node

end Stepwise
