/-
Trees put together by a host.

Operators are given by their tokens, names as texts.
-/
import Stepwise.Tree.Node

namespace Stepwise

namespace Build

def program (body : List Node) : Program := ⟨body⟩

/-! ### Declarations -/

def «variables» (declarations : List (String × Option Node)) : Node :=
  .variableDeclaration .varDeclared
    (declarations.map fun (name, init) => .variableDeclarator name init)

def variable_ (name : String) (init : Option Node) : Node := «variables» [(name, init)]

def code (name : Option String) (params : List String) (body : List Node) : FunctionCode :=
  ⟨name, params, .block body⟩

def functionDeclaration (name : String) (params : List String) (body : List Node) : Node :=
  .functionDeclaration (code (some name) params body)

def functionExpression (name : Option String) (params : List String) (body : List Node) : Node :=
  .functionExpression (code name params body)

/-! ### Expressions -/

def literal (value : LiteralValue) : Node := .literal value false

def number (n : Float) : Node := literal (.number n)

def string (s : String) : Node := literal (.string s)

def boolean (b : Bool) : Node := literal (.boolean b)

def null : Node := literal .null

/-- An object literal whose keys are names. -/
def object (entries : List (String × Node)) : Node :=
  .objectLiteral (entries.map fun (key, value) => ⟨.plain, false, .identifier key, value⟩)

def binary (token : String) (left right : Node) : Node := .binary (.ofToken token) left right

def logical (token : String) (left right : Node) : Node := .logical (.ofToken token) left right

def assign (token : String) (target value : Node) : Node :=
  .assignment (.ofToken token) target value

def update (token : String) (leading : Bool) (target : Node) : Node :=
  .update (.ofToken token) leading target

def unary (token : String) (operand : Node) : Node := .unary (.ofToken token) operand

/-- The member of a name. -/
def member (object : Node) (name : String) : Node := .member false object (.identifier name)

/-- The member of a computed key. -/
def index (object property : Node) : Node := .member true object property

/-- A call of a member, with the object for its receiver. -/
def methodCall (object : Node) (name : String) (arguments : List Node) : Node :=
  .call (member object name) arguments

end Build

end Stepwise
