/-
Functions made from source text.
-/
import Stepwise.Builtin.Arguments

namespace Stepwise

namespace Compiling

/-- The source text of a function expression. -/
def source (params : List String) (body : String) : String :=
  "(function(" ++ ",".intercalate params ++ ") \x7b\n" ++ body ++ "\n\x7d)"

/-- The first statement that is a function expression. -/
def firstFunction? (body : List Node) : Option FunctionCode :=
  body.findSome? fun
    | .expressionStatement (.functionExpression code) => some code
    | _ => none

/-- The code of a function whose last argument is the body and the others the parameters. -/
def code (s : Heap) (args : List Value) : Except Failure FunctionCode := do
  let params := args.dropLast.map s.toText
  let body := (args.getLast?.map s.toText).getD ""
  let program ← s.parse (source params body)
  match firstFunction? program.body with
  | some code => return code
  | none => throw (.misplaced "Function constructor source did not produce a function")

/-- A function that sees the global scope only. -/
def construct (args : List Value) : Edit Value := do
  let code ← Edit.query fun s => code s args
  return .object (← Store.allocScript code Intrinsic.globalScope)

def functionText (s : Heap) (receiver : Value) : Except Failure Value :=
  if s.isCallable receiver then return .string (s.toText receiver)
  else throw (.wrongType "Function.prototype.toString requires that 'this' be a Function")

end Compiling

end Stepwise
