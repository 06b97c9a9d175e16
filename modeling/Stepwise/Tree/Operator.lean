/-
Operators.

An operator is read from its token.  A token outside the table is kept as it is: the
program loads, and fails where the operator would be applied.
-/
namespace Stepwise

inductive BinaryOp where
  | eq | notEq | strictEq | strictNotEq
  | less | lessEq | greater | greaterEq
  | add | sub | mul | div | rem
  | bitAnd | bitOr | bitXor | shiftLeft | shiftRight | shiftRightZero
  | isIn | instanceOf
  | unknown (token : String)
deriving DecidableEq

namespace BinaryOp

def ofToken : String → BinaryOp
  | "==" => .eq
  | "!=" => .notEq
  | "===" => .strictEq
  | "!==" => .strictNotEq
  | "<" => .less
  | "<=" => .lessEq
  | ">" => .greater
  | ">=" => .greaterEq
  | "+" => .add
  | "-" => .sub
  | "*" => .mul
  | "/" => .div
  | "%" => .rem
  | "&" => .bitAnd
  | "|" => .bitOr
  | "^" => .bitXor
  | "<<" => .shiftLeft
  | ">>" => .shiftRight
  | ">>>" => .shiftRightZero
  | "in" => .isIn
  | "instanceof" => .instanceOf
  | token => .unknown token

def token : BinaryOp → String
  | .eq => "=="
  | .notEq => "!="
  | .strictEq => "==="
  | .strictNotEq => "!=="
  | .less => "<"
  | .lessEq => "<="
  | .greater => ">"
  | .greaterEq => ">="
  | .add => "+"
  | .sub => "-"
  | .mul => "*"
  | .div => "/"
  | .rem => "%"
  | .bitAnd => "&"
  | .bitOr => "|"
  | .bitXor => "^"
  | .shiftLeft => "<<"
  | .shiftRight => ">>"
  | .shiftRightZero => ">>>"
  | .isIn => "in"
  | .instanceOf => "instanceof"
  | .unknown token => token

end BinaryOp

inductive LogicalOp where
  | and | or
  | unknown (token : String)
deriving DecidableEq

namespace LogicalOp

def ofToken : String → LogicalOp
  | "&&" => .and
  | "||" => .or
  | token => .unknown token

def token : LogicalOp → String
  | .and => "&&"
  | .or => "||"
  | .unknown token => token

end LogicalOp

/-- An assignment stores a value as it is, or combined with the old one. -/
inductive AssignmentOp where
  | plain
  | combine (op : BinaryOp)
  | unknown (token : String)
deriving DecidableEq

namespace AssignmentOp

def ofToken : String → AssignmentOp
  | "=" => .plain
  | "+=" => .combine .add
  | "-=" => .combine .sub
  | "*=" => .combine .mul
  | "/=" => .combine .div
  | "%=" => .combine .rem
  | "<<=" => .combine .shiftLeft
  | ">>=" => .combine .shiftRight
  | ">>>=" => .combine .shiftRightZero
  | "&=" => .combine .bitAnd
  | "|=" => .combine .bitOr
  | "^=" => .combine .bitXor
  | token => .unknown token

def token : AssignmentOp → String
  | .plain => "="
  | .combine op => op.token ++ "="
  | .unknown token => token

/-- The operator that combines the old value with the new one. -/
def binary? : AssignmentOp → Option BinaryOp
  | .combine op => some op
  | _ => none

end AssignmentOp

inductive UnaryOp where
  | minus | plus | not | bitNot | typeOf | void | delete
  | unknown (token : String)
deriving DecidableEq

namespace UnaryOp

def ofToken : String → UnaryOp
  | "-" => .minus
  | "+" => .plus
  | "!" => .not
  | "~" => .bitNot
  | "typeof" => .typeOf
  | "void" => .void
  | "delete" => .delete
  | token => .unknown token

def token : UnaryOp → String
  | .minus => "-"
  | .plus => "+"
  | .not => "!"
  | .bitNot => "~"
  | .typeOf => "typeof"
  | .void => "void"
  | .delete => "delete"
  | .unknown token => token

end UnaryOp

inductive UpdateOp where
  | increment | decrement
  | unknown (token : String)
deriving DecidableEq

namespace UpdateOp

def ofToken : String → UpdateOp
  | "++" => .increment
  | "--" => .decrement
  | token => .unknown token

def token : UpdateOp → String
  | .increment => "++"
  | .decrement => "--"
  | .unknown token => token

end UpdateOp

end Stepwise
