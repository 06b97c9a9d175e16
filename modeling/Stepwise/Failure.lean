/-
Why an evaluation ends without a result.

A script cannot catch a failure: whatever raises one ends the step, and the host sees
its class and its message.
-/
import Stepwise.Value

namespace Stepwise

inductive Failure where
  /-- A jump without a target, a node that cannot stand where it stands, or source text
  that does not parse. -/
  | misplaced (message : String)
  /-- An operation on a value of the wrong kind. -/
  | wrongType (message : String)
  /-- A name that no scope defines. -/
  | undefinedName (name : String)
  /-- A length, count or depth out of bounds. -/
  | outOfRange (message : String)
  /-- An operator that is not in the language. -/
  | unknownOperator (token : String)
  /-- A value thrown by the script, with its text. -/
  | thrown (text : String) (value : Value)
  /-- A program or a configuration that does not decode. -/
  | malformed
  /-- The fuel given to work inside one step did not suffice; no script raises this. -/
  | outOfFuel

namespace Failure

/-- The name of the class of a failure. -/
def className : Failure → String
  | .misplaced _ => "SyntaxError"
  | .wrongType _ => "TypeError"
  | .undefinedName _ => "ReferenceError"
  | .outOfRange _ => "RangeError"
  | .unknownOperator _ => "UnknownOperator"
  | .thrown _ _ => "Thrown"
  | .malformed => "MalformedInput"
  | .outOfFuel => "OutOfFuel"

/-- What the host is told. -/
def message : Failure → String
  | .misplaced m => "SyntaxError: " ++ m
  | .wrongType m => "TypeError: " ++ m
  | .undefinedName name => "ReferenceError: " ++ name ++ " is not defined"
  | .outOfRange m => "RangeError: " ++ m
  | .unknownOperator token => "Unknown operator: " ++ token
  | .thrown text _ => "Uncaught " ++ text
  | .malformed => "Malformed input"
  | .outOfFuel => "Out of fuel"

/-- The value that a script threw. -/
def thrownValue? : Failure → Option Value
  | .thrown _ v => some v
  | _ => none

/-! ### Failures raised in several places -/

def invalidArrayLength : Failure := .outOfRange "Invalid array length"

def invalidStringLength : Failure := .outOfRange "Invalid string length"

def stackExhausted : Failure := .outOfRange "Maximum call stack size exceeded"

def invalidTarget : Failure := .misplaced "Invalid left-hand side in assignment"

end Failure

end Stepwise
