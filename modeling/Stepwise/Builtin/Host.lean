/-
Functions that a host lends to scripts, to watch and to disturb them.
-/
import Stepwise.Builtin.Arguments
import Stepwise.Store.Depict

namespace Stepwise

namespace HostFunction

/-- The name that a script calls the function by. -/
def name : HostFunction → String
  | .record => "log"
  | .fail => "fail"
  | .receiver => "recv"
  | .argumentCount => "count"

def arity : HostFunction → Nat
  | .record => 1
  | .fail => 2
  | .receiver => 0
  | .argumentCount => 7

def ofName? (s : String) : Option HostFunction :=
  [record, fail, receiver, argumentCount].find? fun f => f.name == s

/-- The failure of a class that an argument names, about another argument. -/
def failure (s : Heap) (args : List Value) : Failure :=
  let about := s.textArgument args 1
  match s.textArgument args 0 with
  | "type" => .wrongType about
  | "range" => .outOfRange about
  | "reference" => .undefinedName about
  | "operator" => .unknownOperator about
  | "thrown" => .thrown about (argument args 1)
  | _ => .misplaced about

def call (f : HostFunction) (receiver : Value) (args : List Value) : Edit Value :=
  match f with
  | .record => do
    let pictures ← Edit.ask fun s => args.map s.depict
    Edit.commit fun s => { s with journal := s.journal.push pictures }
    return argument args 0
  | .fail => Edit.query fun s => throw (failure s args)
  | .receiver => return receiver
  | .argumentCount => return .ofNat args.length

end HostFunction

end Stepwise
