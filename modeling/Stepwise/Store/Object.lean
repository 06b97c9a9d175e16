/-
Objects.

An object has properties, a kind, and perhaps a parent: the constructor whose
`prototype` it inherits from.  An array has no stored `length`; its kind counts one more
than the highest index ever used.
-/
import Stepwise.Builtin.Name
import Stepwise.Store.Properties
import Stepwise.Tree.Node

namespace Stepwise

/-- A function that is not written in the language. -/
structure Native where
  name : String
  code : NativeCode
  arity : Nat

/-- The text that shows a native function to a host. -/
def Native.debugText (n : Native) : String :=
  "NativeFunction \x7b name: \"" ++ n.name ++ "\", arity: " ++ toString n.arity ++ " \x7d"

/-- What happens when a function is called. -/
inductive Callable where
  /-- The code of a script, with the scope it was defined in. -/
  | script (code : FunctionCode) (closure : ObjectId)
  | native (native : Native)
  /-- Calls its receiver with a receiver and a list of arguments. -/
  | apply
  /-- Calls its receiver with a receiver and arguments. -/
  | call
  /-- Evaluates source text. -/
  | eval

namespace Callable

def name? : Callable → Option String
  | .script code _ => code.name
  | .native n => some n.name
  | .apply => some "apply"
  | .call => some "call"
  | .eval => some "eval"

/-- The text of a function: its signature, since no source is kept. -/
def source (f : Callable) : String :=
  let name := f.name?.getD ""
  match f with
  | .script code _ =>
    "function " ++ name ++ "(" ++ ", ".intercalate code.params ++ ") \x7b ... \x7d"
  | _ => "function " ++ name ++ "() \x7b [native code] \x7d"

end Callable

inductive Kind where
  | ordinary
  | array (length : Nat)
  | function (callable : Callable)
  /-- A container of variables with the scope around it. -/
  | scope (outer : Option ObjectId)
  /-- Milliseconds since the epoch, not a number for an invalid date. -/
  | date (time : Float)
  /-- A primitive as an object. -/
  | wrapper (payload : Value)

structure Object where
  parent : Option ObjectId
  properties : Properties
  kind : Kind

instance : Inhabited Object := ⟨⟨none, .empty, .ordinary⟩⟩

namespace Object

def new (parent : Option ObjectId) (kind : Kind) : Object := ⟨parent, .empty, kind⟩

def callable? (o : Object) : Option Callable :=
  match o.kind with
  | .function f => some f
  | _ => none

def isCallable (o : Object) : Bool := o.callable?.isSome

def arrayLength? (o : Object) : Option Nat :=
  match o.kind with
  | .array n => some n
  | _ => none

def isArray (o : Object) : Bool := o.arrayLength?.isSome

def outerScope? (o : Object) : Option ObjectId :=
  match o.kind with
  | .scope outer => outer
  | _ => none

/-- The kind after a property with the key was added: an array grows to hold an index. -/
def kindWith (o : Object) (key : Key) : Kind :=
  match o.kind, key with
  | .array n, .index i => .array (max n (i + 1))
  | kind, _ => kind

/-- A property added under a key that is free. -/
def add (o : Object) (key : Key) (p : Property) : Object :=
  { o with properties := o.properties.insert key p, kind := o.kindWith key }

/-- The value of a property set, unless it is read-only; a new property is a plain one. -/
def put (o : Object) (key : Key) (value : Value) : Object :=
  match o.properties.get? key with
  | some p =>
    if p.readonly then o
    else { o with properties := o.properties.insert key { p with value := value } }
  | none => o.add key (.plain value)

/-- A property with its flags.  A read-only one stays as it is, and a flag once given to a
property is not taken back. -/
def define (o : Object) (key : Key) (p : Property) : Object :=
  match o.properties.get? key with
  | some old =>
    let merged : Property := ⟨p.value, p.readonly, old.enumerable && p.enumerable⟩
    if old.readonly then o else { o with properties := o.properties.insert key merged }
  | none => o.add key p

def erase (o : Object) (key : Key) : Object :=
  { o with properties := o.properties.erase key }

/-- An array cut or stretched to a length; other objects stay as they are. -/
def resize (o : Object) (length : Nat) : Object :=
  match o.kind with
  | .array n =>
    { o with
      properties := if length < n then o.properties.truncate length else o.properties
      kind := .array length }
  | _ => o

end Object

end Stepwise
