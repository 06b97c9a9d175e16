/-
The store of objects.

A heap holds every object an evaluation has made; a value refers to one by its place,
and no object is ever taken away.  The global scope and the constructors that the
language itself refers to stand at fixed places.  A store is a heap with the limits that
the evaluation runs under; what scripts and library functions see is the heap alone.

An operation of the library edits a heap and ends with a value or a failure, and the
heap it leaves is there in both cases: what was written before a failure stays written.
-/
import Stepwise.Config
import Stepwise.Failure
import Stepwise.Store.Object
import Stepwise.Store.Snapshot

namespace Stepwise

/-! ### Fixed places -/

namespace Intrinsic

def globalScope : ObjectId := ⟨0⟩

def function : ObjectId := ⟨1⟩

def functionPrototype : ObjectId := ⟨2⟩

def object : ObjectId := ⟨3⟩

def objectPrototype : ObjectId := ⟨4⟩

def array : ObjectId := ⟨5⟩

def arrayPrototype : ObjectId := ⟨6⟩

def number : ObjectId := ⟨7⟩

def numberPrototype : ObjectId := ⟨8⟩

def string : ObjectId := ⟨9⟩

def stringPrototype : ObjectId := ⟨10⟩

def boolean : ObjectId := ⟨11⟩

def booleanPrototype : ObjectId := ⟨12⟩

def date : ObjectId := ⟨13⟩

def datePrototype : ObjectId := ⟨14⟩

end Intrinsic

/-- How source text becomes a program. -/
abbrev SourceReader := String → Except Failure Program

/-- What scripts see and change. -/
structure Heap where
  objects : Array Object
  /-- Without a reader no source text can be evaluated. -/
  reader : Option SourceReader
  /-- The time that a script sees, in milliseconds since the epoch. -/
  clock : Float
  /-- Where the sequence of random numbers has come to. -/
  seed : UInt64
  /-- What the host was told, one list of arguments a call. -/
  journal : Array (List Picture)

/-- A heap under the limits of an evaluation. -/
structure Store extends Heap where
  config : Config
  /-- How many evaluations of source text are running inside one another. -/
  evalDepth : Nat
  /-- How many frames the machines hold that wait for the running one. -/
  outerFrames : Nat

/-- An operation on a heap that ends with a value or a failure, and leaves a heap in both
cases. -/
abbrev Edit (α : Type) := ExceptT Failure (StateM Heap) α

/-- The same on a store. -/
abbrev Run (α : Type) := ExceptT Failure (StateM Store) α

namespace Heap

def object? (s : Heap) (id : ObjectId) : Option Object := s.objects[id.index]?

/-- Change an object where it stands.  Nothing happens at a place without one. -/
def change (s : Heap) (id : ObjectId) (f : Object → Object) : Heap :=
  { s with objects := s.objects.modify id.index f }

/-- The object behind a value. -/
def objectOf? (s : Heap) (v : Value) : Option Object := v.objectId?.bind s.object?

/-- What a function object does when called. -/
def callable? (s : Heap) (v : Value) : Option Callable := (s.objectOf? v).bind Object.callable?

def isCallable (s : Heap) (v : Value) : Bool := (s.callable? v).isSome

def isArray (s : Heap) (v : Value) : Bool := (s.objectOf? v).any Object.isArray

/-- Read source text. -/
def parse (s : Heap) (source : String) : Except Failure Program :=
  match s.reader with
  | some read => read source
  | none => throw (.misplaced "No source parser installed; cannot evaluate source text")

end Heap

namespace Edit

/-- Ask the heap without changing it. -/
def ask (f : Heap → α) : Edit α := fun s => (.ok (f s), s)

/-- Ask the heap something that it may refuse to answer. -/
def query (f : Heap → Except Failure α) : Edit α := fun s => (f s, s)

/-- Change the heap. -/
def commit (f : Heap → Heap) : Edit Unit := fun s => (.ok (), f s)

end Edit

namespace Run

/-- Ask the store without changing it. -/
def ask (f : Store → α) : Run α := fun s => (.ok (f s), s)

/-- Ask the store something that it may refuse to answer. -/
def query (f : Store → Except Failure α) : Run α := fun s => (f s, s)

/-- Edit the heap under the limits as they are. -/
def edit (act : Edit α) : Run α := fun ⟨heap, config, evalDepth, outerFrames⟩ =>
  let (result, heap) := act heap
  (result, ⟨heap, config, evalDepth, outerFrames⟩)

instance : MonadLift Edit Run := ⟨edit⟩

end Run

namespace Store

/-! ### New objects -/

/-- A new object at the next free place. -/
def alloc (o : Object) : Edit ObjectId :=
  fun s => (.ok ⟨s.objects.size⟩, { s with objects := s.objects.push o })

/-- An object of a given parent, not an array. -/
def allocOrdinary (parent : Option ObjectId) : Edit ObjectId := alloc (.new parent .ordinary)

/-- An array as a literal makes it. -/
def arrayOf (values : List Value) : Object :=
  let indexed := values.zipIdx.foldl
    (fun (ps : Properties) (v, i) => ps.insert (.ofNat i) (.plain v)) .empty
  ⟨some Intrinsic.array, indexed, .array values.length⟩

def allocArray (values : List Value) : Edit ObjectId := alloc (arrayOf values)

/-- A container of variables within another one. -/
def allocScope (outer : Option ObjectId) : Edit ObjectId := alloc (.new none (.scope outer))

/-- Store a property with its flags, whatever the key means to the kind of the object. -/
def define (id : ObjectId) (key : Key) (p : Property) : Edit Unit :=
  Edit.commit fun s => s.change id fun o => o.define key p

/-- A hidden property that a script may overwrite. -/
def defineHidden (id : ObjectId) (name : String) (v : Value) : Edit Unit :=
  define id (.ofText name) ⟨v, false, false⟩

/-- A hidden property that keeps its value. -/
def defineFixed (id : ObjectId) (name : String) (v : Value) : Edit Unit :=
  define id (.ofText name) ⟨v, true, false⟩

/-- A function object, with a fresh `prototype` and the fixed `length`. -/
def allocFunction (callable : Callable) (arity : Nat) : Edit ObjectId := do
  let f ← alloc (.new (some Intrinsic.function) (.function callable))
  let proto ← allocOrdinary (some Intrinsic.object)
  defineHidden f "prototype" (.object proto)
  defineHidden proto "constructor" (.object f)
  defineFixed f "length" (.ofNat arity)
  return f

/-- A script function that closes over a scope. -/
def allocScript (code : FunctionCode) (closure : ObjectId) : Edit ObjectId :=
  allocFunction (.script code closure) code.params.length

def allocNative (name : String) (code : NativeCode) (arity : Nat) : Edit ObjectId :=
  allocFunction (.native ⟨name, code, arity⟩) arity

end Store

end Stepwise
