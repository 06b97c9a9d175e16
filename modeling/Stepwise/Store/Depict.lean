/-
Drawing pictures of values.

Objects are numbered in the order they are reached, an object before what its properties
hold.  Pictures drawn one after the other share their numbers, so that an object in two
of them is seen to be one.
-/
import Std.Data.TreeMap
import Stepwise.Store.Basic

namespace Stepwise

/-- Drawing remembers the numbers of the objects by their places. -/
abbrev Drawing := StateM (Std.TreeMap Nat Nat)

/-- How many levels of properties a picture shows. -/
def pictureLevels : Nat := 12

namespace Heap

/-- The name of the parent of an object; one that is no function has the empty name. -/
def parentName? (s : Heap) (o : Object) : Option String :=
  o.parent.map fun parent => (((s.callable? (.object parent)).bind Callable.name?).getD "")

/-- The number of an object, and whether it is new. -/
def numberOf (id : ObjectId) : Drawing (Nat × Bool) := do
  let known ← get
  match known.get? id.index with
  | some number => return (number, false)
  | none =>
    set (known.insert id.index known.size)
    return (known.size, true)

/-- The properties that a picture of an object shows: of a function only those that
enumerations show. -/
def shownProperties (o : Object) : List (Key × Property) :=
  if o.isCallable then o.properties.toList.filter fun (_, p) => p.enumerable
  else o.properties.toList

def drawEntries (drawValue : Value → Drawing Picture) (entries : List (Key × Property)) :
    Drawing (List (PictureEntry Picture)) :=
  entries.mapM fun (key, p) => do
    return ⟨key.toText, p.readonly, p.enumerable, ← drawValue p.value⟩

/-- The picture of a value that is not an object. -/
def drawPrimitive : Value → Picture
  | .undefined | .object _ => .undefined
  | .null => .null
  | .boolean b => .boolean b
  | .number n => .number n
  | .string t => .string t

/-- What a picture says of a kind; a scope shows nothing else and is drawn by itself. -/
def likeness (kind : Kind) : Likeness Picture :=
  match kind with
  | .ordinary | .scope _ => .ordinary
  | .array length => .array length
  | .function f => .function f.source
  | .date time => .date time
  | .wrapper payload => .wrapper (drawPrimitive payload)

/-- The picture of a value, with so many levels of properties. -/
def draw (s : Heap) (levels : Nat) (v : Value) : Drawing Picture := do
  match v with
  | .object id =>
    let (number, isNew) ← numberOf id
    match isNew, s.object? id with
    | true, some o =>
      match o.kind with
      | .scope _ => return .scope number (id == Intrinsic.globalScope)
      | kind =>
        let properties ←
          match levels with
          | 0 => pure none
          | levels + 1 => some <$> drawEntries (s.draw levels) (shownProperties o)
        return .object number (s.parentName? o) (likeness kind) properties
    | _, _ => return .again number
  | v => return drawPrimitive v

/-- The picture of a value. -/
def drawValue (s : Heap) (v : Value) : Drawing Picture := s.draw pictureLevels v

/-- The pictures of the properties of an object, of those that pass a test. -/
def drawProperties (s : Heap) (id : ObjectId) (shows : Property → Bool) :
    Drawing (List (PictureEntry Picture)) :=
  match s.object? id with
  | some o =>
    drawEntries (s.draw (pictureLevels - 1)) (o.properties.toList.filter fun (_, p) => shows p)
  | none => return []

/-- A picture that stands by itself. -/
def depict (s : Heap) (v : Value) : Picture := ((s.drawValue v).run {}).run.1

end Heap

end Stepwise
