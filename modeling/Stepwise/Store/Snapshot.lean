/-
Pictures of values.

A picture of a value holds the objects reached from it down to a depth, each one once;
where an object comes up again, only its number stands.  It does not change when the
store does.
-/
import Stepwise.Value

namespace Stepwise

/-- What a picture says of the kind of an object. -/
inductive Likeness (α : Type) where
  | ordinary
  | array (length : Nat)
  | function (source : String)
  | date (time : Float)
  | wrapper (payload : α)

/-- A property in a picture. -/
structure PictureEntry (α : Type) where
  key : String
  readonly : Bool
  enumerable : Bool
  value : α

inductive Picture where
  | undefined
  | null
  | boolean (b : Bool)
  | number (n : Float)
  | string (s : String)
  /-- An object that stands elsewhere in the picture. -/
  | again (number : Nat)
  | scope (number : Nat) (isGlobal : Bool)
  /-- An object, with the name of its parent if it has one.  Its properties are left out
  where the picture ends. -/
  | object (number : Nat) (parent : Option String) (likeness : Likeness Picture)
      (properties : Option (List (PictureEntry Picture)))

instance : Inhabited Picture := ⟨.undefined⟩

end Stepwise
