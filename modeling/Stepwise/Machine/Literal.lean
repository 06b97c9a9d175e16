/-
Literals and the keys of object literals.
-/
import Stepwise.Store.Convert

namespace Stepwise

/-- The value of a literal.  Regular expressions are not in the language. -/
def LiteralValue.toValue (literal : LiteralValue) (isRegex : Bool) : Except Failure Value :=
  if isRegex then throw (.wrongType "Regular expression literals are not supported")
  else
    match literal with
    | .null => return .null
    | .boolean b => return .boolean b
    | .number n => return .number n
    | .string t => return .string t
    | .unrepresentable => throw (.wrongType "Unsupported literal value")

/-- The key of an entry of an object literal.  Only plain entries with a name or a literal as
key are in the language. -/
def Entry.toKey (s : Heap) (entry : Entry Node) : Except Failure Key :=
  if entry.computed then throw (.wrongType "Computed property names are not supported")
  else if entry.kind != .plain then throw (.wrongType "Accessor properties are not supported")
  else
    match entry.key with
    | .identifier name => return .ofText name
    | .literal value isRegex => do return s.toKey (← value.toValue isRegex)
    | other => throw (.misplaced ("Invalid property key: " ++ other.typeName))

end Stepwise
