/-
The methods of texts.

Positions count 16-bit units.  A receiver that is not a text is converted, except where
the text itself is asked for.
-/
import Stepwise.Builtin.Sequence
import Stepwise.Builtin.Wrapping
import Stepwise.Text.Case
import Stepwise.Text.Search

namespace Stepwise

namespace Texts

open Store

/-- The bounds of a cut: clamped to the text, and swapped if they are in reverse. -/
def substring (units : List Units.CodeUnit) (a b : Float) : List Units.CodeUnit :=
  let a := Double.clamp a units.length
  let b := Double.clamp b units.length
  (units.take (max a b)).drop (min a b)

/-- So many units from a start, which counts from the end if it is below zero. -/
def substr (units : List Units.CodeUnit) (start count : Float) : List Units.CodeUnit :=
  let rest := units.drop (Double.relative start units.length)
  rest.take (Double.clamp count rest.length)

/-- The pieces of a text between the matches of a separator; an empty one separates the
units. -/
def pieces (text separator : List Char) : List String :=
  if separator.isEmpty then (Units.encode text).map fun u => Units.toText [u]
  else (@Search.split _ _ instHashableChar text separator).map String.ofList

/-- A count of pieces: the 32-bit word of an argument, or the greatest one. -/
def pieceLimit (s : Heap) (args : List Value) (i : Nat) : Nat :=
  match argument args i with
  | .undefined => lengthBound - 1
  | v => (Double.toWord (s.toNumber v)).toNat

def split (text : String) (args : List Value) : Edit Value := do
  let separator ← Edit.ask fun s => (s.textArgument args 0).toList
  let limit ← Edit.ask fun s => pieceLimit s args 1
  let all :=
    match argument args 0 with
    | .undefined => [text]
    | _ => pieces text.toList separator
  return .object (← allocArray ((all.take limit).map .string))

/-- Where a backward search starts: at the end unless the argument is a number. -/
def backwardStart (s : Heap) (args : List Value) (length : Nat) : Nat :=
  let n := s.numberArgument args 1
  if n.isNaN then length else Double.clamp n length

/-- The name of a method in what a failure says. -/
def methodName : StringMethod → String
  | .toLower => "toLowerCase"
  | .toUpper => "toUpperCase"
  | .trim => "trim"
  | .trimLeft => "trimLeft"
  | .trimRight => "trimRight"
  | .charAt => "charAt"
  | .charCodeAt => "charCodeAt"
  | .indexOf => "indexOf"
  | .lastIndexOf => "lastIndexOf"
  | .split => "split"
  | .substring => "substring"
  | .substr => "substr"
  | .concat => "concat"
  | .valueOf => "valueOf"

/-- The place of the text that the first argument writes, from the position that the second
one gives. -/
def find (s : Heap) (backward : Bool) (text : String) (args : List Value) : Value :=
  let units := Units.encode text.toList
  let wanted := Units.encode (s.textArgument args 0).toList
  Sequence.place
    (if backward then Search.last? units wanted (backwardStart s args units.length)
    else Search.first? units wanted (Double.clamp (s.wholeArgument args 1 0.0) units.length))

/-- A part of a text by two numbers, of which the second is the length of the text unless it
is given. -/
def cut (s : Heap) (part : List Units.CodeUnit → Float → Float → List Units.CodeUnit)
    (text : String) (args : List Value) : Value :=
  let units := Units.encode text.toList
  .string (Units.toText
    (part units (s.wholeArgument args 0 0.0) (s.wholeArgument args 1 (Float.ofNat units.length))))

/-- What stands at the position that the first argument gives. -/
def atPosition? {α : Type} (s : Heap) (look : List Char → Nat → Option α) (text : String)
    (args : List Value) : Option α :=
  (Double.toNat? (s.wholeArgument args 0 0.0)).bind (look text.toList)

/-- What a method computes from a text and the arguments; `split` makes an array and is not
among them. -/
def compute (s : Heap) (method : StringMethod) (text : String) (args : List Value) : Value :=
  let mapped (f : List Char → List Char) : Value := .string (String.ofList (f text.toList))
  match method with
  | .toLower => mapped Case.lower
  | .toUpper => mapped Case.upper
  | .trim => mapped Blank.trim
  | .trimLeft => mapped Blank.trimLeft
  | .trimRight => mapped Blank.trimRight
  | .charAt => .string ((atPosition? s Units.charAt? text args).getD "")
  | .charCodeAt => .number (((atPosition? s Units.at? text args).map Float.ofNat).getD Double.nan)
  | .indexOf => find s false text args
  | .lastIndexOf => find s true text args
  | .substring => cut s substring text args
  | .substr => cut s substr text args
  | .concat => .string (args.foldl (fun out v => out ++ s.toText v) text)
  | .split | .valueOf => .string text

def method (method : StringMethod) (receiver : Value) (args : List Value) : Edit Value := do
  match method with
  | .valueOf => Edit.query fun s => (Wrapping.textOf s receiver).map .string
  | method =>
    let text ← Edit.query fun s => do
      refuseNullish "String" (methodName method) receiver
      return s.toText receiver
    match method with
    | .split => split text args
    | method => Edit.ask fun s => compute s method text args

end Texts

end Stepwise
