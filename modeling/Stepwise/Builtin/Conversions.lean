/-
The functions of the global scope that convert and test.
-/
import Stepwise.Builtin.Arguments
import Stepwise.Text.Escape

namespace Stepwise

namespace Conversions

/-- A text with its escapes of bytes undone. -/
def decoded (keep : Char → Bool) (text : List Char) : Except Failure Value :=
  match Escape.percentDecode? keep text with
  | some out => return .string out
  | none => throw (.wrongType "URI malformed")

def apply (s : Heap) (f : GlobalFunction) (args : List Value) : Except Failure Value :=
  let text := (s.textArgument args 0).toList
  let written (chars : List Char) : Value := .string (String.ofList chars)
  match f with
  | .isNaN => return .boolean (s.numberArgument args 0).isNaN
  | .isFinite => return .boolean (Double.isFinite (s.numberArgument args 0))
  | .parseInt =>
    return .number (Reading.leadingWhole text (Double.toSignedWord (s.numberArgument args 1)).toInt)
  | .parseFloat => return .number (Reading.leadingNumber text)
  | .escape => return written (Escape.escape text)
  | .unescape => return written (Escape.unescape text)
  | .encodeURI => return written (Escape.percentEncode Escape.isReserved text)
  | .encodeURIComponent => return written (Escape.percentEncode (fun _ => false) text)
  | .decodeURI => decoded Escape.isReserved text
  | .decodeURIComponent => decoded (fun _ => false) text

end Conversions

end Stepwise
