/-
The number that a text stands for.

Blanks around the text do not count, and a text of blanks is zero.  A text is a decimal
literal, `Infinity` with an optional sign, or hexadecimal digits behind `0x`; any other
is not a number.
-/
import Stepwise.Number.Decimal
import Stepwise.Number.Radix
import Stepwise.Text.Blank

namespace Stepwise

namespace Reading

/-- The text behind `0x` or `0X`. -/
def hexBody? : List Char → Option (List Char)
  | '0' :: 'x' :: rest => some rest
  | '0' :: 'X' :: rest => some rest
  | _ => none

/-- The number of a whole text. -/
def number (text : List Char) : Float :=
  let text := Blank.trim text
  if text.isEmpty then 0.0
  else if text == "Infinity".toList || text == "+Infinity".toList then Double.infinity
  else if text == "-Infinity".toList then -Double.infinity
  else
    match hexBody? text with
    | some digits => (Radix.read? 16 digits).getD Double.nan
    | none => (Decimal.toDouble? text).getD Double.nan

/-- The number at the front of a text, as far as it reads. -/
def leadingNumber (text : List Char) : Float :=
  let text := Blank.trimLeft text
  if "Infinity".toList.isPrefixOf text || "+Infinity".toList.isPrefixOf text then Double.infinity
  else if "-Infinity".toList.isPrefixOf text then -Double.infinity
  else (Decimal.toDouble? (text.take (Decimal.literalLength text))).getD Double.nan

/-- The whole number at the front of a text in a radix; radix zero is ten, or sixteen
behind `0x`. -/
def leadingWhole (text : List Char) (radix : Int) : Float :=
  let (negative, text) := Decimal.splitSign (Blank.trimLeft text)
  let (radix, text) :=
    match hexBody? text with
    | some body => if radix == 0 || radix == 16 then (16, body) else (radix, text)
    | none => (radix, text)
  let radix := if radix == 0 then 10 else radix
  if radix < 2 || 36 < radix then Double.nan
  else
    let radix := radix.toNat
    let digits := text.takeWhile fun c => (Radix.digit? radix c).isSome
    let n := (Radix.read? radix digits).getD Double.nan
    if negative then -n else n

end Reading

end Stepwise
