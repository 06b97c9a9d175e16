/-
Reading JSON text, strictly.

Nothing may follow the document.  Strings hold no control characters and no half of a
surrogate pair; numbers have no leading zero and must not exceed the largest double;
arrays and objects nest only so many levels deep.
-/
import Stepwise.Json.Basic
import Stepwise.Text.Escape

namespace Stepwise

namespace Json

def isJsonBlank (c : Char) : Bool := c == ' ' || c == '\n' || c == '\t' || c == '\r'

def skipBlank (text : List Char) : List Char := text.dropWhile isJsonBlank

/-! ### Strings -/

/-- The four digits of an escaped unit. -/
def unit? (a b c d : Char) : Option Nat :=
  match Escape.pair? a b, Escape.pair? c d with
  | some hi, some lo => some (256 * hi + lo)
  | _, _ => none

/-- The character of a one-letter escape. -/
def simpleEscape? : Char → Option Char
  | '"' => some '"'
  | '\\' => some '\\'
  | '/' => some '/'
  | 'b' => some '\x08'
  | 'f' => some '\x0c'
  | 'n' => some '\n'
  | 'r' => some '\r'
  | 't' => some '\t'
  | _ => none

/-- The rest of a string after its opening quote, and what follows it; `acc` holds the
characters read so far, backward. -/
def stringBody : (acc text : List Char) → Option (String × List Char)
  | acc, '"' :: rest => some (String.ofList acc.reverse, rest)
  | acc, '\\' :: 'u' :: a :: b :: c :: d :: rest =>
    match unit? a b c d with
    | none => none
    | some u =>
      if Units.isLow u then none
      else if Units.isHigh u then
        match rest with
        | '\\' :: 'u' :: a :: b :: c :: d :: rest =>
          match unit? a b c d with
          | some v => if Units.isLow v then stringBody (Units.decode [u, v] ++ acc) rest else none
          | none => none
        | _ => none
      else stringBody (Char.ofNat u :: acc) rest
  | acc, '\\' :: c :: rest =>
    match simpleEscape? c with
    | some e => stringBody (e :: acc) rest
    | none => none
  | acc, c :: rest => if c.toNat < 0x20 || c == '\\' then none else stringBody (c :: acc) rest
  | _, [] => none

/-! ### Numbers -/

/-- A number at the front of a text, and what follows it. -/
def numberText (text : List Char) : Option (Json × List Char) := do
  let (negative, rest) :=
    match text with
    | '-' :: rest => (true, rest)
    | rest => (false, rest)
  let whole := rest.takeWhile Char.isDigit
  let rest := rest.dropWhile Char.isDigit
  if whole.isEmpty || (whole.head? == some '0' && whole.length != 1) then none
  else
    let (fraction?, rest) :=
      match rest with
      | '.' :: rest => (some (rest.takeWhile Char.isDigit), rest.dropWhile Char.isDigit)
      | rest => (none, rest)
    let (exponent?, rest) :=
      match rest with
      | c :: tail =>
        if c == 'e' || c == 'E' then
          let (negative, digits) := Decimal.splitSign tail
          (some (negative, digits.takeWhile Char.isDigit), digits.dropWhile Char.isDigit)
        else (none, rest)
      | [] => (none, rest)
    if fraction? == some [] || exponent?.any (fun (_, digits) => digits.isEmpty) then none
    else
      let fraction := fraction?.getD []
      let exponent : Int :=
        match exponent? with
        | some (true, digits) => -Decimal.ofDigits digits
        | some (false, digits) => Decimal.ofDigits digits
        | none => 0
      let value : Decimal.Literal :=
        ⟨negative, Decimal.ofDigits (whole ++ fraction), exponent - fraction.length⟩
      let plain := fraction?.isNone && exponent?.isNone
      if Double.isFinite value.toDouble then some (.number value plain, rest) else none

/-! ### Documents -/

mutual

/-- A value at the front of a text, and what follows it.  `levels` is how deep arrays and
objects may still nest; `fuel` bounds the steps and the length of the text is enough. -/
def value : (fuel levels : Nat) → List Char → Option (Json × List Char)
  | 0, _, _ => none
  | fuel + 1, levels, text =>
    match skipBlank text with
    | 'n' :: 'u' :: 'l' :: 'l' :: rest => some (.null, rest)
    | 't' :: 'r' :: 'u' :: 'e' :: rest => some (.bool true, rest)
    | 'f' :: 'a' :: 'l' :: 's' :: 'e' :: rest => some (.bool false, rest)
    | '"' :: rest => (stringBody [] rest).map fun (s, rest) => (.string s, rest)
    | '[' :: rest =>
      match levels with
      | 0 => none
      | levels + 1 =>
        match skipBlank rest with
        | ']' :: rest => some (.array [], rest)
        | rest => (items fuel levels rest).map fun (xs, rest) => (.array xs, rest)
    | '\x7b' :: rest =>
      match levels with
      | 0 => none
      | levels + 1 =>
        match skipBlank rest with
        | '\x7d' :: rest => some (.object [], rest)
        | rest => (members fuel levels rest).map fun (xs, rest) => (.object xs, rest)
    | rest => numberText rest

/-- The items of an array up to its end. -/
def items : (fuel levels : Nat) → List Char → Option (List Json × List Char)
  | 0, _, _ => none
  | fuel + 1, levels, text =>
    match value fuel levels text with
    | none => none
    | some (x, rest) =>
      match skipBlank rest with
      | ',' :: rest => (items fuel levels rest).map fun (xs, rest) => (x :: xs, rest)
      | ']' :: rest => some ([x], rest)
      | _ => none

/-- The members of an object up to its end. -/
def members : (fuel levels : Nat) → List Char → Option (List (String × Json) × List Char)
  | 0, _, _ => none
  | fuel + 1, levels, text =>
    match skipBlank text with
    | '"' :: rest =>
      match stringBody [] rest with
      | none => none
      | some (name, rest) =>
        match skipBlank rest with
        | ':' :: rest =>
          match value fuel levels rest with
          | none => none
          | some (x, rest) =>
            match skipBlank rest with
            | ',' :: rest => (members fuel levels rest).map fun (xs, rest) => ((name, x) :: xs, rest)
            | '\x7d' :: rest => some ([(name, x)], rest)
            | _ => none
        | _ => none
    | _ => none

end

/-- How deep the arrays and objects of a document may nest. -/
def maxLevels : Nat := 127

/-- The document that a text is, with nesting to a given depth. -/
def ofText? (levels : Nat) (text : String) : Option Json :=
  let chars := text.toList
  match value (chars.length + 1) levels chars with
  | some (doc, rest) => if (skipBlank rest).isEmpty then some doc else none
  | none => none

end Json

end Stepwise
