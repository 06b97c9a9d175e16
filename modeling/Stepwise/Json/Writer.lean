/-
Writing JSON text, without blanks.
-/
import Stepwise.Json.Basic
import Stepwise.Text.Escape

namespace Stepwise

namespace Json

/-- A character inside a string. -/
def escapeChar (c : Char) : String :=
  if c == '"' then "\\\""
  else if c == '\\' then "\\\\"
  else if c.toNat < 0x20 then "\\u00" ++ String.ofList (Escape.hexPair c.toNat)
  else c.toString

def quote (s : String) : String :=
  s.foldl (fun acc c => acc ++ escapeChar c) "\"" ++ "\""

/-- A number; one that was not written in plain digits gets an exponent. -/
def numberToText (value : Decimal.Literal) (plain : Bool) : String :=
  (if value.negative then "-" else "") ++ toString value.significand
    ++ if plain then "" else "e" ++ toString value.exponent

mutual

def write : Json → String
  | .null => "null"
  | .bool b => if b then "true" else "false"
  | .number value plain => numberToText value plain
  | .string s => quote s
  | .array items => "[" ++ writeItems items ++ "]"
  | .object members => "\x7b" ++ writeMembers members ++ "\x7d"

def writeItems : List Json → String
  | [] => ""
  | [x] => write x
  | x :: xs => write x ++ "," ++ writeItems xs

def writeMembers : List (String × Json) → String
  | [] => ""
  | [(name, x)] => quote name ++ ":" ++ write x
  | (name, x) :: xs => quote name ++ ":" ++ write x ++ "," ++ writeMembers xs

end

end Json

end Stepwise
