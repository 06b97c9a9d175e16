/-
Texts as sequences of 16-bit code units.

Scripts count and cut texts in these units: a character beyond `U+FFFF` is a pair, a
high surrogate and a low one.  A half that is cut off from its pair cannot be kept in
a text and reads as the replacement character.
-/
namespace Stepwise

namespace Units

/-- A code unit, below `2 ^ 16`. -/
abbrev CodeUnit := Nat

/-- The character that stands for half a pair. -/
def replacement : Char := '\ufffd'

/-- The units of one character. -/
def ofChar (c : Char) : List CodeUnit :=
  if c.toNat < 0x10000 then [c.toNat]
  else [0xd800 + (c.toNat - 0x10000) / 0x400, 0xdc00 + (c.toNat - 0x10000) % 0x400]

/-- The units of a text. -/
def encode (text : List Char) : List CodeUnit := text.flatMap ofChar

def isHigh (u : CodeUnit) : Bool := 0xd800 ≤ u && u < 0xdc00

def isLow (u : CodeUnit) : Bool := 0xdc00 ≤ u && u < 0xe000

/-- The character of one unit by itself. -/
def toChar (u : CodeUnit) : Char :=
  if isHigh u || isLow u then replacement else Char.ofNat u

/-- The text of a sequence of units. -/
def decode : List CodeUnit → List Char
  | [] => []
  | [u] => [toChar u]
  | u :: v :: rest =>
    if isHigh u && isLow v then
      Char.ofNat (0x10000 + (u - 0xd800) * 0x400 + (v - 0xdc00)) :: decode rest
    else toChar u :: decode (v :: rest)

def toText (units : List CodeUnit) : String := String.ofList (decode units)

/-- How many units a text has. -/
def length (text : List Char) : Nat :=
  text.foldl (fun n c => n + if c.toNat < 0x10000 then 1 else 2) 0

/-- The unit at a position. -/
def at? : List Char → Nat → Option CodeUnit
  | [], _ => none
  | c :: rest, i =>
    if c.toNat < 0x10000 then
      match i with
      | 0 => some c.toNat
      | i + 1 => at? rest i
    else
      match i with
      | i + 2 => at? rest i
      | i => (ofChar c)[i]?

/-- The unit at a position, as a text. -/
def charAt? (text : List Char) (i : Nat) : Option String :=
  (at? text i).map fun u => toText [u]

/-- The order of texts by their units. -/
def compare : List CodeUnit → List CodeUnit → Ordering
  | [], [] => .eq
  | [], _ :: _ => .lt
  | _ :: _, [] => .gt
  | u :: us, v :: vs => if u < v then .lt else if v < u then .gt else compare us vs

end Units

end Stepwise
