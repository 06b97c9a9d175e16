/-
Escapes of code units and of bytes.

Two schemes write a text in plain characters.  One escapes code units, `%XX` below 256
and `%uXXXX` beyond, and reads back whatever it is given: an escape that is not
complete stands for itself.  The other escapes the bytes of the UTF-8 form, and its
reader rejects an escape that is not complete and bytes that are no text.
-/
import Stepwise.Text.Units

namespace Stepwise

namespace Escape

/-- The upper-case hexadecimal digit of a number below sixteen. -/
def hexChar (n : Nat) : Char :=
  if n < 10 then Char.ofNat ('0'.toNat + n) else Char.ofNat ('A'.toNat + (n - 10))

/-- The value of a hexadecimal digit of either case. -/
def hexValue? (c : Char) : Option Nat :=
  if '0' ≤ c && c ≤ '9' then some (c.toNat - '0'.toNat)
  else if 'a' ≤ c && c ≤ 'f' then some (c.toNat - 'a'.toNat + 10)
  else if 'A' ≤ c && c ≤ 'F' then some (c.toNat - 'A'.toNat + 10)
  else none

/-- The two hexadecimal digits of a number below 256. -/
def hexPair (n : Nat) : List Char := [hexChar (n / 16), hexChar (n % 16)]

/-- The value of two digits. -/
def pair? (c d : Char) : Option Nat :=
  match hexValue? c, hexValue? d with
  | some x, some y => some (16 * x + y)
  | _, _ => none

def isAlphanumeric (c : Char) : Bool :=
  ('A' ≤ c && c ≤ 'Z') || ('a' ≤ c && c ≤ 'z') || ('0' ≤ c && c ≤ '9')

/-! ### Code units -/

/-- The characters that the unit scheme leaves as they are. -/
def isUnitSafe (c : Char) : Bool :=
  isAlphanumeric c || "@*_+-./".toList.contains c

/-- The escape of a unit. -/
def escapeUnit (u : Units.CodeUnit) : List Char :=
  if u < 256 then '%' :: hexPair u
  else '%' :: 'u' :: (hexPair (u / 256) ++ hexPair (u % 256))

/-- A text with all but the plain characters escaped by units. -/
def escape (text : List Char) : List Char :=
  text.flatMap fun c => if isUnitSafe c then [c] else (Units.ofChar c).flatMap escapeUnit

/-- The units that a text with escapes stands for. -/
def unescapeUnits : List Char → List Units.CodeUnit
  | [] => []
  | '%' :: 'u' :: a :: b :: c :: d :: rest =>
    match pair? a b, pair? c d with
    | some hi, some lo => (256 * hi + lo) :: unescapeUnits rest
    | _, _ => '%'.toNat :: unescapeUnits ('u' :: a :: b :: c :: d :: rest)
  | '%' :: a :: b :: rest =>
    match pair? a b with
    | some u => u :: unescapeUnits rest
    | none => '%'.toNat :: unescapeUnits (a :: b :: rest)
  | c :: rest => Units.ofChar c ++ unescapeUnits rest

/-- A text with its escapes of units undone. -/
def unescape (text : List Char) : List Char :=
  Units.decode (unescapeUnits text)

/-! ### Bytes -/

/-- The characters that the byte scheme always leaves as they are. -/
def isByteSafe (c : Char) : Bool :=
  isAlphanumeric c || "-_.!~*'()".toList.contains c

/-- The characters that separate the parts of an address. -/
def isReserved (c : Char) : Bool := ";/?:@&=+$,#".toList.contains c

/-- The bytes of one character. -/
def bytesOf (c : Char) : List UInt8 := String.utf8EncodeChar c

/-- A text with all but the plain characters, and those that `keep` holds of, escaped by
bytes. -/
def percentEncode (keep : Char → Bool) (text : List Char) : List Char :=
  text.flatMap fun c =>
    if isByteSafe c || keep c then [c]
    else (bytesOf c).flatMap fun b => '%' :: hexPair b.toNat

/-- The bytes that a text with escapes stands for.  The escape of a character that `keep`
holds of stays an escape; one that is not complete is refused. -/
def percentBytes? (keep : Char → Bool) : List Char → Option (List UInt8)
  | [] => some []
  | '%' :: a :: b :: rest => do
    let v ← pair? a b
    let tail ← percentBytes? keep rest
    if v < 128 && keep (Char.ofNat v) then
      some ('%'.toUInt8 :: a.toUInt8 :: b.toUInt8 :: tail)
    else some (UInt8.ofNat v :: tail)
  | c :: rest => do
    let tail ← percentBytes? keep rest
    if c == '%' then none else some (bytesOf c ++ tail)

/-- A text with its escapes of bytes undone, if they are complete and the bytes a text. -/
def percentDecode? (keep : Char → Bool) (text : List Char) : Option String := do
  let bytes ← percentBytes? keep text
  String.fromUTF8? (ByteArray.mk bytes.toArray)

end Escape

end Stepwise
