/-
Blank characters and trimming.

A blank is a character with the `White_Space` property of the standard; scripts count
the byte order mark among them as well.
-/
namespace Stepwise

namespace Blank

/-- The `White_Space` property. -/
def isSpace (c : Char) : Bool :=
  let n := c.toNat
  (9 ≤ n && n ≤ 13) || n == 0x20 || n == 0x85 || n == 0xa0 || n == 0x1680
    || (0x2000 ≤ n && n ≤ 0x200a) || n == 0x2028 || n == 0x2029 || n == 0x202f
    || n == 0x205f || n == 0x3000

/-- What scripts trim and number texts ignore around them. -/
def isBlank (c : Char) : Bool :=
  isSpace c || c.toNat == 0xfeff

def trimLeft (text : List Char) : List Char := text.dropWhile isBlank

def trimRight (text : List Char) : List Char := (text.reverse.dropWhile isBlank).reverse

def trim (text : List Char) : List Char := trimRight (trimLeft text)

/-- Without the white space around it; a byte order mark stays. -/
def trimSpace (text : List Char) : List Char :=
  ((text.dropWhile isSpace).reverse.dropWhile isSpace).reverse

end Blank

end Stepwise
