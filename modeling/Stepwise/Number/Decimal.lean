/-
Decimal literals and the doubles nearest to them.

A literal is an optional sign, digits with at most one point among them, and an
optional exponent.  `literalLength` measures the longest literal a text begins with,
by a scan that only moves its end forward past what is complete; `read?` takes apart
a text that is a literal from end to end.
-/
import Stepwise.Number.Double

namespace Stepwise

namespace Decimal

/-- `± significand · 10 ^ exponent`. -/
structure Literal where
  negative : Bool
  significand : Nat
  exponent : Int
deriving DecidableEq, Repr

/-! ### Reading a whole text -/

/-- The number that a run of digits writes behind those that wrote `n`. -/
def addDigits (n : Nat) (digits : List Char) : Nat :=
  digits.foldl (fun n c => 10 * n + (c.toNat - '0'.toNat)) n

/-- The number that a run of digits writes, cut in half so many times before the pieces are
added up.  Halves of a long run take far fewer steps than its digits one by one. -/
def ofDigitHalves : (depth : Nat) → List Char → Nat
  | 0, digits => addDigits 0 digits
  | depth + 1, digits =>
    let half := digits.length / 2
    ofDigitHalves depth (digits.take half) * Nat.pow 10 (digits.length - half)
      + ofDigitHalves depth (digits.drop half)

/-- The number that a run of digits writes. -/
def ofDigits (digits : List Char) : Nat := ofDigitHalves (digits.length.log2 - 5) digits

theorem addDigits_append (n : Nat) (xs ys : List Char) :
    addDigits n (xs ++ ys) = addDigits (addDigits n xs) ys := by
  simp [addDigits]

/-- What stands in front moves up by a place with every digit. -/
theorem addDigits_eq (n : Nat) (digits : List Char) :
    addDigits n digits = n * Nat.pow 10 digits.length + addDigits 0 digits := by
  induction digits generalizing n with
  | nil => simp [addDigits]
  | cons c rest ih =>
    have step (m : Nat) : addDigits m (c :: rest) = addDigits (10 * m + (c.toNat - '0'.toNat)) rest := rfl
    rw [step, step, ih, ih (10 * 0 + _), List.length_cons, Nat.pow_eq, Nat.pow_eq, Nat.pow_succ']
    grind

theorem ofDigitHalves_eq (depth : Nat) (digits : List Char) :
    ofDigitHalves depth digits = addDigits 0 digits := by
  induction depth generalizing digits with
  | zero => rfl
  | succ depth ih =>
    have whole := addDigits_append 0 (digits.take (digits.length / 2)) (digits.drop (digits.length / 2))
    rw [List.take_append_drop, addDigits_eq (addDigits 0 _), List.length_drop] at whole
    rw [ofDigitHalves, ih, ih, whole]

/-- However it is cut, a run writes what its digits add up to. -/
theorem ofDigits_eq (digits : List Char) : ofDigits digits = addDigits 0 digits :=
  ofDigitHalves_eq _ digits

/-- A sign in front, if there is one. -/
def splitSign : List Char → Bool × List Char
  | '-' :: rest => (true, rest)
  | '+' :: rest => (false, rest)
  | rest => (false, rest)

/-- An exponent that has come this far takes no more digits: the power is beyond all doubles,
but for a significand with as many digits. -/
def exponentLimit : Nat := 0x10000

/-- The exponent that a run of digits writes. -/
def exponentOfDigits (digits : List Char) : Nat :=
  digits.foldl (fun n c => if n < exponentLimit then 10 * n + (c.toNat - '0'.toNat) else n) 0

/-- An exponent with its mark, which must be all that is left; no text is exponent zero. -/
def readExponent? : List Char → Option Int
  | [] => some 0
  | c :: rest =>
    if c == 'e' || c == 'E' then
      let (negative, digits) := splitSign rest
      if digits.isEmpty || !digits.all Char.isDigit then none
      else some (if negative then -(exponentOfDigits digits : Int) else exponentOfDigits digits)
    else none

/-- A text that is a literal as a whole.  Digits must stand on one side of the point at least. -/
def read? (text : List Char) : Option Literal :=
  let (negative, rest) := splitSign text
  let whole := rest.takeWhile Char.isDigit
  let rest := rest.dropWhile Char.isDigit
  let (fraction, rest) :=
    match rest with
    | '.' :: rest => (rest.takeWhile Char.isDigit, rest.dropWhile Char.isDigit)
    | rest => ([], rest)
  if whole.isEmpty && fraction.isEmpty then none
  else
    (readExponent? rest).map fun e =>
      ⟨negative, ofDigits (whole ++ fraction), e - fraction.length⟩

/-! ### The nearest double -/

/-- A power of ten that a number other than zero reaches: a decimal digit has room for less
than four binary ones. -/
def powerBelow (n : Nat) : Nat := (Dyadic.bitLength n - 1) / 4

/-- A power of ten that a number stays below: a decimal digit has room for three binary ones. -/
def powerAbove (n : Nat) : Nat := Dyadic.bitLength n / 3 + 1

theorem ten_pow_powerBelow_le {n : Nat} (h : n ≠ 0) : Nat.pow 10 (powerBelow n) ≤ n := by
  have reached : 2 ^ n.log2 ≤ n := Nat.log2_self_le h
  have below : 10 ^ powerBelow n ≤ 2 ^ n.log2 := by
    rw [powerBelow, Dyadic.bitLength, if_neg h, Nat.add_sub_cancel]
    calc 10 ^ (n.log2 / 4) ≤ (2 ^ 4) ^ (n.log2 / 4) := Nat.pow_le_pow_left (by decide) _
      _ = 2 ^ (4 * (n.log2 / 4)) := (Nat.pow_mul ..).symm
      _ ≤ 2 ^ n.log2 := Nat.pow_le_pow_right (by decide) (Nat.mul_div_le ..)
  exact Nat.le_trans below reached

theorem lt_ten_pow_powerAbove (n : Nat) : n < Nat.pow 10 (powerAbove n) := by
  have above : n < 2 ^ Dyadic.bitLength n := by
    rw [Dyadic.bitLength]
    split
    · next h => simp [h]
    · exact Nat.lt_log2_self
  calc n < 2 ^ Dyadic.bitLength n := above
    _ ≤ 2 ^ (3 * powerAbove n) := Nat.pow_le_pow_right (by decide) (by rw [powerAbove]; omega)
    _ = (2 ^ 3) ^ powerAbove n := Nat.pow_mul ..
    _ ≤ 10 ^ powerAbove n := Nat.pow_le_pow_left (by decide) _

/-- A power of ten at which every double is infinite, and under whose inverse every one is zero. -/
def exponentBound : Int := 400

/-- The nearest double.  A number beyond the bound on either side is not written out, since
its exponent alone may be too long for that. -/
def Literal.toDouble (l : Literal) : Float :=
  if l.significand == 0 || l.exponent + powerAbove l.significand < -exponentBound then
    Double.ofWhole l.negative 0
  else if exponentBound < l.exponent + powerBelow l.significand then
    Double.withSign l.negative Double.infinity
  else
    Double.ofQuotient l.negative (l.significand * Nat.pow 10 l.exponent.toNat)
      (Nat.pow 10 (-l.exponent).toNat)

/-- The double a literal denotes, if the text is one. -/
def toDouble? (text : List Char) : Option Float :=
  (read? text).map Literal.toDouble

/-! ### The longest literal at the front -/

/-- How many digits a text begins with. -/
def digitRun (text : List Char) : Nat := (text.takeWhile Char.isDigit).length

/-- The length of an exponent at the front of a text, which counts only with a digit. -/
def exponentLength : List Char → Nat
  | c :: rest =>
    if c == 'e' || c == 'E' then
      match rest with
      | s :: digits =>
        if s == '-' || s == '+' then
          if digitRun digits == 0 then 0 else 2 + digitRun digits
        else if digitRun rest == 0 then 0 else 1 + digitRun rest
      | [] => 0
    else 0
  | [] => 0

/-- The length of digits and a point at the front of a text, zero without a digit. -/
def mantissaLength (text : List Char) : Nat :=
  let whole := digitRun text
  match text.drop whole with
  | '.' :: rest =>
    let fraction := digitRun rest
    if whole == 0 && fraction == 0 then 0 else whole + 1 + fraction
  | _ => whole

/-- The length of the longest literal that the text begins with, zero if none does. -/
def literalLength (text : List Char) : Nat :=
  let sign :=
    match text with
    | c :: _ => if c == '-' || c == '+' then 1 else 0
    | [] => 0
  let mantissa := mantissaLength (text.drop sign)
  if mantissa == 0 then 0
  else sign + mantissa + exponentLength (text.drop (sign + mantissa))

end Decimal

end Stepwise
