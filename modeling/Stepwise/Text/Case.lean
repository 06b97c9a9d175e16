/-
Upper and lower case of whole texts.

A character may become several, and the lower case of a capital sigma depends on its
place: at the end of a word it is the final form.
-/
import Stepwise.Text.CaseTable

namespace Stepwise

namespace Case

def inRanges (ranges : List (Nat × Nat)) (n : Nat) : Bool :=
  ranges.any fun (first, last) => first ≤ n && n ≤ last

/-- A character moved by the run that it belongs to. -/
def move (runs : List CaseTable.Run) (c : Char) : Char :=
  let n := c.toNat
  match runs.find? fun r => r.first ≤ n && n ≤ r.last && (n - r.first) % r.step == 0 with
  | some r => Char.ofNat (n + r.offset).toNat
  | none => c

/-- The mapping of one character by two tables. -/
def mapped (special : List (Nat × List Nat)) (runs : List CaseTable.Run) (c : Char) : List Char :=
  match special.lookup c.toNat with
  | some cs => cs.map Char.ofNat
  | none => [move runs c]

def lowerChar (c : Char) : List Char :=
  if c.toNat < 128 then [c.toLower] else mapped CaseTable.lowerSpecial CaseTable.lowerRuns c

def upperChar (c : Char) : List Char :=
  if c.toNat < 128 then [c.toUpper] else mapped CaseTable.upperSpecial CaseTable.upperRuns c

def isCased (c : Char) : Bool :=
  if c.toNat < 128 then c.isAlpha else inRanges CaseTable.cased c.toNat

def isIgnorable (c : Char) : Bool :=
  if c.toNat < 128 then "'.:^\x60".toList.contains c else inRanges CaseTable.ignorable c.toNat

/-- Does a cased character come first, other than characters passed over? -/
def casedFirst (text : List Char) : Bool :=
  match text.dropWhile isIgnorable with
  | c :: _ => isCased c
  | [] => false

def capitalSigma : Char := '\u03a3'

def smallSigma : Char := '\u03c3'

def finalSigma : Char := '\u03c2'

/-- The lower case of a text, given what stands before it, backward. -/
def lowerFrom (before : List Char) : List Char → List Char
  | [] => []
  | c :: rest =>
    (if c == capitalSigma then
      [if casedFirst before && !casedFirst rest then finalSigma else smallSigma]
    else lowerChar c) ++ lowerFrom (c :: before) rest

def lower (text : List Char) : List Char := lowerFrom [] text

def upper (text : List Char) : List Char := text.flatMap upperChar

end Case

end Stepwise
