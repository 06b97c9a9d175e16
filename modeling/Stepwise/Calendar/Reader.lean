/-
Reading the time that a text writes.

Several forms are tried one after the other: the internet form with its offset, the
forms without a zone, which are universal time, a date alone, the form of mail headers,
and the form that dates are printed in.  A form that does not fit the whole text, or
names a time that does not exist, leaves the text to the next one.
-/
import Stepwise.Calendar.Form
import Stepwise.Number.Decimal
import Stepwise.Text.Blank

namespace Stepwise

namespace Calendar

namespace Reader

/-- What a form found at the front of a text, and what follows. -/
abbrev Scan (α : Type) := List Char → Option (α × List Char)

/-- What a text says of a time. -/
structure Stated where
  year : Int
  month : Nat
  day : Nat
  hours : Nat := 0
  minutes : Nat := 0
  seconds : Nat := 0
  milliseconds : Nat := 0
  /-- Seconds ahead of universal time. -/
  offset : Int := 0
  weekday : Option Nat := none

/-- A day has this many seconds, and an offset less. -/
def secondsPerDay : Int := 86400

/-- The time, if it exists: a date of the calendar, on the weekday if one was given, and a
time of the day, where second sixty is the one after fifty-nine. -/
def Stated.time? (st : Stated) : Option Int :=
  let date : Date := ⟨st.year, st.month, st.day⟩
  let day := date.toDay
  let clock : Int := st.hours * 3600 + st.minutes * 60 + st.seconds - st.offset
  if date.isValid && st.weekday.all (· == Calendar.weekday day) && st.hours ≤ 23 && st.minutes ≤ 59
      && st.seconds ≤ 60 && -secondsPerDay < st.offset && st.offset < secondsPerDay
      && isDay (day + (clock - if st.seconds == 60 then 1 else 0) / secondsPerDay) then
    some ((day * secondsPerDay + clock) * 1000 + st.milliseconds)
  else none

/-! ### Pieces -/

/-- One given character. -/
def char (c : Char) : Scan Unit
  | d :: rest => if c == d then some ((), rest) else none
  | [] => none

/-- A given text. -/
def word (text : String) (s : List Char) : Option (Unit × List Char) :=
  if text.toList.isPrefixOf s then some ((), s.drop text.length) else none

def skipSpace (s : List Char) : List Char := s.dropWhile Blank.isSpace

/-- White space, which must be there. -/
def space (s : List Char) : Option (Unit × List Char) :=
  match s with
  | c :: _ => if Blank.isSpace c then some ((), skipSpace s) else none
  | [] => none

/-- A number of at least `least` digits, as far as `most` if that is given. -/
def number (least : Nat) (most : Option Nat) (s : List Char) : Option (Nat × List Char) :=
  let run := s.takeWhile Char.isDigit
  let digits :=
    match most with
    | some n => run.take n
    | none => run
  if digits.length < least then none else some (Decimal.ofDigits digits, s.drop digits.length)

/-- A number with white space in front of it, one digit or more. -/
def field (width : Nat) (s : List Char) : Option (Nat × List Char) :=
  number 1 (some width) (skipSpace s)

/-- A year with white space in front of it: four digits at most, or any number with a sign. -/
def signedYear (s : List Char) : Option (Int × List Char) :=
  match skipSpace s with
  | '-' :: rest => (number 1 none rest).map fun (n, rest) => (-(n : Int), rest)
  | '+' :: rest => (number 1 none rest).map fun (n, rest) => ((n : Int), rest)
  | s => (number 1 (some 4) s).map fun (n, rest) => ((n : Int), rest)

/-- The milliseconds of the digits behind a point, which may be missing as a whole. -/
def fraction (s : List Char) : Option (Nat × List Char) :=
  match s with
  | '.' :: rest =>
    let digits := rest.takeWhile Char.isDigit
    if digits.isEmpty then none
    else some (Decimal.ofDigits ((digits ++ ['0', '0']).take 3), rest.dropWhile Char.isDigit)
  | s => some (0, s)

/-- The place in a list of the name of three letters that a text begins with. -/
def nameOf (names : List String) (s : List Char) : Option (Nat × List Char) :=
  let found := (s.take 3).map Char.toLower
  (names.findIdx? fun name => name.toList.map Char.toLower == found).map fun i => (i, s.drop 3)

/-- A sign, two digits for hours, what `separator` skips, two digits for minutes. -/
def offset (separator : Scan Unit) (longMinus : Bool) (s : List Char) : Option (Int × List Char) := do
  let (negative, s) ←
    match s with
    | '+' :: s => some (false, s)
    | '-' :: s => some (true, s)
    | '−' :: s => if longMinus then some (true, s) else none
    | _ => none
  let (hours, s) ← number 2 (some 2) s
  let (_, s) ← separator s
  let (minutes, s) ← number 2 (some 2) s
  if 60 ≤ minutes then none
  else
    let seconds : Int := hours * 3600 + minutes * 60
    return (if negative then -seconds else seconds, s)

def noSeparator : Scan Unit := fun s => some ((), s)

/-- Nothing may be left. -/
def complete (found : Stated × List Char) : Option Int :=
  if found.2.isEmpty then found.1.time? else none

/-! ### Forms -/

/-- Year, month, day and time of day with all their digits, an offset or `Z`. -/
def internet (s : List Char) : Option Int := do
  let (year, s) ← number 4 (some 4) s
  let (_, s) ← char '-' s
  let (month, s) ← number 2 (some 2) s
  let (_, s) ← char '-' s
  let (day, s) ← number 2 (some 2) s
  let (_, s) ← (char 'T' s <|> char 't' s <|> char ' ' s)
  let (hours, s) ← number 2 (some 2) s
  let (_, s) ← char ':' s
  let (minutes, s) ← number 2 (some 2) s
  let (_, s) ← char ':' s
  let (seconds, s) ← number 2 (some 2) s
  let (milliseconds, s) ← fraction s
  let (offset, s) ←
    match s with
    | 'Z' :: s => some ((0 : Int), s)
    | 'z' :: s => some (0, s)
    | s => offset (char ':') true s
  complete (⟨year, month, day, hours, minutes, seconds, milliseconds, offset, none⟩, s)

/-- Year, month and day with hyphens between. -/
def hyphenDate (s : List Char) : Option (Date × List Char) := do
  let (year, s) ← signedYear s
  let (_, s) ← char '-' s
  let (month, s) ← field 2 s
  let (_, s) ← char '-' s
  let (day, s) ← field 2 s
  return (⟨year, month, day⟩, s)

/-- Hours, minutes and seconds with colons between. -/
def colonClock (s : List Char) : Option ((Nat × Nat × Nat) × List Char) := do
  let (hours, s) ← field 2 s
  let (_, s) ← char ':' s
  let (minutes, s) ← field 2 s
  let (_, s) ← char ':' s
  let (seconds, s) ← field 2 s
  return ((hours, minutes, seconds), s)

/-- A date, a `T`, and a time of day with or without a fraction. -/
def dateTime (s : List Char) : Option Int := do
  let (date, s) ← hyphenDate s
  let (_, s) ← char 'T' s
  let ((hours, minutes, seconds), s) ← colonClock s
  let (milliseconds, s) ← fraction s
  complete (⟨date.year, date.month, date.day, hours, minutes, seconds, milliseconds, 0, none⟩, s)

/-- A date, a `T`, hours and minutes. -/
def dateMinute (s : List Char) : Option Int := do
  let (date, s) ← hyphenDate s
  let (_, s) ← char 'T' s
  let (hours, s) ← field 2 s
  let (_, s) ← char ':' s
  let (minutes, s) ← field 2 s
  complete (⟨date.year, date.month, date.day, hours, minutes, 0, 0, 0, none⟩, s)

/-- A date and a time of day with white space between. -/
def spacedDateTime (s : List Char) : Option Int := do
  let (date, s) ← hyphenDate s
  let ((hours, minutes, seconds), s) ← colonClock (skipSpace s)
  complete (⟨date.year, date.month, date.day, hours, minutes, seconds, 0, 0, none⟩, s)

/-- A date alone. -/
def dateOnly (s : List Char) : Option Int := do
  let (date, s) ← hyphenDate s
  complete (⟨date.year, date.month, date.day, 0, 0, 0, 0, 0, none⟩, s)

/-! ### Mail headers -/

/-- A year of two digits lies between 1950 and 2049, one of three digits counts from 1900. -/
def mailYear (s : List Char) : Option (Int × List Char) :=
  let digits := (s.takeWhile Char.isDigit).length
  (number 2 none s).map fun (n, s) =>
    (if digits == 2 then if n ≤ 49 then n + 2000 else n + 1900
      else if digits == 3 then n + 1900 else n, s)

def isLetter (c : Char) : Bool := c.isAlpha

/-- The offset of a zone name in hours; the military letters stand for universal time. -/
def zoneHours? (name : List Char) : Option Int :=
  let name := String.ofList (name.map Char.toLower)
  if name == "gmt" || name == "ut" || name == "z" then some 0
  else if name == "edt" then some (-4)
  else if name == "est" || name == "cdt" then some (-5)
  else if name == "cst" || name == "mdt" then some (-6)
  else if name == "mst" || name == "pdt" then some (-7)
  else if name == "pst" then some (-8)
  else if name.length == 1 && name != "j" then some 0
  else none

def mailZone (s : List Char) : Option (Int × List Char) :=
  let name := s.takeWhile isLetter
  if name.isEmpty then offset noSeparator false s
  else (zoneHours? name).map fun hours => (hours * 3600, s.dropWhile isLetter)

/-- What follows a comment in parentheses whose `depth` innermost ones are open. -/
def commentEnd? : (depth : Nat) → List Char → Option (List Char)
  | _, [] => none
  | 0, c :: rest => if c == '(' then commentEnd? 1 rest else none
  | depth, '\\' :: _ :: rest => commentEnd? depth rest
  | depth + 1, c :: rest =>
    if c == '(' then commentEnd? (depth + 2) rest
    else if c == ')' then if depth == 0 then some rest else commentEnd? depth rest
    else commentEnd? (depth + 1) rest

/-- What follows any number of comments; `fuel` bounds their number. -/
def skipComments : (fuel : Nat) → List Char → List Char
  | 0, s => s
  | fuel + 1, s =>
    match commentEnd? 0 (skipSpace s) with
    | some rest => skipComments fuel rest
    | none => s

/-- An optional weekday and a comma, day, month by name, year, time of day, zone, comments. -/
def mail (s : List Char) : Option Int := do
  let s := skipSpace s
  let (weekday, s) ←
    match nameOf weekdayNames s with
    | some (i, s) => (char ',' s).map fun (_, s) => (some i, s)
    | none => some (none, s)
  let (day, s) ← number 1 (some 2) (skipSpace s)
  let (_, s) ← space s
  let (month, s) ← nameOf monthNames s
  let (_, s) ← space s
  let (year, s) ← mailYear s
  let (_, s) ← space s
  let (hours, s) ← number 2 (some 2) s
  let (_, s) ← char ':' (skipSpace s)
  let (minutes, s) ← number 2 (some 2) (skipSpace s)
  let (seconds, s) ←
    match char ':' (skipSpace s) with
    | some (_, s) => number 2 (some 2) s
    | none => some (0, s)
  let (_, s) ← space s
  let (zone, s) ← mailZone s
  complete (⟨year, month + 1, day, hours, minutes, seconds, 0, zone, weekday⟩,
    skipComments (s.length + 1) s)

/-! ### The printed form -/

/-- Colons and white space, which may be missing. -/
def looseSeparator : Scan Unit := fun s =>
  some ((), s.dropWhile fun c => c == ':' || Blank.isSpace c)

/-- The text before the first opening parenthesis behind a space. -/
def beforeZoneName : List Char → List Char
  | ' ' :: '(' :: _ => []
  | c :: rest => c :: beforeZoneName rest
  | [] => []

/-- Weekday, month by name, day, year, time of day, `GMT` and an offset. -/
def printed (s : List Char) : Option Int := do
  let s := beforeZoneName s
  let (weekday, s) ← nameOf weekdayNames s
  let (month, s) ← nameOf monthNames (skipSpace s)
  let (day, s) ← field 2 (skipSpace s)
  let (year, s) ← signedYear (skipSpace s)
  let ((hours, minutes, seconds), s) ← colonClock (skipSpace s)
  let (_, s) ← word "GMT" (skipSpace s)
  let (offset, s) ← offset looseSeparator true (skipSpace s)
  complete (⟨year, month + 1, day, hours, minutes, seconds, 0, offset, some weekday⟩, s)

/-- The time of a text in the first form that fits. -/
def read? (text : List Char) : Option Int :=
  let s := Blank.trimSpace text
  internet s <|> dateTime s <|> dateMinute s <|> spacedDateTime s <|> dateOnly s <|> mail s
    <|> printed s

end Reader

/-- The time that a text writes, as a number; not a number if it writes none. -/
def ofText (text : String) : Float := toDouble (Reader.read? text.toList)

end Calendar

end Stepwise
