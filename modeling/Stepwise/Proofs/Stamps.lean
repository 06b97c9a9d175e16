/-
Times that are printed and read.

A printed time is a row of pieces: numbers of a given width, names of three letters, and marks between them.
Each piece is read by its own scan, whatever stands behind it (`number_padded`, `nameOf_name`, `colonClock_clock`),
so a text is read piece by piece by the format that it was printed in, and what is then stated is the time that
its parts were taken from (`Stated.time?_of_parts`).

The formats are tried in a fixed order (`attempts`).  The ones that come before the format of mail headers all
want a number first, and a text that begins with the name of a weekday has none (`ReadBy` tells which format is the
one that fits).  The format of mail headers wants a comma behind that name, and the longest text has a space there.
-/
import Stepwise.Builtin.Call
import Stepwise.Proofs.Literals
import Stepwise.Proofs.Validity

namespace Stepwise

namespace Calendar

open Decimal

/-! ### Numbers of a given width -/

variable {width n : ℕ} {rest : List Char}

theorem toList_padded (width n : ℕ) : (padded width n).toList =
    List.replicate (width - (Nat.toDigits 10 n).length) '0' ++ Nat.toDigits 10 n := by
  have hdigits : (toString n).toList = Nat.toDigits 10 n := Nat.toList_repr
  rw [padded, String.toList_append, String.toList_ofList, ← String.length_toList, hdigits]

theorem length_padded (hn : n < 10 ^ width) (hwidth : 0 < width) : (padded width n).toList.length = width := by
  have hlength := (Nat.length_toDigits_le_iff (b := 10) (by decide) hwidth).mpr hn
  rw [toList_padded, List.length_append, List.length_replicate]
  omega

theorem areDigits_padded (width n : ℕ) : AreDigits (padded width n).toList := by
  rw [toList_padded]
  refine AreDigits.append ?_ fun c hc => Nat.isDigit_of_mem_toDigits (by decide) (by decide) hc
  intro c hc
  rw [List.eq_of_mem_replicate hc]
  decide

/-- Zeros in front do not count. -/
theorem ofDigits_padded (width n : ℕ) : ofDigits (padded width n).toList = n := by
  have hzeros (k : ℕ) : Nat.ofDigitChars 10 (List.replicate k '0') 0 = 0 := by
    induction k with
    | zero => rfl
    | succ k ih =>
        rw [List.replicate_succ, Nat.ofDigitChars_cons]
        exact ih
  rw [ofDigits_eq_ofDigitChars, toList_padded, Nat.ofDigitChars_append, hzeros,
    Nat.ofDigitChars_toDigits (by decide) (by decide)]

theorem padded_ne_nil (width n : ℕ) : (padded width n).toList ≠ [] := by
  rw [toList_padded]
  simp [Nat.toDigits_ne_nil]

/-! ### What begins otherwise -/

/-- No white space stands in front. -/
def StopsSpace (text : List Char) : Prop := ∀ c ∈ text.head?, Blank.isSpace c = false

theorem stopsSpace_cons {c : Char} (hc : Blank.isSpace c = false) (rest : List Char) : StopsSpace (c :: rest) := by
  intro d hd
  cases hd
  exact hc

theorem isSpace_of_isDigit {c : Char} (hc : c.isDigit = true) : Blank.isSpace c = false := by
  have hrange := Decimal.toNat_of_isDigit hc
  unfold Blank.isSpace
  simp only [Bool.or_eq_false_iff, Bool.and_eq_false_iff, decide_eq_false_iff_not, beq_eq_false_iff_ne]
  omega

theorem stopsSpace_padded (width n : ℕ) (rest : List Char) : StopsSpace ((padded width n).toList ++ rest) := by
  obtain ⟨c, more, hcons⟩ := List.exists_cons_of_ne_nil (padded_ne_nil width n)
  rw [hcons]
  exact stopsSpace_cons (isSpace_of_isDigit (areDigits_padded width n c (by rw [hcons]; exact List.mem_cons_self))) _

namespace Reader

theorem skipSpace_of_stops {s : List Char} (h : StopsSpace s) : skipSpace s = s := by
  cases s with
  | nil => rfl
  | cons c s => rw [skipSpace, List.dropWhile_cons, h c rfl, if_neg Bool.false_ne_true]

theorem skipSpace_padded (width n : ℕ) (rest : List Char) :
    skipSpace ((padded width n).toList ++ rest) = (padded width n).toList ++ rest :=
  skipSpace_of_stops (stopsSpace_padded width n rest)

theorem skipSpace_blank (s : List Char) : skipSpace (' ' :: s) = skipSpace s := rfl

theorem space_blank {s : List Char} (h : StopsSpace s) : space (' ' :: s) = some ((), s) := by
  show some ((), skipSpace (' ' :: s)) = _
  rw [skipSpace_blank, skipSpace_of_stops h]

theorem char_self (c : Char) (s : List Char) : char c (c :: s) = some ((), s) := by
  rw [char, if_pos (beq_self_eq_true c)]

/-! ### Scans of one piece -/

/-- A scan goes on behind what it found. -/
theorem bind_of_some {α β : Type} {x : Option α} {a : α} (h : x = some a) (f : α → Option β) : (x >>= f) = f a := by
  rw [h]
  rfl

/-- A number is read in its width, whatever follows. -/
theorem number_padded {least : ℕ} (hn : n < 10 ^ width) (hwidth : 0 < width) (hleast : least ≤ width)
    (rest : List Char) : number least (some width) ((padded width n).toList ++ rest) = some (n, rest) := by
  have hlength := length_padded hn hwidth
  have htaken : (((padded width n).toList ++ rest).takeWhile Char.isDigit).take width = (padded width n).toList := by
    rw [List.takeWhile_append_of_pos (areDigits_padded width n), List.take_append_of_le_length (by omega),
      List.take_of_length_le (by omega)]
  unfold number
  dsimp only
  rw [htaken, if_neg (by omega), ofDigits_padded, List.drop_left]

/-- A number without a bound is read up to where the digits end. -/
theorem number_all_padded {least : ℕ} (hn : n < 10 ^ width) (hwidth : 0 < width) (hleast : least ≤ width)
    (hrest : StopsDigits rest) : number least none ((padded width n).toList ++ rest) = some (n, rest) := by
  have hlength := length_padded hn hwidth
  unfold number
  dsimp only
  rw [takeWhile_digits (areDigits_padded width n) hrest, if_neg (by omega), ofDigits_padded, List.drop_left]

theorem number_of_stops {least : ℕ} {s : List Char} (hleast : 0 < least) (h : StopsDigits s) (most : Option ℕ) :
    number least most s = none := by
  unfold number
  dsimp only
  rw [takeWhile_of_stops h]
  cases most <;> simp [hleast]

theorem field_padded (hn : n < 10 ^ width) (hwidth : 0 < width) (rest : List Char) :
    field width ((padded width n).toList ++ rest) = some (n, rest) := by
  rw [field, skipSpace_padded, number_padded hn hwidth hwidth]

theorem signedYear_padded (hn : n < 10 ^ 4) (rest : List Char) :
    signedYear ((padded 4 n).toList ++ rest) = some ((n : ℤ), rest) := by
  obtain ⟨c, more, hcons⟩ := List.exists_cons_of_ne_nil (padded_ne_nil 4 n)
  have hdigit := areDigits_padded 4 n c (by rw [hcons]; exact List.mem_cons_self)
  have hnumber : number 1 (some 4) ((padded 4 n).toList ++ rest) = some (n, rest) :=
    number_padded hn (by decide) (by decide) rest
  rw [signedYear, skipSpace_padded]
  rw [hcons, List.cons_append] at hnumber ⊢
  split
  · rename_i heq
    cases heq
    cases hdigit
  · rename_i heq
    cases heq
    cases hdigit
  · rw [hnumber]
    rfl

/-- A year of four digits is that of mail headers. -/
theorem mailYear_padded (hn : n < 10 ^ 4) (hrest : StopsDigits rest) :
    mailYear ((padded 4 n).toList ++ rest) = some ((n : ℤ), rest) := by
  unfold mailYear
  dsimp only
  rw [takeWhile_digits (areDigits_padded 4 n) hrest, length_padded hn (by decide),
    number_all_padded hn (by decide) (by decide) hrest]
  rfl

/-- Three digits behind a point are milliseconds. -/
theorem fraction_padded (hn : n < 10 ^ 3) (hrest : StopsDigits rest) :
    fraction ('.' :: ((padded 3 n).toList ++ rest)) = some (n, rest) := by
  have hlength := length_padded hn (by decide)
  rw [fraction, takeWhile_digits (areDigits_padded 3 n) hrest, dropWhile_digits (areDigits_padded 3 n) hrest,
    if_neg (by simpa using padded_ne_nil 3 n), List.take_append_of_le_length (by omega),
    List.take_of_length_le (by omega), ofDigits_padded]

/-- A name of three letters that is found at its place. -/
def IsNameAt (names : List String) (i : ℕ) (name : String) : Prop :=
  name.toList.length = 3 ∧ name.toList.all Char.isAlpha = true ∧
    names.findIdx? (fun other => other.toList.map Char.toLower == name.toList.map Char.toLower) = some i

instance (names : List String) (i : ℕ) (name : String) : Decidable (IsNameAt names i name) :=
  inferInstanceAs (Decidable (_ ∧ _))

theorem nameOf_name {names : List String} {name : String} {i : ℕ} (h : IsNameAt names i name) (rest : List Char) :
    nameOf names (name.toList ++ rest) = some (i, rest) := by
  obtain ⟨hlength, -, hfound⟩ := h
  unfold nameOf
  dsimp only
  rw [List.take_left' hlength, List.drop_left' hlength, hfound]
  rfl

end Reader

/-! ### The pieces of a printed time -/

variable {t : ℤ} {ps : Parts ℤ}

/-- The time of day. -/
def clockChars (ps : Parts ℤ) : List Char :=
  (padded 2 ps.hours.toNat).toList ++ ':' :: ((padded 2 ps.minutes.toNat).toList ++
    ':' :: (padded 2 ps.seconds.toNat).toList)

/-- The name of the day of the week. -/
def weekdayName (t : ℤ) : String := (weekdayNames[weekdayOf t]?).getD ""

def monthName (ps : Parts ℤ) : String := (monthNames[ps.month.toNat]?).getD ""

/-- The parts of a time whose year has four digits. -/
structure Parts.FourDigits (ps : Parts ℤ) : Prop extends ps.Proper where
  least : 0 ≤ ps.year
  most : ps.year ≤ 9999

namespace Parts.FourDigits

theorem yearText (h : ps.FourDigits) : yearText ps.year = padded 4 ps.year.natAbs := by
  have hleast := h.least
  have hmost := h.most
  rw [Calendar.yearText, if_pos (by simp [hleast, hmost])]

theorem day_le (h : ps.FourDigits) : ps.day ≤ 31 := by
  have hday := h.day.2
  have hlength := monthLength_le ps.year (ps.month.toNat + 1)
  omega

/-- Every part fits the width that it is printed in. -/
theorem fits (h : ps.FourDigits) : ps.year.natAbs < 10 ^ 4 ∧ (ps.month + 1).toNat < 10 ^ 2 ∧ ps.day.toNat < 10 ^ 2 ∧
    ps.hours.toNat < 10 ^ 2 ∧ ps.minutes.toNat < 10 ^ 2 ∧ ps.seconds.toNat < 10 ^ 2 ∧
    ps.milliseconds.toNat < 10 ^ 3 := by
  have hleast := h.least
  have hmost := h.most
  have hday := h.day_le
  obtain ⟨-, hmonth, -, hhours, hminutes, hseconds, hmilliseconds⟩ := h.toProper
  omega

end Parts.FourDigits

/-- The text with milliseconds. -/
theorem toList_text_iso (h : ps.FourDigits) (t : ℤ) : (text .iso t ps).toList =
    (padded 4 ps.year.natAbs).toList ++ '-' :: ((padded 2 (ps.month + 1).toNat).toList ++
      '-' :: ((padded 2 ps.day.toNat).toList ++ 'T' :: (clockChars ps ++
        '.' :: ((padded 3 ps.milliseconds.toNat).toList ++ ['Z'])))) := by
  simp [text, h.yearText, clockChars]

/-- The text of mail headers. -/
theorem toList_text_utc (h : ps.FourDigits) (t : ℤ) : (text .utc t ps).toList =
    (weekdayName t).toList ++ ',' :: ' ' :: ((padded 2 ps.day.toNat).toList ++ ' ' :: ((monthName ps).toList ++
      ' ' :: ((padded 4 ps.year.natAbs).toList ++ ' ' :: (clockChars ps ++ [' ', 'G', 'M', 'T'])))) := by
  simp [text, h.yearText, clockChars, weekdayName, monthName]

/-- The text that a date is turned into. -/
theorem toList_text_full (h : ps.FourDigits) (t : ℤ) : (text .full t ps).toList =
    ((weekdayName t).toList ++ ' ' :: ((monthName ps).toList ++ ' ' :: ((padded 2 ps.day.toNat).toList ++
      ' ' :: ((padded 4 ps.year.natAbs).toList ++ ' ' :: (clockChars ps ++
        [' ', 'G', 'M', 'T', '+', '0', '0', '0', '0']))))) ++ [' ', '(', 'U', 'T', 'C', ')'] := by
  simp [text, h.yearText, clockChars, weekdayName, monthName]

/-! ### What is stated -/

/-- **What is stated of the parts of a time is that time**, down to its seconds, and the milliseconds that are
stated. -/
theorem Reader.Stated.time?_of_parts (h : ps.FourDigits) (hinstant : instant ps.year ps = t)
    (htold : isDay (t / msPerDay) = true) (milliseconds : ℕ) (weekday : Option ℕ)
    (hweekday : ∀ i ∈ weekday, i = weekdayOf t) :
    (Stated.mk ps.year.natAbs (ps.month + 1).toNat ps.day.toNat ps.hours.toNat ps.minutes.toNat ps.seconds.toNat
      milliseconds 0 weekday).time? = some (t / 1000 * 1000 + milliseconds) := by
  have hleast := h.least
  obtain ⟨hyear, hmonth, hday, hhours, hminutes, hseconds, hmilliseconds⟩ := h.toProper
  have hsame : (ps.year.natAbs : ℤ) = ps.year := by omega
  have hnext : (ps.month % 12).toNat + 1 = (ps.month + 1).toNat := by omega
  have hplace : ps.month.toNat + 1 = (ps.month + 1).toNat := by omega
  rw [hplace] at hday
  -- The day of the date is that of the time.
  have hdate := toDay_day ps.year (ps.month + 1).toNat ps.day.toNat
  obtain ⟨hmsDay, hmsHour, hmsMinute, hmsSecond⟩ := msPer_eq
  rw [instant, monthStart, hnext, hmsDay, hmsHour, hmsMinute, hmsSecond] at hinstant
  have hwhole : (Date.mk ps.year (ps.month + 1).toNat ps.day.toNat).toDay = t / msPerDay := by
    rw [hmsDay]
    omega
  have hvalid : (Date.mk ps.year (ps.month + 1).toNat ps.day.toNat).isValid = true := by
    simp only [Date.isValid, hyear, Bool.true_and, Bool.and_eq_true, decide_eq_true_eq]
    omega
  have hnamed : weekday.all (· == Calendar.weekday (t / msPerDay)) = true := by
    cases weekday with
    | none => rfl
    | some i => exact beq_iff_eq.mpr (hweekday i rfl)
  have hclock : (ps.hours.toNat : ℤ) * 3600 + ps.minutes.toNat * 60 + ps.seconds.toNat = t % 86400000 / 1000 := by
    omega
  have hlast : (if (ps.seconds.toNat == 60) = true then (1 : ℤ) else 0) = 0 := if_neg (by rw [beq_iff_eq]; omega)
  have hsameDay : t / msPerDay + (t % 86400000 / 1000 - 0) / secondsPerDay = t / msPerDay := by
    show _ + (_ - 0) / 86400 = _
    omega
  unfold Stated.time?
  dsimp only
  rw [hsame, hwhole, hvalid, hnamed, hclock, hlast, Int.sub_zero, hsameDay, htold, if_pos]
  · rw [hmsDay, show secondsPerDay = 86400 from rfl]
    congr 1
    omega
  · simp only [Bool.true_and, Bool.and_true, Bool.and_eq_true, decide_eq_true_eq]
    show (((_ ∧ _) ∧ _) ∧ -86400 < (0 : ℤ)) ∧ (0 : ℤ) < 86400
    omega

namespace Reader

/-! ### Names -/

theorem isNameAt_weekdayName (t : ℤ) : IsNameAt weekdayNames (weekdayOf t) (weekdayName t) := by
  have hall : ∀ i < 7, IsNameAt weekdayNames i ((weekdayNames[i]?).getD "") := by decide
  refine hall (weekdayOf t) ?_
  unfold weekdayOf weekday
  omega

theorem isNameAt_monthName (h : ps.FourDigits) : IsNameAt monthNames ps.month.toNat (monthName ps) := by
  have hall : ∀ i < 12, IsNameAt monthNames i ((monthNames[i]?).getD "") := by decide
  have hmonth := h.month
  exact hall ps.month.toNat (by omega)

/-- A letter stands in front. -/
def BeginsWithLetter (s : List Char) : Prop := ∃ c more, s = c :: more ∧ c.isAlpha = true

theorem beginsWithLetter_name {names : List String} {i : ℕ} {name : String} (h : IsNameAt names i name)
    (rest : List Char) : BeginsWithLetter (name.toList ++ rest) := by
  obtain ⟨hlength, hletters, -⟩ := h
  obtain ⟨c, more, hcons⟩ := List.exists_cons_of_length_pos (show 0 < name.toList.length by omega)
  exact ⟨c, more ++ rest, by rw [hcons, List.cons_append], List.all_eq_true.mp hletters c (by rw [hcons]; exact List.mem_cons_self)⟩

/-- A letter is no digit, no white space and no sign. -/
theorem apart_of_isAlpha {c : Char} (hc : c.isAlpha = true) :
    c.isDigit = false ∧ Blank.isSpace c = false ∧ c ≠ '-' ∧ c ≠ '+' ∧ c ≠ '(' := by
  have hrange : 65 ≤ c.toNat ∧ c.toNat ≤ 90 ∨ 97 ≤ c.toNat ∧ c.toNat ≤ 122 := by
    rcases Bool.or_eq_true_iff.mp (show (c.isUpper || c.isLower) = true from hc) with hupper | hlower
    · obtain ⟨hleast, hmost⟩ : 'A'.val ≤ c.val ∧ c.val ≤ 'Z'.val := of_decide_eq_true hupper
      exact .inl ⟨hleast, hmost⟩
    · obtain ⟨hleast, hmost⟩ := Bool.and_eq_true_iff.mp hlower
      exact .inr ⟨of_decide_eq_true hleast, of_decide_eq_true hmost⟩
  have hne {d : Char} (hd : d.toNat < 65) : c ≠ d := by
    rintro rfl
    omega
  refine ⟨?_, ?_, hne (by decide), hne (by decide), hne (by decide)⟩
  · rw [Bool.eq_false_iff]
    intro hdigit
    have := Decimal.toNat_of_isDigit hdigit
    omega
  · unfold Blank.isSpace
    simp only [Bool.or_eq_false_iff, Bool.and_eq_false_iff, decide_eq_false_iff_not, beq_eq_false_iff_ne]
    omega

theorem stopsSpace_name {names : List String} {i : ℕ} {name : String} (h : IsNameAt names i name) (rest : List Char) :
    StopsSpace (name.toList ++ rest) := by
  obtain ⟨c, more, hcons, hc⟩ := beginsWithLetter_name h rest
  rw [hcons]
  exact stopsSpace_cons (apart_of_isAlpha hc).2.1 _

theorem skipSpace_name {names : List String} {i : ℕ} {name : String} (h : IsNameAt names i name) (rest : List Char) :
    skipSpace (name.toList ++ rest) = name.toList ++ rest :=
  skipSpace_of_stops (stopsSpace_name h rest)

/-! ### Formats that begin with a number -/

theorem internet_of_letter {s : List Char} (h : BeginsWithLetter s) : internet s = none := by
  obtain ⟨c, more, rfl, hc⟩ := h
  rw [internet, number_of_stops (by decide) (stopsDigits_cons (apart_of_isAlpha hc).1 more)]
  rfl

theorem hyphenDate_of_letter {s : List Char} (h : BeginsWithLetter s) : hyphenDate s = none := by
  obtain ⟨c, more, rfl, hc⟩ := h
  obtain ⟨hdigit, hspace, hminus, hplus, -⟩ := apart_of_isAlpha hc
  have hyear : signedYear (c :: more) = none := by
    rw [signedYear, skipSpace_of_stops (stopsSpace_cons hspace more)]
    split
    · rename_i heq
      exact absurd (List.cons.inj heq).1 hminus
    · rename_i heq
      exact absurd (List.cons.inj heq).1 hplus
    · rw [number_of_stops (by decide) (stopsDigits_cons hdigit more)]
      rfl
  rw [hyphenDate, hyear]
  rfl

/-! ### The zone name in parentheses -/

theorem beforeZoneName_append {s : List Char} (hs : '(' ∉ s) (rest : List Char) :
    beforeZoneName (s ++ ' ' :: '(' :: rest) = s := by
  induction s with
  | nil => rfl
  | cons c s ih =>
      have hrest : '(' ∉ s := fun hmem => hs (List.mem_cons_of_mem c hmem)
      rw [List.cons_append]
      unfold beforeZoneName
      split
      · -- What stands behind the space is not the parenthesis yet.
        rename_i heq
        obtain ⟨-, htail⟩ := List.cons.inj heq
        cases s with
        | nil => cases htail
        | cons d s => exact absurd (List.cons.inj htail).1 fun hd => hrest (by rw [hd]; exact List.mem_cons_self)
      · rename_i heq
        obtain ⟨rfl, rfl⟩ := List.cons.inj heq
        rw [ih hrest]
      · rename_i heq
        cases heq

theorem not_mem_padded (width n : ℕ) : '(' ∉ (padded width n).toList :=
  fun hmem => absurd (areDigits_padded width n _ hmem) (by decide)

theorem not_mem_name {names : List String} {i : ℕ} {name : String} (h : IsNameAt names i name) : '(' ∉ name.toList :=
  fun hmem => absurd (List.all_eq_true.mp h.2.1 _ hmem) (by decide)

/-! ### The formats of printed times -/

section

variable (h : ps.FourDigits)

include h

theorem colonClock_clock (rest : List Char) : colonClock (clockChars ps ++ rest) =
    some ((ps.hours.toNat, ps.minutes.toNat, ps.seconds.toNat), rest) := by
  obtain ⟨-, -, -, hhours, hminutes, hseconds, -⟩ := h.fits
  simp only [colonClock, clockChars, List.append_assoc, List.cons_append, Option.bind_eq_bind, Option.bind_some,
    field_padded hhours (by decide), char_self, field_padded hminutes (by decide), field_padded hseconds (by decide),
    Option.pure_def]

/-- The format of mail headers wants a comma behind the day of the week. -/
theorem mail_of_no_comma (t : ℤ) : mail (text .full t ps).toList = none := by
  have hweekdayName := isNameAt_weekdayName t
  rw [toList_text_full h, List.append_assoc, mail, skipSpace_name hweekdayName,
    nameOf_name hweekdayName]
  rfl

variable (hinstant : instant ps.year ps = t) (htold : isDay (t / msPerDay) = true)

include hinstant htold

/-- What is stated with names, and without milliseconds. -/
theorem time?_of_names : (Stated.mk ps.year.natAbs (ps.month.toNat + 1) ps.day.toNat ps.hours.toNat ps.minutes.toNat
    ps.seconds.toNat 0 0 (some (weekdayOf t))).time? = some (t / 1000 * 1000) := by
  have hmonth : ps.month.toNat + 1 = (ps.month + 1).toNat := by
    have := h.month
    omega
  have hstated := Stated.time?_of_parts h hinstant htold 0 (some (weekdayOf t)) (by simp)
  rw [hmonth, hstated]
  exact congrArg some (Int.add_zero _)

/-- The text with milliseconds is read by the first format, as the time that it was printed from. -/
theorem internet_text : internet (text .iso t ps).toList = some t := by
  obtain ⟨hyear, hmonth, hday, hhours, hminutes, hseconds, hmilliseconds⟩ := h.fits
  have hstated := Stated.time?_of_parts h hinstant htold ps.milliseconds.toNat none (by simp)
  have htime : t / 1000 * 1000 + ps.milliseconds.toNat = t := by
    have := h.milliseconds
    rw [instant, monthStart, msPer_eq.1, msPer_eq.2.1, msPer_eq.2.2.1, msPer_eq.2.2.2] at hinstant
    omega
  have hlast : StopsDigits ['Z'] := stopsDigits_cons (by decide) []
  rw [toList_text_iso h, clockChars]
  simp only [List.append_assoc, List.cons_append]
  refine (bind_of_some (number_padded hyear (by decide) (Nat.le_refl 4) _) _).trans ?_
  refine (bind_of_some (char_self '-' _) _).trans ?_
  refine (bind_of_some (number_padded hmonth (by decide) (Nat.le_refl 2) _) _).trans ?_
  refine (bind_of_some (char_self '-' _) _).trans ?_
  refine (bind_of_some (number_padded hday (by decide) (Nat.le_refl 2) _) _).trans ?_
  -- The first of the three marks that may stand between date and time of day.
  refine (bind_of_some (a := ((), _)) rfl _).trans ?_
  refine (bind_of_some (number_padded hhours (by decide) (Nat.le_refl 2) _) _).trans ?_
  refine (bind_of_some (char_self ':' _) _).trans ?_
  refine (bind_of_some (number_padded hminutes (by decide) (Nat.le_refl 2) _) _).trans ?_
  refine (bind_of_some (char_self ':' _) _).trans ?_
  refine (bind_of_some (number_padded hseconds (by decide) (Nat.le_refl 2) _) _).trans ?_
  refine (bind_of_some (fraction_padded hmilliseconds hlast) _).trans ?_
  show Stated.time? _ = _
  rw [hstated, htime]

/-- The text of mail headers is read by its format, down to the seconds. -/
theorem mail_text : mail (text .utc t ps).toList = some (t / 1000 * 1000) := by
  obtain ⟨hyear, -, hday, hhours, hminutes, hseconds, -⟩ := h.fits
  have hweekdayName := isNameAt_weekdayName t
  have hmonthName := isNameAt_monthName h
  have hblank (rest : List Char) : StopsDigits (' ' :: rest) := stopsDigits_cons (by decide) rest
  have hcolon (rest : List Char) : skipSpace (':' :: rest) = ':' :: rest := rfl
  have hzone : mailZone ['G', 'M', 'T'] = some (0, []) := by rfl
  rw [toList_text_utc h, clockChars]
  simp only [List.append_assoc, List.cons_append]
  rw [mail, skipSpace_name hweekdayName, nameOf_name hweekdayName]
  -- The comma behind the day of the week.
  refine (bind_of_some (a := (some (weekdayOf t), _)) rfl _).trans ?_
  dsimp only
  rw [skipSpace_blank, skipSpace_padded]
  refine (bind_of_some (number_padded hday (by decide) (by decide) _) _).trans ?_
  refine (bind_of_some (space_blank (stopsSpace_name hmonthName _)) _).trans ?_
  refine (bind_of_some (nameOf_name hmonthName _) _).trans ?_
  refine (bind_of_some (space_blank (stopsSpace_padded _ _ _)) _).trans ?_
  refine (bind_of_some (mailYear_padded hyear (hblank _)) _).trans ?_
  refine (bind_of_some (space_blank (stopsSpace_padded _ _ _)) _).trans ?_
  refine (bind_of_some (number_padded hhours (by decide) (Nat.le_refl 2) _) _).trans ?_
  refine (bind_of_some (char_self ':' _) _).trans ?_
  dsimp only
  rw [skipSpace_padded]
  refine (bind_of_some (number_padded hminutes (by decide) (Nat.le_refl 2) _) _).trans ?_
  dsimp only
  rw [hcolon, char_self]
  refine (bind_of_some (number_padded hseconds (by decide) (Nat.le_refl 2) _) _).trans ?_
  -- The zone, and no comment behind it.
  refine (bind_of_some (space_blank (stopsSpace_cons (by decide) _)) _).trans ?_
  refine (bind_of_some hzone _).trans ?_
  exact time?_of_names h hinstant htold

/-- The text that a date is turned into is read by the last format, down to the seconds. -/
theorem printed_text : printed (text .full t ps).toList = some (t / 1000 * 1000) := by
  obtain ⟨hyear, -, hday, -⟩ := h.fits
  have hweekdayName := isNameAt_weekdayName t
  have hmonthName := isNameAt_monthName h
  have hclock (rest : List Char) : skipSpace (clockChars ps ++ rest) = clockChars ps ++ rest := by
    rw [clockChars, List.append_assoc, skipSpace_padded]
  have hzone : offset looseSeparator true ['+', '0', '0', '0', '0'] = some (0, []) := by rfl
  rw [toList_text_full h, printed, beforeZoneName_append]
  case hs => simp [clockChars, not_mem_padded, not_mem_name hweekdayName, not_mem_name hmonthName]
  refine (bind_of_some (nameOf_name hweekdayName _) _).trans ?_
  dsimp only
  rw [skipSpace_blank, skipSpace_name hmonthName]
  refine (bind_of_some (nameOf_name hmonthName _) _).trans ?_
  dsimp only
  rw [skipSpace_blank, skipSpace_padded]
  refine (bind_of_some (field_padded hday (by decide) _) _).trans ?_
  dsimp only
  rw [skipSpace_blank, skipSpace_padded]
  refine (bind_of_some (signedYear_padded hyear _) _).trans ?_
  dsimp only
  rw [skipSpace_blank, hclock]
  refine (bind_of_some (colonClock_clock h _) _).trans ?_
  refine (bind_of_some (a := ((), ['+', '0', '0', '0', '0'])) rfl _).trans ?_
  refine (bind_of_some hzone _).trans ?_
  exact time?_of_names h hinstant htold

end

/-! ### The order of the formats -/

/-- What each of the formats makes of a text, in the order in which they are tried. -/
def attempts (s : List Char) : List (Option ℤ) :=
  [internet s, dateTime s, dateMinute s, spacedDateTime s, dateOnly s, mail s, printed s]

/-- **What is read is the first thing that any of the formats makes of the text.** -/
theorem read?_eq (text : List Char) : read? text = (attempts (Blank.trimSpace text)).findSome? id := by
  unfold read? attempts
  dsimp only
  generalize Blank.trimSpace text = s
  cases internet s <;> cases dateTime s <;> cases dateMinute s <;> cases spacedDateTime s <;> cases dateOnly s <;>
    cases mail s <;> cases printed s <;> rfl

/-- **The formats that begin with a number do not take a text that begins with a letter.** -/
theorem attempts_of_letter {s : List Char} (h : BeginsWithLetter s) :
    attempts s = List.replicate 5 none ++ [mail s, printed s] := by
  rw [attempts, internet_of_letter h, dateTime, dateMinute, spacedDateTime, dateOnly, hyphenDate_of_letter h]
  rfl

/-- A text that the first so many formats do not take, and that the next one reads as a time. -/
def ReadBy (i : ℕ) (text : String) (t : ℤ) : Prop :=
  ∃ later, attempts (Blank.trimSpace text.toList) = List.replicate i none ++ some t :: later

theorem ReadBy.ofText {i : ℕ} {text : String} (h : ReadBy i text t) : ofText text = Double.ofInt t := by
  obtain ⟨later, hattempts⟩ := h
  have hread : read? text.toList = some t := by
    rw [read?_eq, hattempts, List.findSome?_append, List.findSome?_replicate]
    simp
  rw [Calendar.ofText, hread]
  rfl

/-- Nothing is trimmed off a text that neither begins nor ends with white space. -/
theorem trimSpace_of_stops {s : List Char} (hfirst : StopsSpace s) (hlast : StopsSpace s.reverse) :
    Blank.trimSpace s = s := by
  have hleft : s.dropWhile Blank.isSpace = s := skipSpace_of_stops hfirst
  have hright : s.reverse.dropWhile Blank.isSpace = s.reverse := skipSpace_of_stops hlast
  rw [Blank.trimSpace, hleft, hright, List.reverse_reverse]

section

variable (h : ps.FourDigits)

include h

theorem trimSpace_iso (t : ℤ) : Blank.trimSpace (text .iso t ps).toList = (text .iso t ps).toList := by
  have hspace : Blank.isSpace 'Z' = false := by decide
  rw [toList_text_iso h]
  exact trimSpace_of_stops (stopsSpace_padded _ _ _) (by simpa [StopsSpace] using hspace)

theorem trimSpace_utc (t : ℤ) : Blank.trimSpace (text .utc t ps).toList = (text .utc t ps).toList := by
  have hspace : Blank.isSpace 'T' = false := by decide
  rw [toList_text_utc h]
  exact trimSpace_of_stops (stopsSpace_name (isNameAt_weekdayName t) _) (by simpa [StopsSpace] using hspace)

theorem trimSpace_full (t : ℤ) : Blank.trimSpace (text .full t ps).toList = (text .full t ps).toList := by
  have hspace : Blank.isSpace ')' = false := by decide
  rw [toList_text_full h, List.append_assoc]
  exact trimSpace_of_stops (stopsSpace_name (isNameAt_weekdayName t) _) (by simpa [StopsSpace] using hspace)

variable (hinstant : instant ps.year ps = t) (htold : isDay (t / msPerDay) = true)

include hinstant htold

theorem readBy_iso : ReadBy 0 (text .iso t ps) t := by
  rw [ReadBy, trimSpace_iso h, attempts, internet_text h hinstant htold]
  exact ⟨_, rfl⟩

theorem readBy_utc : ReadBy 5 (text .utc t ps) (t / 1000 * 1000) := by
  have hletter : BeginsWithLetter (text .utc t ps).toList := by
    rw [toList_text_utc h]
    exact beginsWithLetter_name (isNameAt_weekdayName t) _
  rw [ReadBy, trimSpace_utc h, attempts_of_letter hletter, mail_text h hinstant htold]
  exact ⟨_, rfl⟩

theorem readBy_full : ReadBy 6 (text .full t ps) (t / 1000 * 1000) := by
  have hletter : BeginsWithLetter (text .full t ps).toList := by
    rw [toList_text_full h, List.append_assoc]
    exact beginsWithLetter_name (isNameAt_weekdayName t) _
  rw [ReadBy, trimSpace_full h, attempts_of_letter hletter, mail_of_no_comma h, printed_text h hinstant htold]
  exact ⟨_, rfl⟩

end

end Reader

/-- The parts of a time whose year has four digits. -/
theorem exists_fourDigits (hleast : 0 ≤ (Date.ofDay (t / msPerDay)).year)
    (hmost : (Date.ofDay (t / msPerDay)).year ≤ 9999) :
    ∃ ps, parts? t = some ps ∧ ps.FourDigits ∧ instant ps.year ps = t ∧ isDay (t / msPerDay) = true := by
  have hyear : isYear (Date.ofDay (t / msPerDay)).year = true := isYear_iff.mpr (by omega)
  have hday := (isDay_iff _).mpr hyear
  obtain ⟨ps, hparts, hproper, hinstant⟩ := exists_parts hyear
  have hsame : ps.year = (Date.ofDay (t / msPerDay)).year := by
    rw [parts?] at hparts
    dsimp only at hparts
    rw [if_pos hday] at hparts
    rw [← Option.some.inj hparts]
  exact ⟨ps, hparts, ⟨hproper, by omega, by omega⟩, hinstant, hday⟩

/-- Such a time is a whole number that doubles do not round. -/
theorem lt_of_fourDigits (hleast : 0 ≤ (Date.ofDay (t / msPerDay)).year)
    (hmost : (Date.ofDay (t / msPerDay)).year ≤ 9999) : t.natAbs < 2 ^ 53 := by
  obtain ⟨hfrom, hto⟩ := newYear_bounds (t / msPerDay)
  have hlow := newYear_mono hleast
  have hhigh := newYear_mono (a := (Date.ofDay (t / msPerDay)).year + 1) (b := 10000) (by omega)
  rw [show (Date.mk 0 1 1).toDay = -719528 by decide] at hlow
  rw [show (Date.mk 10000 1 1).toDay = 2932897 by decide] at hhigh
  rw [msPer_eq.1] at hfrom hto hlow hhigh
  omega

end Calendar

namespace Dates

open Calendar (Date msPerDay)
open Calendar.Reader (ReadBy)

variable {s : Heap} {id : ObjectId} {t : ℤ}

/-- What `Date.parse` makes of a text. -/
theorem parse_text (receiver : Value) (text : String) (s : Heap) :
    Builtin.call .dateParse receiver [.string text] s = (.ok (.number (Calendar.ofText text)), s) := rfl

/-- **Reading undoes printing.**  Let a date hold a time whose year has four digits.  What it prints with
milliseconds is read as that time, by the first format there is; what it prints in the form of mail headers and
what it is turned into are read as that time without its milliseconds, also before the epoch, by the formats
that are meant for them, and none of the formats that are tried before takes them for something else. -/
theorem parsing_undoes_printing (hleast : 0 ≤ (Date.ofDay (t / msPerDay)).year)
    (hmost : (Date.ofDay (t / msPerDay)).year ≤ 9999) (h : Holds s id (Double.ofInt t)) (args : List Value) :
    ∃ iso utc full : String,
      method (.toText .iso) (.object id) args s = (.ok (.string iso), s) ∧
      method (.toText .utc) (.object id) args s = (.ok (.string utc), s) ∧
      method (.toText .full) (.object id) args s = (.ok (.string full), s) ∧
      ReadBy 0 iso t ∧ ReadBy 5 utc (t / 1000 * 1000) ∧ ReadBy 6 full (t / 1000 * 1000) ∧
      ∀ receiver s',
        Builtin.call .dateParse receiver [.string iso] s' = (.ok (.number (Double.ofInt t)), s') ∧
        Builtin.call .dateParse receiver [.string utc] s' = (.ok (.number (Double.ofInt (t / 1000 * 1000))), s') ∧
        Builtin.call .dateParse receiver [.string full] s' = (.ok (.number (Double.ofInt (t / 1000 * 1000))), s') := by
  obtain ⟨ps, hparts, hfour, hinstant, htold⟩ := Calendar.exists_fourDigits hleast hmost
  have hcut := Double.toInt?_ofInt (Calendar.lt_of_fourDigits hleast hmost)
  have hwrites (form : DateForm) :
      method (.toText form) (.object id) args s = (.ok (.string (Calendar.text form t ps)), s) := by
    have htext : Calendar.textOf? form (Double.ofInt t) = some (Calendar.text form t ps) := by
      rw [textOf?_eq form hcut, Calendar.partsOf?, hcut, Option.bind_some, hparts, Option.map_some]
    rw [method_of_held h.held]
    dsimp only
    rw [writing_of_text htext]
  have hiso := Calendar.Reader.readBy_iso hfour hinstant htold
  have hutc := Calendar.Reader.readBy_utc hfour hinstant htold
  have hfull := Calendar.Reader.readBy_full hfour hinstant htold
  refine ⟨_, _, _, hwrites .iso, hwrites .utc, hwrites .full, hiso, hutc, hfull, fun receiver s' => ?_⟩
  rw [parse_text, parse_text, parse_text, hiso.ofText, hutc.ofText, hfull.ofText]
  exact ⟨rfl, rfl, rfl⟩

/-- A millisecond before the epoch is printed, and read back with it or as a second before. -/
theorem parsing_undoes_printing_before_epoch : ∃ id s iso utc,
    method (.toText .iso) (.object id) [] s = (.ok (.string iso), s) ∧
    method (.toText .utc) (.object id) [] s = (.ok (.string utc), s) ∧
    Builtin.call .dateParse .undefined [.string iso] s = (.ok (.number (Double.ofInt (-1))), s) ∧
    Builtin.call .dateParse .undefined [.string utc] s = (.ok (.number (Double.ofInt (-1000))), s) := by
  obtain ⟨id, s, -, hholds⟩ := create_holds (Store.create {} none 0.0 1).toHeap (Double.ofInt (-1))
  rw [Double.clip_ofInt (by decide)] at hholds
  obtain ⟨iso, utc, full, hiso, hutc, -, -, -, -, hparse⟩ := parsing_undoes_printing (by decide) (by decide) hholds []
  exact ⟨id, s, iso, utc, hiso, hutc, (hparse .undefined s).1, (hparse .undefined s).2.1⟩

end Dates

end Stepwise
