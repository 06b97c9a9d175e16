/-
The count of days.

The days before a year that begins in March are counted at once: three hundred and sixty-five for each
year, and one for each leap day that lies before it, since a leap day is the last of such a year
(`marchStart`).  So a date and its day are told by that year and a place in it, and there are
leap years only where the last place is the leap day.

From this the count has the laws of the calendar.  The days, the months and the years follow each
other without a gap (`toDay_day`, `toDay_succ_month`, `toDay_succ_year`).  Every day is at a place in
such a year, so it is the day of a date that there is (`toDay_ofDay`, `ofDay_bounds`), and it can be
told just if the year of that date can (`isDay_iff`).
-/
import Mathlib.Tactic.IntervalCases
import Stepwise.Calendar.Day

namespace Stepwise

namespace Calendar

/-! ### Years that begin in March -/

/-- The day count of the first of March. -/
def marchStart (year : Int) : Int := marchZero + 365 * year + year / 4 - year / 100 + year / 400

theorem isLeap_iff {year : Int} :
    isLeap year = true ↔ year % 4 = 0 ∧ (year % 100 ≠ 0 ∨ year % 400 = 0) := by
  simp [isLeap]

/-- A year that begins in March ends with the leap day, if the next year is a leap year. -/
theorem marchStart_succ (year : Int) :
    marchStart (year + 1) = marchStart year + if isLeap (year + 1) then 366 else 365 := by
  unfold marchStart
  split
  · rename_i hleap
    rw [isLeap_iff] at hleap
    omega
  · rename_i hcommon
    rw [isLeap_iff] at hcommon
    omega

theorem marchStart_mono {a b : Int} (h : a ≤ b) : marchStart a ≤ marchStart b := by
  unfold marchStart
  omega

variable {year : Int} {month day place offset : Nat}

/-- The day of a date by the year that begins in March. -/
theorem toDay_mk (year : Int) (month day : Nat) :
    (Date.mk year month day).toDay =
      marchStart (if month ≤ 2 then year - 1 else year) + daysBefore ((month + 9) % 12) + day - 1 := by
  unfold Date.toDay marchStart
  dsimp only
  generalize (if month ≤ 2 then year - 1 else year) = year
  have hcycle : (cycleDays : Int) = 146097 := rfl
  rw [hcycle]
  omega

/-! ### Months -/

/-- The month at a place counted from March. -/
def monthAt (place : Nat) : Nat := if place < 10 then place + 3 else place - 9

/-- The days before the next month are more by the days that a month has. -/
theorem daysBefore_succ (hplace : place < 11) (year : Int) :
    daysBefore (place + 1) = daysBefore place + monthLength year (monthAt place) := by
  interval_cases place <;> rfl

/-- Days follow each other. -/
theorem toDay_day (year : Int) (month day : Nat) :
    (Date.mk year month day).toDay = (Date.mk year month 1).toDay + day - 1 := by
  rw [toDay_mk, toDay_mk]
  omega

/-- A month begins behind the last day of the one before. -/
theorem toDay_succ_month (hmonth : 1 ≤ month) (hlast : month ≤ 11) :
    (Date.mk year (month + 1) 1).toDay = (Date.mk year month 1).toDay + monthLength year month := by
  rw [toDay_mk, toDay_mk]
  by_cases hfebruary : month = 2
  · -- The last month of a year that begins in March.
    subst hfebruary
    have hstart := marchStart_succ (year - 1)
    rw [Int.sub_add_cancel] at hstart
    have hlength : monthLength year 2 = if isLeap year then 29 else 28 := rfl
    have hplaces : daysBefore ((2 + 1 + 9) % 12) = 0 ∧ daysBefore ((2 + 9) % 12) = 337 := by decide
    rw [if_neg (by decide), if_pos (by decide), hstart, hlength, hplaces.1, hplaces.2]
    split <;> omega
  · have hsame : (month + 1 ≤ 2) = (month ≤ 2) := by
      rw [eq_iff_iff]
      omega
    have hdays : daysBefore ((month + 1 + 9) % 12) = daysBefore ((month + 9) % 12) + monthLength year month := by
      interval_cases month <;> first | rfl | exact absurd rfl hfebruary
    rw [hdays]
    simp only [hsame]
    omega

/-- A year begins behind the last day of the one before. -/
theorem toDay_succ_year (year : Int) : (Date.mk (year + 1) 1 1).toDay = (Date.mk year 12 1).toDay + 31 := by
  have hplaces : daysBefore ((1 + 9) % 12) = 306 ∧ daysBefore ((12 + 9) % 12) = 275 := by decide
  rw [toDay_mk, toDay_mk, if_pos (by decide), if_neg (by decide), Int.add_sub_cancel, hplaces.1, hplaces.2]
  omega

/-! ### Places in a year that begins in March -/

/-- A place in a year, where the last one is there in leap years only. -/
def IsPlace (year : Int) (offset : Nat) : Prop := offset ≤ 364 ∨ offset = 365 ∧ isLeap (year + 1) = true

theorem IsPlace.le (h : IsPlace year offset) : offset ≤ 365 := by
  rcases h with h | h <;> omega

/-- The month of a place in a year, March being zero. -/
def marchMonth (offset : Nat) : Nat := (5 * offset + 2) / 153

/-- The date at a place in a year. -/
def dateAt (year : Int) (offset : Nat) : Date :=
  let place := marchMonth offset
  ⟨if monthAt place ≤ 2 then year + 1 else year, monthAt place, offset - daysBefore place + 1⟩

/-- The month of a place, and how far the place is in it. -/
theorem place_bounds (hoffset : offset ≤ 365) :
    marchMonth offset ≤ 11 ∧ daysBefore (marchMonth offset) ≤ offset ∧
      offset < daysBefore (marchMonth offset + 1) := by
  unfold daysBefore marchMonth
  omega

theorem monthAt_bounds (hplace : place ≤ 11) :
    1 ≤ monthAt place ∧ monthAt place ≤ 12 ∧ (monthAt place + 9) % 12 = place := by
  unfold monthAt
  split <;> omega

/-- A month at a place has all the days up to the next one. -/
theorem lt_monthLength (hplace : IsPlace year offset) :
    offset - daysBefore (marchMonth offset) <
      monthLength (dateAt year offset).year (dateAt year offset).month := by
  obtain ⟨hlast, hle, hlt⟩ := place_bounds hplace.le
  rcases Nat.lt_or_eq_of_le hlast with hearlier | hfebruary
  · rw [daysBefore_succ hearlier (dateAt year offset).year] at hlt
    show _ < monthLength _ (monthAt (marchMonth offset))
    omega
  · have hlength : monthLength (year + 1) 2 = if isLeap (year + 1) then 29 else 28 := rfl
    have hbefore : daysBefore 11 = 337 := by decide
    show _ < monthLength (if monthAt (marchMonth offset) ≤ 2 then year + 1 else year)
      (monthAt (marchMonth offset))
    rw [hfebruary, hbefore]
    show _ < monthLength (year + 1) 2
    rw [hlength]
    rcases hplace with h | ⟨h, hleap⟩
    · split <;> omega
    · rw [if_pos hleap]
      omega

/-- The day of the date at a place. -/
theorem toDay_dateAt (year : Int) (hoffset : offset ≤ 365) :
    (dateAt year offset).toDay = marchStart year + offset := by
  obtain ⟨hlast, hle, -⟩ := place_bounds hoffset
  obtain ⟨-, -, hback⟩ := monthAt_bounds hlast
  rw [dateAt, toDay_mk, hback]
  split
  · rw [Int.add_sub_cancel]
    omega
  · omega

/-! ### The date of a day -/

/-- A day of a cycle of four hundred years lies in one of its years. -/
theorem year_of_cycle {r : Nat} (hr : r < 146097) : ∃ centuries fours years ofYear : Nat,
    min 3 (r / 36524) = centuries ∧ (r - centuries * 36524) / 1461 = fours ∧
    min 3 ((r - centuries * 36524 - fours * 1461) / 365) = years ∧
    r - centuries * 36524 - fours * 1461 - years * 365 = ofYear ∧
    centuries ≤ 3 ∧ fours ≤ 24 ∧ years ≤ 3 ∧
    r = centuries * 36524 + fours * 1461 + years * 365 + ofYear ∧
    (ofYear ≤ 364 ∨ ofYear = 365 ∧ years = 3 ∧ (fours ≤ 23 ∨ centuries = 3)) := by
  refine ⟨_, _, _, _, rfl, rfl, rfl, rfl, ?_⟩
  generalize hcenturies : min 3 (r / 36524) = centuries
  generalize hofCentury : r - centuries * 36524 = ofCentury
  have hcentury : centuries ≤ 3 ∧ ofCentury + centuries * 36524 = r ∧
      (ofCentury ≤ 36523 ∨ centuries = 3 ∧ ofCentury = 36524) := by omega
  clear hcenturies hofCentury
  generalize hfours : ofCentury / 1461 = fours
  generalize hofFour : ofCentury - fours * 1461 = ofFour
  have hfour : fours ≤ 24 ∧ ofFour + fours * 1461 = ofCentury ∧
      (ofFour ≤ 1459 ∨ ofFour = 1460 ∧ (fours ≤ 23 ∨ centuries = 3)) := by omega
  clear hfours hofFour
  omega

/-- Every day is at a place in a year, and its date is the one there. -/
theorem exists_place (n : Int) : ∃ (year : Int) (offset : Nat), IsPlace year offset ∧
    n = marchStart year + offset ∧ Date.ofDay n = dateAt year offset := by
  have hcycle : (cycleDays : Int) = 146097 := rfl
  have hr : ((n - marchZero) % cycleDays).toNat < 146097 := by
    rw [hcycle]
    omega
  obtain ⟨centuries, fours, years, ofYear, hcenturies, hfours, hyears, hofYear, hc, hf, hy, hsum, hplace⟩ :=
    year_of_cycle hr
  refine ⟨(n - marchZero) / cycleDays * 400 + (centuries * 100 + fours * 4 + years : Nat), ofYear, ?_, ?_, ?_⟩
  · unfold IsPlace
    rw [isLeap_iff]
    omega
  · clear hcenturies hfours hyears hofYear
    have hn : n - marchZero = (n - marchZero) / cycleDays * 146097 + ((n - marchZero) % cycleDays).toNat := by
      rw [hcycle]
      omega
    generalize (n - marchZero) / cycleDays = cycles at hn
    have hquotients :
        (cycles * 400 + (centuries * 100 + fours * 4 + years : Nat)) / 4 = cycles * 100 + centuries * 25 + fours ∧
        (cycles * 400 + (centuries * 100 + fours * 4 + years : Nat)) / 100 = cycles * 4 + centuries ∧
        (cycles * 400 + (centuries * 100 + fours * 4 + years : Nat)) / 400 = cycles := by
      omega
    unfold marchStart
    omega
  · unfold Date.ofDay
    simp only [hcenturies, hfours, hyears, hofYear]
    rfl

/-- **The day of the date of a day is that day.** -/
theorem toDay_ofDay (n : Int) : (Date.ofDay n).toDay = n := by
  obtain ⟨year, offset, hplace, hn, hdate⟩ := exists_place n
  rw [hdate, toDay_dateAt year hplace.le, hn]

/-- The date of a day is one that there is. -/
theorem ofDay_bounds (n : Int) : 1 ≤ (Date.ofDay n).month ∧ (Date.ofDay n).month ≤ 12 ∧
    1 ≤ (Date.ofDay n).day ∧ (Date.ofDay n).day ≤ monthLength (Date.ofDay n).year (Date.ofDay n).month := by
  obtain ⟨year, offset, hplace, -, hdate⟩ := exists_place n
  obtain ⟨hfirst, hlast, -⟩ := monthAt_bounds (place_bounds hplace.le).1
  rw [hdate]
  exact ⟨hfirst, hlast, Nat.le_add_left 1 _, lt_monthLength hplace⟩

/-! ### Years that can be told -/

/-- The first of January of a later year is no earlier day. -/
theorem newYear_mono {a b : Int} (h : a ≤ b) : (Date.mk a 1 1).toDay ≤ (Date.mk b 1 1).toDay := by
  rw [toDay_mk, toDay_mk, if_pos (by decide), if_pos (by decide)]
  have hstart := marchStart_mono (a := a - 1) (b := b - 1) (by omega)
  omega

/-- A day lies between the first days of its year and of the next. -/
theorem newYear_bounds (n : Int) :
    (Date.mk (Date.ofDay n).year 1 1).toDay ≤ n ∧ n < (Date.mk ((Date.ofDay n).year + 1) 1 1).toDay := by
  obtain ⟨year, offset, hplace, hn, hdate⟩ := exists_place n
  have hleap := marchStart_succ year
  have hlast := hplace.le
  have hplaces : daysBefore ((1 + 9) % 12) = 306 := by decide
  have hmonth : monthAt (marchMonth offset) ≤ 2 ↔ 306 ≤ offset := by
    unfold monthAt marchMonth
    split <;> omega
  rw [hdate, toDay_mk, toDay_mk, if_pos (by decide), if_pos (by decide), Int.add_sub_cancel, hplaces]
  show marchStart ((if monthAt (marchMonth offset) ≤ 2 then year + 1 else year) - 1) + _ + _ - _ ≤ n ∧
    n < marchStart (if monthAt (marchMonth offset) ≤ 2 then year + 1 else year) + _ + _ - _
  split
  · rw [Int.add_sub_cancel]
    rcases hplace with h | ⟨h, hnext⟩
    · split at hleap <;> omega
    · rw [if_pos hnext] at hleap
      omega
  · have hbefore := marchStart_succ (year - 1)
    rw [Int.sub_add_cancel] at hbefore
    split at hbefore <;> omega

/-- **The days whose year can be told are those of the years that can.** -/
theorem isDay_iff (n : Int) : isDay n = true ↔ isYear (Date.ofDay n).year = true := by
  obtain ⟨hfrom, hto⟩ := newYear_bounds n
  have hday : isDay n = true ↔ (Date.mk firstYear 1 1).toDay ≤ n ∧ n < (Date.mk (lastYear + 1) 1 1).toDay := by
    have hlast : (Date.mk (lastYear + 1) 1 1).toDay = (Date.mk lastYear 12 31).toDay + 1 := by decide
    unfold isDay
    rw [hlast, Bool.and_eq_true, decide_eq_true_iff, decide_eq_true_iff, Int.lt_add_one_iff]
  have hyear : isYear (Date.ofDay n).year = true ↔
      firstYear ≤ (Date.ofDay n).year ∧ (Date.ofDay n).year ≤ lastYear := by
    rw [isYear, Bool.and_eq_true, decide_eq_true_iff, decide_eq_true_iff]
  rw [hday, hyear]
  constructor
  · rintro ⟨hge, hlt⟩
    constructor
    · by_contra hearly
      have := newYear_mono (a := (Date.ofDay n).year + 1) (b := firstYear) (by omega)
      omega
    · by_contra hlate
      have := newYear_mono (a := lastYear + 1) (b := (Date.ofDay n).year) (by omega)
      omega
  · rintro ⟨hge, hle⟩
    have hlow := newYear_mono hge
    have hhigh := newYear_mono (a := (Date.ofDay n).year + 1) (b := lastYear + 1) (by omega)
    omega

end Calendar

end Stepwise
