/-
Times and their parts.

The parts of a time are told from its day and from what is left of the day, and `compose` counts them
together again (`compose_parts`).  What it counts is one sum, `instant`, for parts in their range and out
of it.  Doubles round no product and no sum of it below `2 ^ 53` (`Exact`), and the year takes over the
months that are beyond it, or that it lacks.  So whole years may be counted among the months
(`instant_shift`), and the day before the first one is the last day of the month before
(`instant_dayBefore`).

One step may round what it should not.  The months are divided by twelve as doubles are.  The year that
is taken over is right for every double up to `Whole.twelfthBound`; the next one is taken for a year more
(`month_beyond_bound`).
-/
import Stepwise.Proofs.Days
import Stepwise.Proofs.Roundings

namespace Stepwise

namespace Calendar

/-! ### What is counted -/

/-- The first of a month, months counted from zero, at midnight. -/
def monthStart (year month : Int) : Int := (Date.mk year ((month % 12).toNat + 1) 1).toDay * msPerDay

/-- The time that parts stand for, the year being the one that the months are taken over into. -/
def instant (year : Int) (ps : Parts Int) : Int :=
  monthStart year ps.month + (ps.day - 1) * msPerDay + ps.hours * msPerHour + ps.minutes * msPerMinute +
    ps.seconds * msPerSecond + ps.milliseconds

/-- The products of `instant`, and its sums on the way. -/
def steps (year : Int) (ps : Parts Int) : List Int :=
  let days := (ps.day - 1) * msPerDay
  let hours := ps.hours * msPerHour
  let minutes := ps.minutes * msPerMinute
  let seconds := ps.seconds * msPerSecond
  let start := monthStart year ps.month
  [days, hours, minutes, seconds, start + days, start + days + hours, start + days + hours + minutes,
    start + days + hours + minutes + seconds]

/-- The year can be told, nothing on the way is too large for a double, and the time is within the bound. -/
structure Exact (year : Int) (ps : Parts Int) : Prop where
  told : isYear year = true
  small : ∀ i ∈ steps year ps, i.natAbs < 2 ^ 53
  bound : (instant year ps).natAbs ≤ maxTime

/-- The year that the months are taken over into, as it should be. -/
def carriedYear (ps : Parts Int) : Int := ps.year + ps.month / 12

/-- The year that the months are taken over into, their quotient being a double before it is cut. -/
def roundedYear (ps : Parts Int) : Int := ps.year + Whole.floorQuotient ps.month 12

variable {ps : Parts Int} {fs : Parts Float} {year t : Int}

theorem msPer_eq : msPerDay = 86400000 ∧ msPerHour = 3600000 ∧ msPerMinute = 60000 ∧ msPerSecond = 1000 := by
  decide

/-- A time within the bound is a whole number that doubles do not round. -/
theorem lt_of_le_maxTime (h : t.natAbs ≤ maxTime) : t.natAbs < 2 ^ 53 := by
  unfold maxTime at h
  omega

theorem isYear_iff : isYear year = true ↔ -262143 ≤ year ∧ year ≤ 262142 := by
  rw [isYear, Bool.and_eq_true, decide_eq_true_iff, decide_eq_true_iff]
  rfl

/-- **What doubles round nothing of is the time.** -/
theorem compose?_of_exact (h : Exact (roundedYear ps) ps) : compose? ps = some (instant (roundedYear ps) ps) := by
  have hyear := isYear_iff.mp h.told
  have htime := lt_of_le_maxTime h.bound
  obtain ⟨hdays, hhours, hminutes, hseconds, hsum₁, hsum₂, hsum₃, hsum₄⟩ :
      ((ps.day - 1) * msPerDay).natAbs < 2 ^ 53 ∧ _ ∧ _ ∧ _ ∧ _ ∧ _ ∧ _ ∧ _ := by
    simpa only [steps, List.forall_mem_cons, List.not_mem_nil, false_implies, implies_true, and_true] using h.small
  have hday : (ps.day - 1).natAbs < 2 ^ 53 := by
    rw [msPer_eq.1] at hdays
    omega
  have hcarry : Whole.round? (ps.year + Whole.floorQuotient ps.month 12) = some (roundedYear ps) :=
    Whole.round?_eq (show (roundedYear ps).natAbs < 2 ^ 53 by omega)
  have hstart : (Date.mk (roundedYear ps) ((ps.month % 12).toNat + 1) 1).toDay * msPerDay =
      monthStart (roundedYear ps) ps.month := rfl
  have hsum := Whole.round?_eq htime
  have hclip : clip? (instant (roundedYear ps) ps) = some (instant (roundedYear ps) ps) := if_pos h.bound
  unfold instant at hsum hclip ⊢
  unfold compose? Whole.add? Whole.mul?
  simp only [Option.bind_eq_bind, hcarry, Option.bind_some, h.told, Bool.not_true, Bool.false_eq_true, if_false]
  simp only [← Int.sub_eq_add_neg, hstart, Option.bind_some, Whole.round?_eq hday, Whole.round?_eq hdays,
    Whole.round?_eq hhours, Whole.round?_eq hminutes, Whole.round?_eq hseconds, Whole.round?_eq hsum₁,
    Whole.round?_eq hsum₂, Whole.round?_eq hsum₃, Whole.round?_eq hsum₄, hsum, hclip]

/-- Parts in doubles are composed as the whole numbers that they are cut to. -/
theorem compose_of_exact (hcut : fs.mapM? Double.toInt? = some ps) (h : Exact (roundedYear ps) ps) :
    compose fs = Double.ofInt (instant (roundedYear ps) ps) := by
  rw [compose, hcut, Option.bind_some, compose?_of_exact h]
  rfl

/-- Parts are all there by a function where each one is. -/
theorem mapM?_eq_some_iff {α β : Type} {f : α → Option β} {xs : Parts α} {ys : Parts β} :
    xs.mapM? f = some ys ↔ ∀ part, f (xs.get part) = some (ys.get part) := by
  constructor
  · intro h
    simp only [Parts.mapM?, Option.bind_eq_bind, Option.bind_eq_some_iff, Option.pure_def, Option.some.injEq] at h
    obtain ⟨year, hyear, month, hmonth, day, hday, hours, hhours, minutes, hminutes, seconds, hseconds,
      milliseconds, hmilliseconds, rfl⟩ := h
    intro part
    cases part <;> assumption
  · intro h
    have hyear : f xs.year = some ys.year := h .year
    have hmonth : f xs.month = some ys.month := h .month
    have hday : f xs.day = some ys.day := h .day
    have hhours : f xs.hours = some ys.hours := h .hours
    have hminutes : f xs.minutes = some ys.minutes := h .minutes
    have hseconds : f xs.seconds = some ys.seconds := h .seconds
    have hmilliseconds : f xs.milliseconds = some ys.milliseconds := h .milliseconds
    rw [Parts.mapM?, hyear, hmonth, hday, hhours, hminutes, hseconds, hmilliseconds]
    rfl

theorem get_map {α β : Type} (f : α → β) (xs : Parts α) (part : DatePart) :
    (xs.map f).get part = f (xs.get part) := by
  cases part <;> rfl

/-- Parts that doubles hold are those that their doubles are cut to. -/
theorem mapM?_ofInt (h : ∀ part, (ps.get part).natAbs < 2 ^ 53) :
    (ps.map Double.ofInt).mapM? Double.toInt? = some ps := by
  rw [mapM?_eq_some_iff]
  intro part
  rw [get_map, Double.toInt?_ofInt (h part)]

/-- The months of parts in doubles are taken over into the year as they should be, up to the bound. -/
theorem roundedYear_eq (hcut : fs.mapM? Double.toInt? = some ps) (hmonth : ps.month.natAbs ≤ Whole.twelfthBound) :
    roundedYear ps = carriedYear ps := by
  have hheld : Whole.IsHeld ps.month.natAbs := Double.isHeld_of_toInt? (mapM?_eq_some_iff.mp hcut .month)
  rw [roundedYear, Whole.floorQuotient_twelve hheld hmonth, carriedYear]

/-! ### Times and their parts -/

/-- Parts that are in their range. -/
structure Parts.Proper (ps : Parts Int) : Prop where
  year : isYear ps.year = true
  month : 0 ≤ ps.month ∧ ps.month < 12
  day : 1 ≤ ps.day ∧ ps.day ≤ monthLength ps.year (ps.month.toNat + 1)
  hours : 0 ≤ ps.hours ∧ ps.hours < 24
  minutes : 0 ≤ ps.minutes ∧ ps.minutes < 60
  seconds : 0 ≤ ps.seconds ∧ ps.seconds < 60
  milliseconds : 0 ≤ ps.milliseconds ∧ ps.milliseconds < 1000

/-- Nothing is taken over from parts in their range. -/
theorem Parts.Proper.carriedYear_eq (h : ps.Proper) : carriedYear ps = ps.year := by
  have hmonth := h.month
  unfold carriedYear
  omega

/-- The time is told by its parts. -/
theorem exists_parts (hyear : isYear (Date.ofDay (t / msPerDay)).year = true) :
    ∃ ps, parts? t = some ps ∧ ps.Proper ∧ instant ps.year ps = t := by
  obtain ⟨hmonth, hlast, hday, hlength⟩ := ofDay_bounds (t / msPerDay)
  have hback := toDay_ofDay (t / msPerDay)
  rw [parts?]
  dsimp only
  rw [if_pos ((isDay_iff _).mpr hyear)]
  generalize Date.ofDay (t / msPerDay) = date at hmonth hlast hday hlength hback hyear
  obtain ⟨hmsDay, hmsHour, hmsMinute, hmsSecond⟩ := msPer_eq
  rw [hmsDay] at hback
  rw [hmsDay, hmsHour, hmsMinute, hmsSecond]
  refine ⟨_, rfl, ⟨hyear, ?_, ?_, ?_, ?_, ?_, ?_⟩, ?_⟩
  case refine_2 =>
    show 1 ≤ (date.day : Int) ∧ (date.day : Int) ≤ monthLength date.year (((date.month : Int) - 1).toNat + 1)
    rw [show ((date.month : Int) - 1).toNat + 1 = date.month by omega]
    omega
  case refine_7 =>
    have hfirst : monthStart date.year ((date.month : Int) - 1) =
        (Date.mk date.year date.month 1).toDay * 86400000 := by
      rw [monthStart, show (((date.month : Int) - 1) % 12).toNat + 1 = date.month by omega, hmsDay]
    have hdate : (Date.mk date.year date.month 1).toDay + date.day - 1 = t / 86400000 := by
      rw [← toDay_day, ← hback]
    rw [instant, hfirst, hmsDay, hmsHour, hmsMinute, hmsSecond]
    dsimp only
    omega
  all_goals
    dsimp only
    omega

theorem monthLength_le (year : Int) (month : Nat) : monthLength year month ≤ 31 := by
  unfold monthLength
  split_ifs <;> decide

/-- A month of a year that can be told begins at a time that a double holds. -/
theorem monthStart_lt (hyear : isYear year = true) (months : Int) :
    (monthStart year months).natAbs < 8400000000000000 := by
  obtain ⟨hfirst, hlast⟩ := isYear_iff.mp hyear
  have hdays : daysBefore (((months % 12).toNat + 1 + 9) % 12) ≤ 337 := by
    unfold daysBefore
    omega
  have hmarch : (marchStart (if (months % 12).toNat + 1 ≤ 2 then year - 1 else year)).natAbs ≤ 97000000 := by
    unfold marchStart
    rw [show marchZero = -719468 from rfl]
    split <;> omega
  rw [monthStart, toDay_mk, msPer_eq.1]
  omega

/-- Parts in their range are counted without rounding. -/
theorem Parts.Proper.exact (h : ps.Proper) (hbound : (instant ps.year ps).natAbs ≤ maxTime) : Exact ps.year ps := by
  refine ⟨h.year, ?_, hbound⟩
  have hstart := monthStart_lt h.year ps.month
  have hday := h.day
  have hlength := monthLength_le ps.year (ps.month.toNat + 1)
  have hhours := h.hours
  have hminutes := h.minutes
  have hseconds := h.seconds
  obtain ⟨hmsDay, hmsHour, hmsMinute, hmsSecond⟩ := msPer_eq
  unfold steps
  rw [hmsDay, hmsHour, hmsMinute, hmsSecond]
  simp only [List.forall_mem_cons, List.not_mem_nil, false_implies, implies_true, and_true]
  omega

/-- No part in its range has more than six digits. -/
theorem Parts.Proper.natAbs_get (h : ps.Proper) (part : DatePart) : (ps.get part).natAbs < 1000000 := by
  have hlength := monthLength_le ps.year (ps.month.toNat + 1)
  obtain ⟨hyear, hmonth, hday, hhours, hminutes, hseconds, hmilliseconds⟩ := h
  rw [isYear_iff] at hyear
  cases part <;> simp only [Parts.get] <;> omega

/-- **The parts of a time whose year can be told are composed to that time.** -/
theorem compose_parts (hbound : t.natAbs ≤ maxTime) (hyear : isYear (Date.ofDay (t / msPerDay)).year = true) :
    ∃ ps, partsOf? (Double.ofInt t) = some ps ∧ ps.Proper ∧ compose (ps.map Double.ofInt) = Double.ofInt t := by
  obtain ⟨ps, hparts, hproper, hinstant⟩ := exists_parts hyear
  have hcut := Double.toInt?_ofInt (lt_of_le_maxTime hbound)
  have hmonth := hproper.month
  have hdoubles := mapM?_ofInt fun part => Nat.lt_trans (hproper.natAbs_get part) (by decide)
  have hrounded : roundedYear ps = ps.year := by
    rw [roundedYear_eq hdoubles (by unfold Whole.twelfthBound; omega), hproper.carriedYear_eq]
  have hexact : Exact ps.year ps := hproper.exact (by rw [hinstant]; exact hbound)
  refine ⟨ps, ?_, hproper, ?_⟩
  · rw [partsOf?, hcut, Option.bind_some, hparts]
  · rw [compose_of_exact hdoubles (by rw [hrounded]; exact hexact), hrounded, hinstant]

/-! ### Parts out of their range -/

/-- A month begins behind the last day of the one before, also where the year changes. -/
theorem monthStart_succ (year month : Int) : monthStart (year + (month + 1) / 12) (month + 1) =
    monthStart (year + month / 12) month + monthLength (year + month / 12) ((month % 12).toNat + 1) * msPerDay := by
  unfold monthStart
  rw [← Int.add_mul]
  congr 1
  by_cases hlast : month % 12 = 11
  · have hyear : year + (month + 1) / 12 = year + month / 12 + 1 := by omega
    have hmonth : ((month + 1) % 12).toNat + 1 = 1 := by omega
    rw [hyear, hmonth, hlast, toDay_succ_year]
    rfl
  · have hyear : year + (month + 1) / 12 = year + month / 12 := by omega
    have hmonth : ((month + 1) % 12).toNat + 1 = (month % 12).toNat + 1 + 1 := by omega
    rw [hyear, hmonth, toDay_succ_month (by omega) (by omega)]

/-- The count begins with the first of January 1970. -/
theorem monthStart_epoch : monthStart 1970 0 = 0 := by decide

/-- Parts with whole years taken from the year and counted among the months. -/
def Parts.shift (ps : Parts Int) (years : Int) : Parts Int :=
  { ps with year := ps.year - years, month := ps.month + 12 * years }

/-- Parts with the last day of the month before. -/
def Parts.dayBefore (ps : Parts Int) : Parts Int :=
  { ps with
    month := ps.month - 1
    day := monthLength (ps.year + (ps.month - 1) / 12) (((ps.month - 1) % 12).toNat + 1) }

theorem instant_shift (ps : Parts Int) (years : Int) :
    instant (carriedYear (ps.shift years)) (ps.shift years) = instant (carriedYear ps) ps := by
  have hyear : carriedYear (ps.shift years) = carriedYear ps := by
    show ps.year - years + (ps.month + 12 * years) / 12 = ps.year + ps.month / 12
    omega
  have hstart (year : Int) : monthStart year (ps.month + 12 * years) = monthStart year ps.month := by
    rw [monthStart, Int.add_mul_emod_self_left, monthStart]
  rw [hyear]
  show monthStart _ (ps.month + 12 * years) + _ + _ + _ + _ + _ = _
  rw [hstart]
  rfl

theorem instant_dayBefore (ps : Parts Int) (hday : ps.day = 0) :
    instant (carriedYear ps.dayBefore) ps.dayBefore = instant (carriedYear ps) ps := by
  have hmonth := monthStart_succ ps.year (ps.month - 1)
  rw [Int.sub_add_cancel] at hmonth
  show monthStart (ps.year + (ps.month - 1) / 12) (ps.month - 1) + (((monthLength _ _ : Nat) : Int) - 1) * msPerDay +
    ps.hours * msPerHour + ps.minutes * msPerMinute + ps.seconds * msPerSecond + ps.milliseconds =
    monthStart (ps.year + ps.month / 12) ps.month + (ps.day - 1) * msPerDay + _ + _ + _ + _
  rw [hmonth, hday, Int.sub_mul, Int.sub_mul]
  omega

/-- Doubles that are cut to parts which are counted as they should be. -/
structure Counted (fs : Parts Float) (ps : Parts Int) : Prop where
  cut : fs.mapM? Double.toInt? = some ps
  month : ps.month.natAbs ≤ Whole.twelfthBound
  exact : Exact (carriedYear ps) ps

theorem Counted.compose_eq (h : Counted fs ps) : compose fs = Double.ofInt (instant (carriedYear ps) ps) := by
  have hyear := roundedYear_eq h.cut h.month
  rw [compose_of_exact h.cut (hyear ▸ h.exact), hyear]

/-- **Times are taken apart and composed.**  The parts of a time whose year can be told are in their range and
are composed to that time.  Parts in doubles, in their range or not, are composed to the midnight that their
month begins with and what the days, the hours and the rest add to it or take from it.  The year is the right
one up to the bound of months; beyond it, their quotient is rounded before it is cut.  The midnights are those
of the calendar, which go on from the epoch by the lengths of the months. -/
theorem times_are_composed :
    (∀ t : Int, t.natAbs ≤ maxTime → isYear (Date.ofDay (t / msPerDay)).year = true →
      ∃ ps, partsOf? (Double.ofInt t) = some ps ∧ ps.Proper ∧ compose (ps.map Double.ofInt) = Double.ofInt t) ∧
    (∀ fs ps, Counted fs ps → compose fs = Double.ofInt (instant (carriedYear ps) ps)) ∧
    (∀ fs ps, fs.mapM? Double.toInt? = some ps → Exact (roundedYear ps) ps →
      compose fs = Double.ofInt (instant (roundedYear ps) ps)) ∧
    (∀ fs fs' ps years, Counted fs ps → Counted fs' (ps.shift years) → compose fs' = compose fs) ∧
    (∀ fs fs' ps, ps.day = 0 → Counted fs ps → Counted fs' ps.dayBefore → compose fs' = compose fs) ∧
    monthStart 1970 0 = 0 ∧
    ∀ year month : Int, monthStart (year + (month + 1) / 12) (month + 1) =
      monthStart (year + month / 12) month + monthLength (year + month / 12) ((month % 12).toNat + 1) * msPerDay := by
  refine ⟨fun t => compose_parts, fun fs ps => Counted.compose_eq, fun fs ps => compose_of_exact, ?_, ?_,
    monthStart_epoch, monthStart_succ⟩
  · intro fs fs' ps years h h'
    rw [h.compose_eq, h'.compose_eq, instant_shift]
  · intro fs fs' ps hday h h'
    rw [h.compose_eq, h'.compose_eq, instant_dayBefore ps hday]

/-- Some time of day, on a day that its month does not have, in a month that its year does not have. -/
theorem times_are_composed_out_of_range :
    (∃ ps, partsOf? (Double.ofInt (-1)) = some ps ∧ ps.Proper ∧ compose (ps.map Double.ofInt) = Double.ofInt (-1)) ∧
    compose ((Parts.mk 2001 (-10) 30 25 (-1) 61 0).map Double.ofInt) = Double.ofInt 954464401000 := by
  refine ⟨times_are_composed.1 (-1) (by decide) (by decide), ?_⟩
  have hcounted : Counted ((Parts.mk 2001 (-10) 30 25 (-1) 61 0).map Double.ofInt)
      (Parts.mk 2001 (-10) 30 25 (-1) 61 0) :=
    ⟨mapM?_ofInt fun part => by cases part <;> decide, by decide, by decide, by decide, by decide⟩
  have htime : instant (carriedYear (Parts.mk 2001 (-10) 30 25 (-1) 61 0))
      (Parts.mk 2001 (-10) 30 25 (-1) 61 0) = 954464401000 := by decide
  rw [times_are_composed.2.1 _ _ hcounted, htime]

/-- The parts of the first of September 1999, with years counted among the months as far as the first double
beyond the bound. -/
def partsBeyond : Parts Int := ⟨-4503599627368497, Whole.twelfthBound + 8, 1, 0, 0, 0, 0⟩

/-- The same parts in doubles. -/
def doublesBeyond : Parts Float := { partsBeyond.map Double.ofInt with month := Float.ofBits 0x4368000000000001 }

/-- The quotient of the first double beyond the bound is rounded up, and the time is a year late. -/
theorem month_beyond_bound : doublesBeyond.mapM? Double.toInt? = some partsBeyond ∧
    Exact (carriedYear partsBeyond) partsBeyond ∧
    compose doublesBeyond ≠ Double.ofInt (instant (carriedYear partsBeyond) partsBeyond) := by
  have hcut : doublesBeyond.mapM? Double.toInt? = some partsBeyond := by
    refine mapM?_eq_some_iff.mpr fun part => ?_
    cases part with
    | month => decide
    | year => exact Double.toInt?_ofInt (i := partsBeyond.year) (by decide)
    | day => exact Double.toInt?_ofInt (i := 1) (by decide)
    | _ => exact Double.toInt?_ofInt (i := 0) (by decide)
  have hcompose := compose_of_exact hcut ⟨by decide, by decide, by decide⟩
  refine ⟨hcut, ⟨by decide, by decide, by decide⟩, fun heq => ?_⟩
  have hsame := congrArg Double.toInt? (hcompose.symm.trans heq)
  rw [Double.toInt?_ofInt (by decide), Double.toInt?_ofInt (by decide)] at hsame
  exact absurd hsame (by decide)

end Calendar

end Stepwise
