/-
Dates that are valid.

A date holds a number that was cut, which is no number or a time within the bound (`clip_cases`), so it is
valid just if it holds a time.  What a method tells of it is told from the parts of the time, and there are
parts just for the years that the calendar has.  The bound reaches some thirteen thousand years further
than they do, into the past and into the future.

So there are valid dates of two sorts.  Where the year can be told, a date answers whatever it is asked, and
a setter returns what the date then holds (`Usable`).  Where it cannot, the date holds its time and answers
as an invalid one does (`Lost`).
-/
import Stepwise.Proofs.Compositions
import Stepwise.Proofs.Receivers

namespace Stepwise

open Float.Model (UnpackedFloat)

/-! ### Numbers within the bound -/

namespace Double

variable {x : Float} {negative : Bool} {m : Dyadic} {i : Int}

/-- The double of a whole number is a number. -/
theorem isNaN_ofInt (h : i.natAbs < 2 ^ 53) : (ofInt i).isNaN = false := by
  obtain ⟨m, hparts, -⟩ := exists_parts_ofWhole h (decide (i < 0))
  have hfinite : parts (ofInt i) = .finite (decide (i < 0)) m := hparts
  rw [parts_eq] at hfinite
  show (ofInt i).toModel.unpack.isNaN = false
  cases hunpacked : (ofInt i).toModel.unpack with
  | notANumber =>
      rw [hunpacked] at hfinite
      cases hfinite
  | _ => rfl

theorem le_iff (x y : Float) : x ≤ y ↔ (order? x y).any Ordering.isLE = true := by
  show decide ((order? x y).any Ordering.isLE = true) = true ↔ _
  rw [decide_eq_true_iff]

theorem isNegative_of_parts (h : parts x = .finite negative m) : isNegative x = negative := by
  unfold parts at h
  dsimp only at h
  split at h
  · split at h <;> cases h
  · split at h <;> cases h <;> rfl

/-- The magnitude of a number with its first digit in place. -/
theorem unpack_abs {k : Nat} {e : Int} {s : UnpackedFloat.Sign} (hfits : Fits k e)
    (h : x.toModel.unpack = .finite s k e hfits.pos) : (abs x).toModel.unpack = .finite .positive k e hfits.pos := by
  have hparts : parts x = .finite (isMinus s) ⟨k, e⟩ := by
    rw [parts_eq, h]
    rfl
  unfold abs
  rw [isNegative_of_parts hparts]
  cases s with
  | positive => exact h
  | negative =>
      show (Float.Model.pack x.toModel.unpack.neg).unpack = _
      rw [h]
      exact unpack_pack hfits .positive

/-- A number with its first digit in place is compared with the bound of times by that place first. -/
theorem abs_le_iff {k : Nat} {e : Int} {s : UnpackedFloat.Sign} (hfits : Fits k e)
    (h : x.toModel.unpack = .finite s k e hfits.pos) :
    abs x ≤ ofInt Calendar.maxTime ↔ e < 0 ∨ e = 0 ∧ k ≤ 8640000000000000 := by
  have hbound : (ofInt Calendar.maxTime).toModel.unpack = .finite .positive 8640000000000000 0 (by decide) := by rfl
  rw [le_iff, order?, unpack_abs hfits h, hbound]
  show ((compare e 0).then (compare k 8640000000000000)).isLE = true ↔ _
  rw [Ordering.isLE_then_iff_or, Int.compare_eq_lt, Int.compare_eq_eq, Nat.isLE_compare]

/-- **A time within the bound is not cut.** -/
theorem clip_ofInt {t : Int} (h : t.natAbs ≤ Calendar.maxTime) : Calendar.clip (ofInt t) = ofInt t := by
  have hsmall := Calendar.lt_of_le_maxTime h
  have hle : abs (ofInt t) ≤ ofInt Calendar.maxTime := by
    rcases Nat.eq_zero_or_pos t.natAbs with hzero | hpos
    · rw [Int.natAbs_eq_zero.mp hzero]
      decide
    · obtain ⟨s, -, hpack⟩ := ofWhole_eq_pack hpos hsmall (decide (t < 0))
      have hfits := fits_of_whole hpos hsmall
      have hunpack : (ofInt t).toModel.unpack = .finite s (t.natAbs * 2 ^ room t.natAbs) (-room t.natAbs) hfits.pos := by
        rw [show ofInt t = _ from hpack]
        exact unpack_pack hfits s
      rw [abs_le_iff hfits hunpack]
      unfold Calendar.maxTime at h
      by_cases hfull : room t.natAbs = 0
      · rw [hfull, Nat.pow_zero, Nat.mul_one]
        omega
      · omega
  rw [Calendar.clip, if_pos hle, toInt?_ofInt hsmall]
  rfl

/-- What stands behind the parts of a double with its first digit in place. -/
theorem exists_unpack (h : parts x = .finite negative m) (hfits : Fits m.significand m.exponent) :
    ∃ s, x.toModel.unpack = .finite s m.significand m.exponent hfits.pos := by
  have hpos := hfits.pos
  rw [parts_eq] at h
  cases hunpack : x.toModel.unpack with
  | finite s k e hk =>
      rw [hunpack] at h
      cases h
      exact ⟨s, rfl⟩
  | zero s =>
      rw [hunpack] at h
      cases h
      exact absurd hpos (Nat.lt_irrefl 0)
  | _ =>
      rw [hunpack] at h
      cases h

/-- A number whose magnitude is within the bound of times has its whole part there. -/
theorem natAbs_le_of_abs_le {t : Int} (hcut : toInt? x = some t) (hle : abs x ≤ ofInt Calendar.maxTime) :
    t.natAbs ≤ Calendar.maxTime := by
  obtain ⟨negative, m, hparts, hsame⟩ := exists_parts_of_toInt? hcut
  have hlt := significand_lt hparts
  rw [hsame]
  unfold Calendar.maxTime
  by_cases hexponent : 0 ≤ m.exponent
  · have hfits := fits_of_exponent hparts hexponent
    obtain ⟨s, hunpack⟩ := exists_unpack hparts hfits
    obtain ⟨hzero, hbound⟩ := ((abs_le_iff hfits hunpack).mp hle).resolve_left (by omega)
    rw [Dyadic.floor_of_nonneg hexponent, hzero]
    show ((m.significand * 1 : Nat) : Int) ≤ _
    omega
  · -- A digit behind the point is one less before it.
    have hhalf : m.significand / 2 ^ (-m.exponent).toNat ≤ m.significand / 2 ^ 1 :=
      Nat.div_le_div_left (Nat.pow_le_pow_right (by decide) (by omega)) (by decide)
    rw [Dyadic.floor_of_nonpos (by omega)]
    omega

/-- **What is cut is no number, or a time within the bound.** -/
theorem clip_cases (x : Float) :
    Calendar.clip x = nan ∨ ∃ t : Int, t.natAbs ≤ Calendar.maxTime ∧ Calendar.clip x = ofInt t := by
  unfold Calendar.clip
  split
  · rename_i hle
    cases hcut : toInt? x with
    | none => exact .inl rfl
    | some t => exact .inr ⟨t, natAbs_le_of_abs_le hcut hle, rfl⟩
  · exact .inl rfl

end Double

/-! ### Texts of times -/

namespace Calendar

/-- A text that ends otherwise than what is said of an invalid date. -/
def EndsApart (text : String) : Prop := ∃ c, text.toList.getLast? = some c ∧ c ≠ 'e'

theorem EndsApart.append {b : String} (h : EndsApart b) (a : String) : EndsApart (a ++ b) := by
  obtain ⟨c, hlast, hne⟩ := h
  refine ⟨c, ?_, hne⟩
  rw [String.toList_append, List.getLast?_append, hlast, Option.some_or]

theorem EndsApart.ne {text : String} (h : EndsApart text) : text ≠ "Invalid Date" := by
  rintro rfl
  obtain ⟨c, hlast, hne⟩ := h
  have he : "Invalid Date".toList.getLast? = some 'e' := by decide
  exact hne (Option.some.inj (hlast.symm.trans he))

/-- A count ends with a digit. -/
theorem endsApart_toString (n : Nat) : EndsApart (toString n) := by
  have hdigits : (toString n).toList = Nat.toDigits 10 n := Nat.toList_repr
  rw [EndsApart, hdigits]
  cases hlast : (Nat.toDigits 10 n).getLast? with
  | none => exact absurd (List.getLast?_eq_none_iff.mp hlast) Nat.toDigits_ne_nil
  | some c =>
      refine ⟨c, rfl, ?_⟩
      rintro rfl
      have hdigit := Nat.isDigit_of_mem_toDigits (by decide) (by decide) (List.mem_of_getLast? hlast)
      exact absurd hdigit (by decide)

theorem endsApart_padded (width n : Nat) : EndsApart (padded width n) := (endsApart_toString n).append _

theorem endsApart_yearText (year : Int) : EndsApart (yearText year) := by
  unfold yearText
  split
  · exact endsApart_padded 4 _
  · exact (endsApart_padded 4 _).append _

/-- **No written form of a time is what is said of an invalid date.** -/
theorem endsApart_text (form : DateForm) (time : Int) (ps : Parts Int) : EndsApart (text form time ps) := by
  have hday : EndsApart " AM" ∧ EndsApart " PM" := ⟨⟨'M', by decide⟩, ⟨'M', by decide⟩⟩
  cases form with
  | full => exact EndsApart.append ⟨')', by decide⟩ _
  | date => exact (endsApart_yearText _).append _
  | time => exact EndsApart.append ⟨')', by decide⟩ _
  | iso => exact EndsApart.append ⟨'Z', by decide⟩ _
  | utc => exact EndsApart.append ⟨'T', by decide⟩ _
  | locale =>
      refine EndsApart.append ?_ _
      refine EndsApart.append ?_ _
      split
      · exact hday.1
      · exact hday.2
  | localeDate => exact (endsApart_yearText _).append _
  | localeTime =>
      refine EndsApart.append ?_ _
      split
      · exact hday.1
      · exact hday.2

end Calendar

/-! ### Methods of dates -/

namespace DateMethod

/-- Does the method tell a number? -/
def isGetter : DateMethod → Bool
  | .getTime | .getTimezoneOffset | .getPart _ | .getWeekday | .getYear => true
  | .setTime | .setParts _ _ | .toText _ => false

def isSetter : DateMethod → Bool
  | .setTime | .setParts _ _ => true
  | .getTime | .getTimezoneOffset | .getPart _ | .getWeekday | .getYear | .toText _ => false

end DateMethod

namespace Dates

variable {s : Heap} {id : ObjectId} {t : Int} {v : Value} {time : Float} {args : List Value}

/-- What a method does with the number that a date holds. -/
theorem method_of_held (h : held s v = .ok time) (m : DateMethod) (args : List Value) :
    method m v args s =
      match m with
      | .getTime => (.ok (.number time), s)
      | .getTimezoneOffset => (.ok (reading time fun _ => 0), s)
      | .getPart part => (.ok (reading time fun ps => ps.get part), s)
      | .getWeekday => (.ok (weekday time), s)
      | .getYear => (.ok (reading time fun ps => ps.year - shortYearBase), s)
      | .toText form => (writing form time, s)
      | .setTime => setTime v (s.numberArgument args 0) s
      | .setParts first count =>
        match withParts s time first count args with
        | some time' => setTime v time' s
        | none => (.ok (.number Double.nan), s) := by
  have hquery : (Edit.query fun s => held s v) s = (.ok time, s) := by rw [Edit.query, h]
  cases m with
  | setParts first count =>
      have hparts : (Edit.query fun s => return withParts s (← held s v) first count args) s =
          (.ok (withParts s time first count args), s) := by
        rw [Edit.query, h]
        rfl
      show (Edit.query _ >>= _ : Edit Value) s = _
      rw [bind_of_ok hparts]
      dsimp only
      generalize withParts s time first count args = composed
      cases composed <;> rfl
  | setTime =>
      show (Edit.query _ >>= _ : Edit Value) s = _
      rw [bind_of_ok hquery]
      exact Edit.ask_bind_eq _ _ s
  | _ =>
      show (Edit.query _ >>= _ : Edit Value) s = _
      rw [bind_of_ok hquery]
      rfl

/-- An object is a date that holds a number. -/
def Holds (s : Heap) (id : ObjectId) (time : Float) : Prop := (s.object? id).map Object.kind = some (.date time)

theorem Holds.held (h : Holds s id time) : held s (.object id) = .ok time := by
  have hkind : (s.objectOf? (.object id)).map Object.kind = some (.date time) := h
  unfold Dates.held
  rw [hkind]
  rfl

/-- An object that is turned into a date. -/
theorem holds_change {o : Object} (ho : s.object? id = some o) (time : Float) :
    Holds (s.change id fun o => { o with kind := .date time }) id time :=
  congrArg (Option.map Object.kind) (Heap.object?_change_self ho fun o => { o with kind := .date time })

/-- The time of a date is set to what there is of it within the bound, and that is returned. -/
theorem setTime_of_holds (h : Holds s id time) (x : Float) : ∃ s',
    setTime (.object id) x s = (.ok (.number (Calendar.clip x)), s') ∧ Holds s' id (Calendar.clip x) := by
  obtain ⟨o, ho, -⟩ := Option.map_eq_some_iff.mp h
  exact ⟨_, rfl, holds_change ho _⟩

/-- A new date of a number. -/
def create (x : Float) : Edit Value := do
  construct (.object (← Store.allocInstance (some Intrinsic.date))) [.number x]

/-- A new date holds what there is of its number within the bound. -/
theorem create_holds (s : Heap) (x : Float) : ∃ id s',
    create x s = (.ok (.object id), s') ∧ Holds s' id (Calendar.clip x) := by
  obtain ⟨id, o, s', halloc, hmakes, hblank⟩ := Store.allocInstance_makes s Intrinsic.date
  refine ⟨id, _, ?_, holds_change hmakes.made (Calendar.clip x)⟩
  rw [create, bind_of_ok halloc, construct, Edit.ask_bind_eq, (Heap.isBlankInstance_object hmakes.made).mpr hblank]
  rfl

/-! ### What there is to ask of a date -/

/-- A date that holds a time and answers whatever it is asked. -/
structure Usable (s : Heap) (id : ObjectId) (t : Int) : Prop where
  tells : ∀ m args, m.isGetter = true →
    ∃ x : Float, x.isNaN = false ∧ method m (.object id) args s = (.ok (.number x), s)
  writes : ∀ form args,
    ∃ text, text ≠ "Invalid Date" ∧ method (.toText form) (.object id) args s = (.ok (.string text), s)
  converts : ∀ hint, ∃ p, s.toPrimitive? (.object id) hint = .ok p ∧ p ≠ .string "Invalid Date"
  recomposes : ∃ ps, Calendar.partsOf? (Double.ofInt t) = some ps ∧
    Calendar.compose (ps.map Double.ofInt) = Double.ofInt t
  sets : ∀ m args, m.isSetter = true → ∃ x s', method m (.object id) args s = (.ok (.number x), s') ∧
    ∀ args', method .getTime (.object id) args' s' = (.ok (.number x), s')

/-- A date that holds a time and answers as if it held none. -/
structure Lost (s : Heap) (id : ObjectId) (t : Int) : Prop where
  holds : ∀ args, method .getTime (.object id) args s = (.ok (.number (Double.ofInt t)), s)
  tells : ∀ m args, m.isGetter = true → m ≠ .getTime →
    method m (.object id) args s = (.ok (.number Double.nan), s)
  writes : ∀ form args, form ≠ .iso →
    method (.toText form) (.object id) args s = (.ok (.string "Invalid Date"), s)
  refuses : ∀ args, method (.toText .iso) (.object id) args s = (.error (.outOfRange "Invalid time value"), s)
  sets : ∀ first count args, method (.setParts first count) (.object id) args s = (.ok (.number Double.nan), s)

/-- The year of a time is one that the calendar has. -/
def IsTold (t : Int) : Prop := Calendar.isYear (Calendar.Date.ofDay (t / Calendar.msPerDay)).year = true

instance (t : Int) : Decidable (IsTold t) := inferInstanceAs (Decidable (_ = true))

theorem Holds.getTime (h : Holds s id time) (args : List Value) :
    method .getTime (.object id) args s = (.ok (.number time), s) := method_of_held h.held .getTime args

/-- A setter that sets the time returns what the date then holds. -/
theorem Holds.setTime (h : Holds s id time) (x : Float) : ∃ y s',
    Dates.setTime (.object id) x s = (.ok (.number y), s') ∧
      ∀ args, method .getTime (.object id) args s' = (.ok (.number y), s') := by
  obtain ⟨s', hset, hholds⟩ := setTime_of_holds h x
  exact ⟨_, s', hset, hholds.getTime⟩

variable {ps : Calendar.Parts Int}

theorem reading_of_parts (h : Calendar.partsOf? time = some ps) (read : Calendar.Parts Int → Int) :
    reading time read = .number (Double.ofInt (read ps)) := by
  rw [reading, h]
  rfl

theorem reading_of_no_parts (h : Calendar.partsOf? time = none) (read : Calendar.Parts Int → Int) :
    reading time read = .number Double.nan := by
  rw [reading, h]
  rfl

theorem textOf?_eq (form : DateForm) (hcut : Double.toInt? time = some t) :
    Calendar.textOf? form time = (Calendar.partsOf? time).map (Calendar.text form t) := by
  rw [Calendar.textOf?, Calendar.partsOf?, hcut, Option.bind_some]
  show (Calendar.parts? t).bind (fun ps => some (Calendar.text form t ps)) = _
  cases Calendar.parts? t <;> rfl

theorem writing_of_text {form : DateForm} {text : String} (h : Calendar.textOf? form time = some text) :
    writing form time = .ok (.string text) := by
  unfold writing
  rw [h]
  rfl

/-- What a date is as a primitive. -/
theorem Holds.toPrimitive? (h : Holds s id time) (hint : Hint) : s.toPrimitive? (.object id) hint =
    .ok (if hint == .number then .number time else .string (Calendar.textOf .full time)) := by
  obtain ⟨o, ho, hkind⟩ := Option.map_eq_some_iff.mp h
  have harray : s.isArray (.object id) = false := by
    show (s.object? id).any Object.isArray = false
    rw [ho, Option.any_some]
    rcases o with ⟨parent, properties, kind⟩
    cases hkind
    rfl
  have hscalar : s.scalar (.object id) hint =
      if hint == .number then .number time else .string (Calendar.textOf .full time) := by
    rw [Heap.scalar, h]
  rw [Heap.toPrimitive?, harray, hscalar]
  rfl

/-- A setter of parts composes the time anew, where there are parts. -/
theorem withParts_eq (s : Heap) (hnumber : time.isNaN = false) (first : DatePart) (count : Nat) (args : List Value) :
    withParts s time first count args = (Calendar.partsOf? time).map fun ps =>
      Calendar.compose ((ps.map Double.ofInt).setFrom first
        (if args.isEmpty then [Double.nan] else (args.take count).map s.toNumber)) := by
  rw [withParts, hnumber]
  rfl

/-- Where the year is told, a getter tells a number. -/
theorem tells_of_told (h : Holds s id (Double.ofInt t)) (hbound : t.natAbs ≤ Calendar.maxTime) (htold : IsTold t)
    {m : DateMethod} (hgetter : m.isGetter = true) (args : List Value) :
    ∃ x : Float, x.isNaN = false ∧ method m (.object id) args s = (.ok (.number x), s) := by
  obtain ⟨ps, hparts, hproper, -⟩ := Calendar.compose_parts hbound htold
  rw [method_of_held h.held]
  cases m with
  | getTime => exact ⟨_, Double.isNaN_ofInt (Calendar.lt_of_le_maxTime hbound), rfl⟩
  | getTimezoneOffset =>
      refine ⟨_, Double.isNaN_ofInt (i := 0) (by decide), ?_⟩
      dsimp only
      rw [reading_of_parts hparts]
  | getPart part =>
      have hpart := hproper.natAbs_get part
      refine ⟨_, Double.isNaN_ofInt (i := ps.get part) (by omega), ?_⟩
      dsimp only
      rw [reading_of_parts hparts]
  | getWeekday =>
      have htime : Calendar.timeOf? (Double.ofInt t) = some t := by
        rw [Calendar.timeOf?, Double.toInt?_ofInt (Calendar.lt_of_le_maxTime hbound), Option.filter_some,
          (Calendar.isDay_iff _).mpr htold, if_pos rfl]
      have hweekday : Calendar.weekdayOf t < 7 := by
        unfold Calendar.weekdayOf Calendar.weekday
        omega
      refine ⟨_, Double.isNaN_ofInt (i := Calendar.weekdayOf t) (by omega), ?_⟩
      dsimp only
      rw [weekday, htime]
      rfl
  | getYear =>
      have hyear : ps.year.natAbs < 1000000 := hproper.natAbs_get .year
      have hsmall : (ps.year - shortYearBase).natAbs < 2 ^ 53 := by
        unfold shortYearBase
        omega
      refine ⟨_, Double.isNaN_ofInt hsmall, ?_⟩
      dsimp only
      rw [reading_of_parts hparts]
  | setTime => cases hgetter
  | setParts first count => cases hgetter
  | toText form => cases hgetter

/-- Where the year is told, there is a text of each form. -/
theorem exists_text_of_told (hbound : t.natAbs ≤ Calendar.maxTime) (htold : IsTold t) (form : DateForm) :
    ∃ text, text ≠ "Invalid Date" ∧ Calendar.textOf? form (Double.ofInt t) = some text := by
  obtain ⟨ps, hparts, -⟩ := Calendar.compose_parts hbound htold
  refine ⟨_, (Calendar.endsApart_text form t ps).ne, ?_⟩
  rw [textOf?_eq form (Double.toInt?_ofInt (Calendar.lt_of_le_maxTime hbound)), hparts, Option.map_some]

/-- Where the year is told, a setter returns what the date then holds. -/
theorem sets_of_told (h : Holds s id (Double.ofInt t)) (hbound : t.natAbs ≤ Calendar.maxTime) (htold : IsTold t)
    {m : DateMethod} (hsetter : m.isSetter = true) (args : List Value) :
    ∃ x s', method m (.object id) args s = (.ok (.number x), s') ∧
      ∀ args', method .getTime (.object id) args' s' = (.ok (.number x), s') := by
  obtain ⟨ps, hparts, -⟩ := Calendar.compose_parts hbound htold
  rw [method_of_held h.held]
  cases m with
  | setTime => exact h.setTime _
  | setParts first count =>
      dsimp only
      rw [withParts_eq s (Double.isNaN_ofInt (Calendar.lt_of_le_maxTime hbound)), hparts, Option.map_some]
      exact h.setTime _
  | _ => cases hsetter

/-- **A date whose year is told answers whatever it is asked.** -/
theorem usable_of_told (h : Holds s id (Double.ofInt t)) (hbound : t.natAbs ≤ Calendar.maxTime)
    (htold : IsTold t) : Usable s id t where
  tells m args hgetter := tells_of_told h hbound htold hgetter args
  writes form args := by
    obtain ⟨text, hne, htext⟩ := exists_text_of_told hbound htold form
    refine ⟨text, hne, ?_⟩
    rw [method_of_held h.held]
    dsimp only
    rw [writing_of_text htext]
  converts hint := by
    obtain ⟨text, hne, htext⟩ := exists_text_of_told hbound htold .full
    refine ⟨_, h.toPrimitive? hint, ?_⟩
    rw [Calendar.textOf, htext, Option.getD_some]
    split
    · intro heq
      cases heq
    · intro heq
      exact hne (Value.string.inj heq)
  recomposes := by
    obtain ⟨ps, hparts, -, hcompose⟩ := Calendar.compose_parts hbound htold
    exact ⟨ps, hparts, hcompose⟩
  sets m args hsetter := sets_of_told h hbound htold hsetter args

/-- **A date whose year is not told answers as one that holds no time.** -/
theorem lost_of_not_told (h : Holds s id (Double.ofInt t)) (hbound : t.natAbs ≤ Calendar.maxTime)
    (htold : ¬IsTold t) : Lost s id t := by
  have hsmall := Calendar.lt_of_le_maxTime hbound
  have hcut := Double.toInt?_ofInt hsmall
  have hday : Calendar.isDay (t / Calendar.msPerDay) = false := by
    rw [Bool.eq_false_iff, ne_eq, Calendar.isDay_iff]
    exact htold
  have hparts : Calendar.partsOf? (Double.ofInt t) = none := by
    rw [Calendar.partsOf?, hcut, Option.bind_some, Calendar.parts?]
    dsimp only
    rw [hday]
    rfl
  have htext (form : DateForm) : Calendar.textOf? form (Double.ofInt t) = none := by
    rw [textOf?_eq form hcut, hparts, Option.map_none]
  refine ⟨h.getTime, ?tells, ?writes, ?refuses, ?sets⟩
  case tells =>
    intro m args hgetter hother
    rw [method_of_held h.held]
    cases m with
    | getTime => exact absurd rfl hother
    | getWeekday =>
        have htime : Calendar.timeOf? (Double.ofInt t) = none := by
          rw [Calendar.timeOf?, hcut, Option.filter_some, hday]
          rfl
        dsimp only
        rw [weekday, htime]
        rfl
    | setTime => cases hgetter
    | setParts first count => cases hgetter
    | toText form => cases hgetter
    | _ =>
        dsimp only
        rw [reading_of_no_parts hparts]
  case writes =>
    intro form args hform
    rw [method_of_held h.held]
    dsimp only
    unfold writing
    rw [htext]
    cases form <;> first | exact absurd rfl hform | rfl
  case refuses =>
    intro args
    rw [method_of_held h.held]
    dsimp only
    unfold writing
    rw [htext]
    rfl
  case sets =>
    intro first count args
    rw [method_of_held h.held]
    dsimp only
    rw [withParts_eq s (Double.isNaN_ofInt hsmall), hparts]
    rfl

/-- The times whose year the calendar has. -/
theorem isTold_iff (t : Int) : IsTold t ↔ -8334601228800000 ≤ t ∧ t < 8210266876800000 := by
  have hfirst : (Calendar.Date.mk Calendar.firstYear 1 1).toDay = -96465292 := by decide
  have hlast : (Calendar.Date.mk Calendar.lastYear 12 31).toDay = 95026236 := by decide
  have hday : Calendar.msPerDay = 86400000 := rfl
  rw [IsTold, ← Calendar.isDay_iff, Calendar.isDay, hfirst, hlast, hday, Bool.and_eq_true, decide_eq_true_iff,
    decide_eq_true_iff]
  omega

/-- **Dates are usable where their year is told.**  Every time within the bound is held by a new date of it, and
by a date whose time is set to it; what else is made or set is no number, or another such time.  A date that holds
one answers whatever it is asked if its year is told, and as an invalid date if not. -/
theorem usable_where_told (t : Int) (hbound : t.natAbs ≤ Calendar.maxTime) :
    (∀ s, ∃ id s', create (Double.ofInt t) s = (.ok (.object id), s') ∧ Holds s' id (Double.ofInt t)) ∧
    (∀ s id time, Holds s id time → ∃ s',
      method .setTime (.object id) [.number (Double.ofInt t)] s = (.ok (.number (Double.ofInt t)), s') ∧
        Holds s' id (Double.ofInt t)) ∧
    (∀ x, Calendar.clip x = Double.nan ∨
      ∃ t' : Int, t'.natAbs ≤ Calendar.maxTime ∧ Calendar.clip x = Double.ofInt t') ∧
    (IsTold t ↔ -8334601228800000 ≤ t ∧ t < 8210266876800000) ∧
    ∀ s id, Holds s id (Double.ofInt t) → (IsTold t → Usable s id t) ∧ (¬IsTold t → Lost s id t) := by
  have hclip := Double.clip_ofInt hbound
  refine ⟨fun s => ?_, fun s id time h => ?_, Double.clip_cases, isTold_iff t, fun s id h =>
    ⟨usable_of_told h hbound, lost_of_not_told h hbound⟩⟩
  · obtain ⟨id, s', hcreate, hholds⟩ := create_holds s (Double.ofInt t)
    rw [hclip] at hholds
    exact ⟨id, s', hcreate, hholds⟩
  · obtain ⟨s', hset, hholds⟩ := setTime_of_holds h (Double.ofInt t)
    rw [hclip] at hset hholds
    exact ⟨s', (method_of_held h.held .setTime _).trans hset, hholds⟩

/-- A new date of the epoch can be used. -/
theorem epoch_is_usable : ∃ id s,
    create (Double.ofInt 0) (Store.create {} none 0.0 1).toHeap = (.ok (.object id), s) ∧ Usable s id 0 := by
  obtain ⟨hcreates, -, -, -, husable⟩ := usable_where_told 0 (by decide)
  obtain ⟨id, s, hcreate, hholds⟩ := hcreates (Store.create {} none 0.0 1).toHeap
  exact ⟨id, s, hcreate, (husable s id hholds).1 (by decide)⟩

/-- A new date of the last time within the bound holds that time, and it has no year, no text and no day that
could be set. -/
theorem last_time_is_lost : ∃ id s,
    create (Double.ofInt Calendar.maxTime) (Store.create {} none 0.0 1).toHeap = (.ok (.object id), s) ∧
    method .getTime (.object id) [] s = (.ok (.number (Double.ofInt Calendar.maxTime)), s) ∧
    (Double.ofInt Calendar.maxTime).isNaN = false ∧
    method (.getPart .year) (.object id) [] s = (.ok (.number Double.nan), s) ∧ Double.nan.isNaN = true ∧
    method (.toText .full) (.object id) [] s = (.ok (.string "Invalid Date"), s) ∧
    method (.toText .iso) (.object id) [] s = (.error (.outOfRange "Invalid time value"), s) ∧
    method (.setParts .day 1) (.object id) [.number (Double.ofInt 1)] s = (.ok (.number Double.nan), s) := by
  obtain ⟨id, s, hcreate, hholds⟩ := create_holds (Store.create {} none 0.0 1).toHeap (Double.ofInt Calendar.maxTime)
  rw [Double.clip_ofInt (by decide)] at hholds
  have hlost := lost_of_not_told hholds (by decide) (by decide)
  exact ⟨id, s, hcreate, hlost.holds [], Double.isNaN_ofInt (by decide),
    hlost.tells (.getPart .year) [] rfl (by decide), rfl, hlost.writes .full [] (by decide), hlost.refuses [],
    hlost.sets .day 1 _⟩

end Dates

end Stepwise
