/-
Rounding on decimal digits.

A number is cut at a place behind the point, and one is carried into the digits that were kept if the first
digit cut off is five or more.  The digits kept count the whole units of that place, and the first one cut off
says on which side of half a unit the rest is (`number_kept`).  So the digits that come out count the whole units
of the number and half a unit more, and nothing is rounded twice (`number_rounded`).

A carry passes over nines, makes zeros of them, and ends at the first digit that is not a nine.  It runs out in
front only if all digits are nines: then a one is put in front of zeros.  Of these the scientific form gives up
the last one and counts it in the power, so it loses nothing by that (`roundScientific_eq`).
-/
import Mathlib.Data.Nat.Digits.Lemmas
import Stepwise.Proofs.Expansions

namespace Stepwise

namespace Digits

variable {ds whole fraction : List ℕ} {places : ℕ}

/-! ### Digits and their number -/

theorem number_lt (hds : ∀ d ∈ ds, d < 10) : number 10 ds < 10 ^ ds.length := by
  rw [number, ← List.length_reverse]
  exact Nat.ofDigits_lt_base_pow_length (by decide) fun d hd => hds d (List.mem_reverse.mp hd)

/-- One more than nines is a power of ten. -/
theorem number_nines (hds : ∀ d ∈ ds, d = 9) : number 10 ds + 1 = 10 ^ ds.length := by
  induction ds with
  | nil => rfl
  | cons d ds ih =>
      obtain ⟨rfl, hrest⟩ := List.forall_mem_cons.mp hds
      rw [number_cons, Nat.add_assoc, ih hrest, List.length_cons, Nat.pow_succ]
      omega

/-- A number that needs all its digits does not begin with a zero. -/
theorem head?_ne_zero {n : ℕ} (hds : ∀ d ∈ ds, d < 10) (hlength : ds.length = n + 1) (hlarge : 10 ^ n ≤ number 10 ds) :
    ds.head? ≠ some 0 := by
  cases ds with
  | nil => nofun
  | cons d ds =>
      rintro ⟨rfl⟩
      have hrest := number_lt (List.forall_mem_cons.mp hds).2
      rw [number_cons, Nat.zero_mul, Nat.zero_add] at hlarge
      rw [Nat.succ_injective hlength] at hrest
      omega

/-! ### Carrying -/

/-- What becomes of digits that one is added to, and whether a carry runs out of them. -/
structure Carried (ds : List ℕ) (carry : Bool) (ds' : List ℕ) : Prop where
  length : ds'.length = ds.length
  digits : ∀ d ∈ ds', d < 10
  number : number 10 ds' + (if carry then 10 ^ ds.length else 0) = number 10 ds + 1
  nines : carry = true ↔ ∀ d ∈ ds, d = 9

theorem carried_go (hds : ∀ d ∈ ds, d < 10) : Carried ds (succ.go ds).1 (succ.go ds).2 := by
  induction ds with
  | nil => exact ⟨rfl, by simp [succ.go], rfl, by simp [succ.go]⟩
  | cons d ds ih =>
      obtain ⟨hd, hrest⟩ := List.forall_mem_cons.mp hds
      have hcarried := ih hrest
      rw [succ.go]
      generalize succ.go ds = next at hcarried
      obtain ⟨carry, ds'⟩ := next
      obtain ⟨hlength, hdigits, hnumber, hnines⟩ := hcarried
      dsimp only at hlength hdigits hnumber hnines
      cases carry with
      | false =>
          -- The carry has ended behind this digit.
          refine ⟨congrArg (· + 1) hlength, List.forall_mem_cons.mpr ⟨hd, hdigits⟩, ?_, ?_⟩
          · simp only [Bool.false_eq_true, if_false, Nat.add_zero] at hnumber ⊢
            rw [number_cons, number_cons, hlength, hnumber, Nat.add_assoc]
          · refine iff_of_false nofun fun hall => ?_
            exact absurd (hnines.mpr (List.forall_mem_cons.mp hall).2) nofun
      | true =>
          have hbehind := hnines.mp rfl
          simp only [if_true] at hnumber
          by_cases hnine : d = 9
          · subst hnine
            refine ⟨congrArg (· + 1) hlength, List.forall_mem_cons.mpr ⟨by decide, hdigits⟩, ?_, ?_⟩
            · simp only [beq_self_eq_true, if_true]
              rw [number_cons, number_cons, List.length_cons, Nat.pow_succ]
              omega
            · exact iff_of_true rfl (List.forall_mem_cons.mpr ⟨rfl, hbehind⟩)
          · have hbeq : (d == 9) = false := beq_false_of_ne hnine
            simp only [hbeq, Bool.false_eq_true, if_false]
            refine ⟨congrArg (· + 1) hlength, List.forall_mem_cons.mpr ⟨by omega, hdigits⟩, ?_, ?_⟩
            · simp only [Bool.false_eq_true, if_false]
              rw [number_cons, number_cons, hlength, Nat.succ_mul]
              omega
            · exact iff_of_false nofun fun hall => hnine (hall d List.mem_cons_self)

/-- **One is added to the number**, and there is one digit more just if all of them are nines. -/
theorem succ_eq (hds : ∀ d ∈ ds, d < 10) : (∀ d ∈ succ ds, d < 10) ∧ number 10 (succ ds) = number 10 ds + 1 ∧
    (succ ds).length = ds.length + if ∀ d ∈ ds, d = 9 then 1 else 0 := by
  have hcarried := carried_go hds
  rw [succ]
  generalize succ.go ds = next at hcarried
  obtain ⟨carry, ds'⟩ := next
  obtain ⟨hlength, hdigits, hnumber, hnines⟩ := hcarried
  dsimp only at hlength hdigits hnumber hnines
  cases carry with
  | false =>
      refine ⟨hdigits, hnumber, ?_⟩
      rw [if_neg fun hall => absurd (hnines.mpr hall) nofun, Nat.add_zero]
      exact hlength
  | true =>
      refine ⟨List.forall_mem_cons.mpr ⟨by decide, hdigits⟩, ?_, ?_⟩
      · rw [← hnumber, number_cons, hlength, Nat.one_mul, Nat.add_comm]
        rfl
      · rw [if_pos (hnines.mp rfl), List.length_cons, hlength]

/-! ### Cutting -/

/-- The digits up to a place, with zeros where there are none. -/
def kept (whole fraction : List ℕ) (places : ℕ) : List ℕ :=
  whole ++ (fraction.take places ++ List.replicate (places - fraction.length) 0)

/-- The first digit cut off is five or more. -/
def RoundsUp (fraction : List ℕ) (places : ℕ) : Prop := ∃ d ∈ fraction[places]?, 5 ≤ d

instance (fraction : List ℕ) (places : ℕ) : Decidable (RoundsUp fraction places) :=
  inferInstanceAs (Decidable (∃ d ∈ fraction[places]?, 5 ≤ d))

/-- A carry runs out of the digits: all that are kept are nines. -/
def CarriesOut (whole fraction : List ℕ) (places : ℕ) : Prop :=
  RoundsUp fraction places ∧ ∀ d ∈ whole ++ fraction.take places, d = 9

instance (whole fraction : List ℕ) (places : ℕ) : Decidable (CarriesOut whole fraction places) :=
  inferInstanceAs (Decidable (_ ∧ _))

theorem not_roundsUp (h : fraction.length ≤ places) : ¬RoundsUp fraction places := by
  rintro ⟨d, hd, -⟩
  rw [List.getElem?_eq_none h] at hd
  cases hd

/-- Where a digit is cut off, no zeros are put behind. -/
theorem exists_cut (h : places < fraction.length) : ∃ front d rest, fraction = front ++ d :: rest ∧
    front.length = places ∧ (∀ whole, kept whole fraction places = whole ++ front) ∧
    fraction.take places = front ∧ (RoundsUp fraction places ↔ 5 ≤ d) := by
  refine ⟨fraction.take places, fraction[places], fraction.drop (places + 1), ?_, ?_, fun whole => ?_, rfl, ?_⟩
  · rw [← List.drop_eq_getElem_cons h, List.take_append_drop]
  · exact List.length_take_of_le (Nat.le_of_lt h)
  · rw [kept, Nat.sub_eq_zero_of_le (Nat.le_of_lt h), List.replicate_zero, List.append_nil]
  · rw [RoundsUp, List.getElem?_eq_getElem h]
    simp

theorem length_kept (whole fraction : List ℕ) (places : ℕ) :
    (kept whole fraction places).length = whole.length + places := by
  rw [kept, List.length_append, List.length_append, List.length_take, List.length_replicate]
  omega

theorem kept_lt_ten (hds : ∀ d ∈ whole ++ fraction, d < 10) : ∀ d ∈ kept whole fraction places, d < 10 := by
  obtain ⟨hwhole, hfraction⟩ := List.forall_mem_append.mp hds
  refine List.forall_mem_append.mpr ⟨hwhole, List.forall_mem_append.mpr ⟨fun d hd => ?_, Layout.zeros_lt_ten _⟩⟩
  exact hfraction d (List.mem_of_mem_take hd)

/-- The number that is written with a point between the digits. -/
def decimal (whole fraction : List ℕ) : ℚ := number 10 (whole ++ fraction) / 10 ^ fraction.length

theorem value_numeral (hds : ∀ d ∈ whole ++ fraction, d < 10) :
    (Layout.numeral whole fraction none).value 10 = decimal whole fraction := by
  obtain ⟨hwhole, hfraction⟩ := List.forall_mem_append.mp hds
  rw [Layout.numeral_value hwhole hfraction, decimal, Option.getD_none, zero_sub, zpow_neg, zpow_natCast,
    div_eq_mul_inv]
  rfl

/-- With zeros put behind it is the same number. -/
theorem decimal_mul_of_le (whole : List ℕ) (h : fraction.length ≤ places) :
    decimal whole fraction * 10 ^ places = number 10 (kept whole fraction places) := by
  obtain ⟨zeros, rfl⟩ := Nat.exists_eq_add_of_le h
  rw [kept, List.take_of_length_le h, Nat.add_sub_cancel_left, ← List.append_assoc,
    number_append 10 (whole ++ fraction), number_zeros, List.length_replicate, decimal, pow_add]
  push_cast
  field_simp
  ring

/-- What is cut off is the first digit in tenths of a unit, and less than a tenth behind it. -/
theorem decimal_mul_append (whole front : List ℕ) (d : ℕ) (rest : List ℕ) :
    decimal whole (front ++ d :: rest) * 10 ^ front.length =
      number 10 (whole ++ front) + (d + decimal [] rest) / 10 := by
  rw [decimal, ← List.append_assoc, number_append, number_cons, List.length_append, List.length_cons, decimal,
    List.nil_append, pow_add, pow_succ]
  push_cast
  field_simp
  ring

theorem decimal_lt_one (hds : ∀ d ∈ ds, d < 10) : decimal [] ds < 1 := by
  rw [decimal, div_lt_one (by positivity)]
  exact_mod_cast number_lt hds

theorem floor_add_half {n : ℕ} {y : ℚ} (hnonneg : 0 ≤ y) (hone : y < 1) :
    ⌊n + y + 1 / 2⌋₊ = if 1 / 2 ≤ y then n + 1 else n := by
  rw [Nat.floor_eq_iff (by positivity)]
  split
  · push_cast
    constructor <;> linarith
  · constructor <;> linarith

/-- **The digits kept count the whole units of a number, and half a unit more if one is carried into them** where
the first digit cut off is five or more. -/
theorem number_kept (hds : ∀ d ∈ whole ++ fraction, d < 10) (places : ℕ) :
    number 10 (kept whole fraction places) + (if RoundsUp fraction places then 1 else 0) =
      ⌊decimal whole fraction * 10 ^ places + 1 / 2⌋₊ := by
  rcases Nat.lt_or_ge places fraction.length with hcut | hall
  · obtain ⟨front, d, rest, rfl, rfl, hkept, -, hup⟩ := exists_cut hcut
    have hrest : ∀ d ∈ rest, d < 10 := fun c hc => hds c (by simp [hc])
    have hd : (d : ℚ) + 1 ≤ 10 := by exact_mod_cast hds d (by simp)
    have hbehind := decimal_lt_one hrest
    have hnonneg : 0 ≤ decimal [] rest := by
      unfold decimal
      positivity
    have hhalf : 1 / 2 ≤ (d + decimal [] rest) / 10 ↔ 5 ≤ d := by
      constructor
      · intro h
        have hlt : (4 : ℚ) < d := by linarith
        exact_mod_cast hlt
      · intro h
        have hle : (5 : ℚ) ≤ d := by exact_mod_cast h
        linarith
    rw [decimal_mul_append, floor_add_half (by positivity) (by linarith), hkept]
    simp only [hup, hhalf]
    split <;> rfl
  · rw [decimal_mul_of_le whole hall, if_neg (not_roundsUp hall), Nat.add_zero]
    have hfloor := floor_add_half (n := number 10 (kept whole fraction places)) (le_refl (0 : ℚ)) (by norm_num)
    rw [add_zero, if_neg (by norm_num)] at hfloor
    exact hfloor.symm

/-! ### Rounding -/

/-- All the digits that come out. -/
def rounded (whole fraction : List ℕ) (places : ℕ) : List ℕ :=
  if RoundsUp fraction places then succ (kept whole fraction places) else kept whole fraction places

/-- A carry runs out if there is one and finds nothing but nines. -/
theorem carriesOut_iff : CarriesOut whole fraction places ↔
    RoundsUp fraction places ∧ ∀ d ∈ kept whole fraction places, d = 9 := by
  refine and_congr_right fun hup => ?_
  obtain ⟨front, d, rest, -, -, hkept, htake, -⟩ := exists_cut (Nat.lt_of_not_le fun h => not_roundsUp h hup)
  rw [hkept, htake]

theorem rounded_lt_ten (hds : ∀ d ∈ whole ++ fraction, d < 10) : ∀ d ∈ rounded whole fraction places, d < 10 := by
  unfold rounded
  split
  · exact (succ_eq (kept_lt_ten hds)).1
  · exact kept_lt_ten hds

theorem number_rounded (hds : ∀ d ∈ whole ++ fraction, d < 10) (places : ℕ) :
    number 10 (rounded whole fraction places) = ⌊decimal whole fraction * 10 ^ places + 1 / 2⌋₊ := by
  rw [← number_kept hds]
  unfold rounded
  split
  · exact (succ_eq (kept_lt_ten hds)).2.1
  · rfl

theorem length_rounded (hds : ∀ d ∈ whole ++ fraction, d < 10) (places : ℕ) : (rounded whole fraction places).length =
    (if CarriesOut whole fraction places then whole.length + 1 else whole.length) + places := by
  have hlength := length_kept whole fraction places
  simp only [rounded, carriesOut_iff]
  by_cases hup : RoundsUp fraction places
  · simp only [hup, if_true, true_and]
    rw [(succ_eq (kept_lt_ten hds)).2.2, hlength]
    split <;> omega
  · simpa only [hup, if_false, false_and] using hlength

/-- The point is put in front of the last of them. -/
theorem roundHalfUp_eq (whole fraction : List ℕ) (places : ℕ) : roundHalfUp whole fraction places =
    (rounded whole fraction places).splitAt ((rounded whole fraction places).length - places) := by
  unfold roundHalfUp rounded
  cases h : fraction[places]? with
  | none =>
      have hdown : ¬RoundsUp fraction places := by
        rintro ⟨d, hd, -⟩
        rw [h] at hd
        cases hd
      rw [if_neg hdown]
      rfl
  | some d =>
      have hup : RoundsUp fraction places ↔ 5 ≤ d := by
        rw [RoundsUp, h]
        simp
      simp only [hup]
      rfl

/-- What rounding to a place gives. -/
structure IsRounded (whole fraction : List ℕ) (places : ℕ) (result : List ℕ × List ℕ) : Prop where
  append : result.1 ++ result.2 = rounded whole fraction places
  length_fraction : result.2.length = places
  length_whole : result.1.length = if CarriesOut whole fraction places then whole.length + 1 else whole.length

theorem isRounded_roundHalfUp (hds : ∀ d ∈ whole ++ fraction, d < 10) (places : ℕ) :
    IsRounded whole fraction places (roundHalfUp whole fraction places) := by
  have hlength := length_rounded hds places
  rw [roundHalfUp_eq, List.splitAt_eq]
  refine ⟨List.take_append_drop _ _, ?_, ?_⟩
  · rw [List.length_drop]
    omega
  · rw [List.length_take]
    omega

/-- A power of ten comes out if a carry runs out. -/
theorem number_of_carriesOut (hds : ∀ d ∈ whole ++ fraction, d < 10) (h : CarriesOut whole fraction places) :
    ⌊decimal whole fraction * 10 ^ places + 1 / 2⌋₊ = 10 ^ (whole.length + places) := by
  obtain ⟨hup, hnines⟩ := carriesOut_iff.mp h
  rw [← number_kept hds, if_pos hup, number_nines hnines, length_kept]

theorem le_number_rounded {d : ℕ} {rest : List ℕ} (hds : ∀ c ∈ [d] ++ rest, c < 10) (hd : d ≠ 0) (places : ℕ) :
    10 ^ places ≤ ⌊decimal [d] rest * 10 ^ places + 1 / 2⌋₊ := by
  have hlength : (kept [] rest places).length = places := (length_kept [] rest places).trans (Nat.zero_add places)
  have hfirst : kept [d] rest places = d :: kept [] rest places := rfl
  rw [← number_kept hds, hfirst, number_cons, hlength, Nat.add_assoc]
  exact Nat.le_trans (Nat.le_mul_of_pos_left _ (Nat.pos_of_ne_zero hd)) (Nat.le_add_right _ _)

/-- The last digit of a power of ten can be spared. -/
theorem number_take_of_power {n : ℕ} (hds : ∀ d ∈ ds, d < 10) (hlength : ds.length = n + 2)
    (hpower : number 10 ds = 10 ^ (n + 1)) : number 10 (ds.take (n + 1)) = 10 ^ n := by
  have hlast : (ds.drop (n + 1)).length = 1 := by
    rw [List.length_drop]
    omega
  have hless := number_lt fun d hd => hds d (List.mem_of_mem_drop (i := n + 1) hd)
  have hsplit := number_append 10 (ds.take (n + 1)) (ds.drop (n + 1))
  rw [List.take_append_drop, hpower, hlast, Nat.pow_succ] at hsplit
  rw [hlast] at hless
  omega

/-- **A leading digit and so many more behind it are the rounded number**: where a carry makes one digit more, that
is a zero and counts as a power of ten. -/
theorem roundScientific_eq {d : ℕ} {rest : List ℕ} (hds : ∀ c ∈ [d] ++ rest, c < 10) (e : ℤ) (places : ℕ) :
    ∃ ds e', roundScientific ([d] ++ rest) e places = (ds, e') ∧ ds.length = places + 1 ∧ (∀ c ∈ ds, c < 10) ∧
      (d ≠ 0 → ds.head? ≠ some 0) ∧ (number 10 ds : ℚ) * 10 ^ (e' - places) =
        ⌊decimal [d] rest * 10 ^ places + 1 / 2⌋₊ / 10 ^ places * 10 ^ e := by
  have hdigits : ∀ c ∈ rounded [d] rest places, c < 10 := rounded_lt_ten hds
  have hnumber := number_rounded hds places
  have hlength := length_rounded hds places
  have hcut : roundScientific ([d] ++ rest) e places =
      if places + 1 < (rounded [d] rest places).length then ((rounded [d] rest places).take (places + 1), e + 1)
      else (rounded [d] rest places, e) := by
    rw [← (isRounded_roundHalfUp hds places).append]
    rfl
  rw [hcut]
  generalize rounded [d] rest places = all at hdigits hnumber hlength
  rw [List.length_singleton] at hlength
  by_cases hcarries : CarriesOut [d] rest places
  · have hpower := number_of_carriesOut hds hcarries
    rw [List.length_singleton, Nat.add_comm 1] at hpower
    rw [if_pos hcarries] at hlength
    rw [if_pos (by omega)]
    have hkept : (all.take (places + 1)).length = places + 1 := List.length_take_of_le (by omega)
    have hlt : ∀ c ∈ all.take (places + 1), c < 10 := fun c hc => hdigits c (List.mem_of_mem_take hc)
    have hten := number_take_of_power hdigits (by omega) (hnumber.trans hpower)
    refine ⟨_, _, rfl, hkept, hlt, fun _ => head?_ne_zero hlt hkept hten.ge, ?_⟩
    rw [hten, hpower, sub_eq_add_neg, zpow_add₀ (by norm_num), zpow_add_one₀ (by norm_num), zpow_neg, zpow_natCast]
    push_cast
    field_simp
    ring
  · rw [if_neg hcarries] at hlength
    rw [if_neg (by omega)]
    refine ⟨_, _, rfl, by omega, hdigits, fun hd => head?_ne_zero (n := places) hdigits (by omega) ?_, ?_⟩
    · rw [hnumber]
      exact le_number_rounded hds hd places
    · rw [hnumber, sub_eq_add_neg, zpow_add₀ (by norm_num), zpow_neg, zpow_natCast]
      field_simp

/-! ### All the digits of a number -/

theorem number_ofNat (n : ℕ) : number 10 (ofNat n) = n := by
  rw [← ofDigitChars_toChars (ofNat_lt_ten n), toChars_ofNat, Nat.ofDigitChars_toDigits (by decide) (by decide)]

theorem decimal_eq_add (whole fraction : List ℕ) : decimal whole fraction = number 10 whole + decimal [] fraction := by
  rw [decimal, number_append, decimal, List.nil_append]
  push_cast
  field_simp

theorem decimal_zeros_append (n : ℕ) (ds : List ℕ) :
    decimal [] (List.replicate n 0 ++ ds) = number 10 ds / 10 ^ (n + ds.length) := by
  rw [decimal, List.nil_append, number_append, number_zeros, Nat.zero_mul, Nat.zero_add, List.length_append,
    List.length_replicate]

/-- What is left over of a number in half powers, in powers of ten. -/
theorem value_fraction (m : Dyadic) : m.fraction.significand * 5 ^ (-m.exponent).toNat < 10 ^ (-m.exponent).toNat ∧
    m.fraction.value = (m.fraction.significand * 5 ^ (-m.exponent).toNat : ℕ) / 10 ^ (-m.exponent).toNat := by
  have hless : m.fraction.significand < 2 ^ (-m.exponent).toNat := by
    rw [Dyadic.fraction, Nat.shiftLeft_eq, Nat.one_mul]
    exact Nat.mod_lt _ (Nat.two_pow_pos _)
  constructor
  · calc m.fraction.significand * 5 ^ (-m.exponent).toNat
      _ < 2 ^ (-m.exponent).toNat * 5 ^ (-m.exponent).toNat :=
        Nat.mul_lt_mul_of_pos_right hless (Nat.pow_pos (by decide))
      _ = 10 ^ (-m.exponent).toNat := (Nat.mul_pow 2 5 _).symm
  · rcases Int.le_total 0 m.exponent with hexponent | hexponent
    · rw [show (-m.exponent).toNat = 0 by omega] at hless
      have hnone : m.fraction.significand = 0 := by omega
      rw [Dyadic.value_eq_zero hnone, hnone]
      simp
    · obtain ⟨k, hk⟩ := Int.exists_eq_neg_ofNat hexponent
      have hten : (10 : ℚ) ^ k = 2 ^ k * 5 ^ k := by
        rw [← mul_pow]
        norm_num
      rw [Dyadic.value, show m.fraction.exponent = m.exponent from rfl, hk, Int.neg_neg, Int.toNat_natCast, zpow_neg,
        zpow_natCast, hten]
      push_cast
      field_simp

/-- It is written out with as many digits as it has half powers. -/
theorem decimal_expand_fraction (m : Dyadic) :
    decimal [] (expand m).2 = m.fraction.value ∧ ∀ d ∈ (expand m).2, d < 10 := by
  obtain ⟨hless, hvalue⟩ := value_fraction m
  have hexpand : (expand m).2 =
      let rest := m.fraction.significand * 5 ^ (-m.exponent).toNat
      if rest == 0 then [] else padLeft (-m.exponent).toNat (ofNat rest) := rfl
  rw [hexpand, hvalue]
  generalize m.fraction.significand * 5 ^ (-m.exponent).toNat = rest at hless
  generalize (-m.exponent).toNat = k at hless
  dsimp only
  by_cases hzero : rest = 0
  · simp [hzero, decimal, number]
  · have hk : 0 < k := by
      refine Nat.pos_of_ne_zero fun hk => ?_
      rw [hk] at hless
      omega
    have hlength : (ofNat rest).length ≤ k := by
      rw [length_ofNat, Nat.length_toDigits_le_iff (by decide) hk]
      exact hless
    rw [if_neg (by simpa using hzero), padLeft, decimal_zeros_append, number_ofNat, Nat.sub_add_cancel hlength]
    exact ⟨rfl, Layout.append_lt_ten (Layout.zeros_lt_ten _) (ofNat_lt_ten _)⟩

/-- **A number has the digits that are written out.** -/
theorem decimal_expand (m : Dyadic) : decimal (expand m).1 (expand m).2 = m.value ∧ (expand m).1 ≠ [] ∧
    ∀ d ∈ (expand m).1 ++ (expand m).2, d < 10 := by
  obtain ⟨hvalue, hdigits⟩ := decimal_expand_fraction m
  have hwhole : (expand m).1 = ofNat m.floor := rfl
  refine ⟨?_, ?_, ?_⟩
  · rw [decimal_eq_add, hvalue, hwhole, number_ofNat, m.value_eq]
  · simp [hwhole, ofNat]
  · exact List.forall_mem_append.mpr ⟨hwhole ▸ ofNat_lt_ten _, hdigits⟩

/-- The digits from the leading one on are the same number. -/
theorem scaled_scientific (m : Dyadic) : Layout.scaled (scientific m).1 (scientific m).2 = m.value := by
  obtain ⟨hvalue, -⟩ := decimal_expand m
  unfold scientific
  rw [← hvalue]
  generalize expand m = digits
  obtain ⟨whole, fraction⟩ := digits
  dsimp only
  by_cases hwhole : whole = [0]
  · rw [hwhole, if_neg (by decide)]
    -- In front of the leading digit there are zeros only.
    have hzeros : List.replicate (fraction.takeWhile (· == 0)).length 0 ++ fraction.dropWhile (· == 0) = fraction := by
      have htaken : fraction.takeWhile (· == 0) = List.replicate (fraction.takeWhile (· == 0)).length 0 :=
        List.eq_replicate_iff.mpr ⟨rfl, fun d hd => by simpa using List.mem_takeWhile_imp hd⟩
      rw [← htaken, List.takeWhile_append_dropWhile]
    generalize (fraction.takeWhile (· == 0)).length = zeros at hzeros
    generalize fraction.dropWhile (· == 0) = ds at hzeros
    have hdecimal : decimal [0] fraction = number 10 ds / 10 ^ (zeros + ds.length) := by
      rw [decimal_eq_add, ← hzeros, decimal_zeros_append]
      simp [number]
    rw [hdecimal]
    cases ds with
    | nil => simp [Layout.scaled, number]
    | cons d ds =>
        have hexponent : -(zeros : ℤ) - 1 - ((d :: ds).length : ℤ) + 1 = -((zeros + (d :: ds).length : ℕ) : ℤ) := by
          push_cast
          ring
        rw [Layout.scaled, hexponent, zpow_neg, zpow_natCast, div_eq_mul_inv]
  · have hexponent : (whole.length : ℤ) - 1 - ((whole ++ fraction).length : ℤ) + 1 = -(fraction.length : ℤ) := by
      rw [List.length_append]
      push_cast
      ring
    rw [if_pos (by simpa using hwhole), Layout.scaled, hexponent, zpow_neg, zpow_natCast, decimal, div_eq_mul_inv]

/-- What the digits from the leading one on denote with a point behind that one. -/
theorem decimal_singleton (d : ℕ) (rest : List ℕ) (e : ℤ) :
    decimal [d] rest * 10 ^ e = Layout.scaled ([d] ++ rest) e := by
  rw [decimal, Layout.scaled, List.length_append, List.length_singleton]
  have hexponent : e - ((1 + rest.length : ℕ) : ℤ) + 1 = -(rest.length : ℤ) + e := by
    push_cast
    ring
  rw [hexponent, zpow_add₀ (by norm_num), zpow_neg, zpow_natCast]
  field_simp

/-- In the fixed form the rounded digits are written with a point between them, if there are any behind it. -/
theorem fixed_eq (m : Dyadic) (places : ℕ) : Layout.fixed m places =
    (Layout.numeral (roundHalfUp (expand m).1 (expand m).2 places).1 (roundHalfUp (expand m).1 (expand m).2 places).2
      none).text := by
  obtain ⟨-, -, hds⟩ := decimal_expand m
  have hplaces := (isRounded_roundHalfUp hds places).length_fraction
  rw [Layout.numeral_text]
  show (if places == 0 then toChars (roundHalfUp (expand m).1 (expand m).2 places).1
    else toChars (roundHalfUp (expand m).1 (expand m).2 places).1 ++
      '.' :: toChars (roundHalfUp (expand m).1 (expand m).2 places).2) = _
  generalize roundHalfUp (expand m).1 (expand m).2 places = rounded at hplaces
  by_cases hzero : places = 0
  · have hnil : rounded.2 = [] := List.length_eq_zero_iff.mp (hplaces.trans hzero)
    simp [hzero, hnil]
  · have hsome : rounded.2 ≠ [] := fun hnil => hzero (by rw [← hplaces, hnil]; rfl)
    simp [hzero, hsome]

/-- **Rounding is exact, and carries as far as it has to.**  Of the number that digits write with a point between
them, what comes out is the number of whole units of a place and half a unit more, counted in these units: a
proper literal with so many digits behind the point, and without a point if there are none.  In front of it there
are as many digits as before, and one more just if a carry runs out of all that are kept.  With one digit in front of
the point and a power of ten, what comes out is a digit and so many more behind it, of the same rounded number
times that power.  The digits that are written out for a number are all of it, so the fixed and the scientific
form round the number itself. -/
theorem rounding_is_exact (hne : whole ≠ []) (hds : ∀ d ∈ whole ++ fraction, d < 10) (places : ℕ) :
    let x := (Layout.numeral whole fraction none).value 10
    let y : ℚ := ⌊x * 10 ^ places + 1 / 2⌋₊ / 10 ^ places
    let sp := Layout.numeral (roundHalfUp whole fraction places).1 (roundHalfUp whole fraction places).2 none
    (sp.Proper ∧ sp.value 10 = y ∧
      sp.fraction.map List.length = (if places = 0 then none else some places) ∧
      sp.whole.length = if CarriesOut whole fraction places then whole.length + 1 else whole.length) ∧
    (∀ d e, whole = [d] → ∃ ds e', roundScientific (whole ++ fraction) e places = (ds, e') ∧
      ds.length = places + 1 ∧ (∀ c ∈ ds, c < 10) ∧ (d ≠ 0 → ds.head? ≠ some 0) ∧
      (number 10 ds : ℚ) * 10 ^ (e' - places) = y * 10 ^ e) ∧
    (∀ m, expand m = (whole, fraction) → x = m.value ∧ Layout.fixed m places = sp.text) ∧
    ∀ m d e, whole = [d] → scientific m = (whole ++ fraction, e) →
      x * 10 ^ e = m.value ∧ Layout.significant m places = roundScientific (whole ++ fraction) e places := by
  intro x y sp
  have hx : x = decimal whole fraction := value_numeral hds
  obtain ⟨happend, hfraction, hwhole⟩ := isRounded_roundHalfUp hds places
  have hdigits : ∀ d ∈ (roundHalfUp whole fraction places).1 ++ (roundHalfUp whole fraction places).2, d < 10 :=
    happend ▸ rounded_lt_ten hds
  have hy : y = ⌊decimal whole fraction * 10 ^ places + 1 / 2⌋₊ / 10 ^ places := by rw [← hx]
  refine ⟨⟨?_, ?_, ?_, ?_⟩, ?_, ?_, ?_⟩
  · obtain ⟨hfront, hbehind⟩ := List.forall_mem_append.mp hdigits
    refine Layout.numeral_proper hfront hbehind (fun hnil => ?_) none
    have hlength := congrArg List.length (List.append_eq_nil_iff.mp hnil).1
    have hpos := List.length_pos_iff.mpr hne
    rw [hwhole, List.length_nil] at hlength
    split at hlength <;> omega
  · rw [hy, ← number_rounded hds, ← happend]
    exact (value_numeral hdigits).trans (by rw [decimal, hfraction])
  · show ((Layout.behindPoint (roundHalfUp whole fraction places).2).map toChars).map List.length = _
    generalize (roundHalfUp whole fraction places).2 = behind at hfraction
    subst hfraction
    simp only [Layout.behindPoint, List.length_eq_zero_iff]
    split
    · rfl
    · simp [toChars]
  · show (toChars (roundHalfUp whole fraction places).1).length = _
    rw [toChars, List.length_map, hwhole]
  · rintro d e rfl
    rw [hy]
    exact roundScientific_eq hds e places
  · intro m hm
    obtain ⟨hvalue, -⟩ := decimal_expand m
    have hfixed := fixed_eq m places
    rw [hm] at hvalue hfixed
    exact ⟨hx.trans hvalue, hfixed⟩
  · rintro m d e rfl hm
    have hvalue := scaled_scientific m
    rw [hm, ← decimal_singleton] at hvalue
    refine ⟨by rw [hx, hvalue], ?_⟩
    rw [Layout.significant, hm]

/-- What is just below ten is written with a digit more in front of the point, and with another power. -/
theorem rounding_is_exact_carry : CarriesOut [9] [9, 6, 8, 7, 5] 1 ∧ Dyadic.value ⟨319, -5⟩ = 319 / 32 ∧
    Layout.fixed ⟨319, -5⟩ 1 = "10.0".toList ∧ (Layout.numeral [1, 0] [0] none).value 10 = 10 ∧
    ∃ ds e', Layout.significant ⟨319, -5⟩ 1 = (ds, e') ∧ ds.length = 2 ∧ (number 10 ds : ℚ) * 10 ^ (e' - 1) = 10 := by
  obtain ⟨⟨-, hrounded, -, -⟩, hpower, hfixed, hsignificant⟩ :=
    @rounding_is_exact [9] [9, 6, 8, 7, 5] (by decide) (by decide) 1
  have hm : expand ⟨319, -5⟩ = ([9], [9, 6, 8, 7, 5]) := by decide
  have hround : roundHalfUp [9] [9, 6, 8, 7, 5] 1 = ([1, 0], [0]) := by decide
  have hvalue : Dyadic.value ⟨319, -5⟩ = 319 / 32 := by norm_num [Dyadic.value]
  obtain ⟨hx, htext⟩ := hfixed _ hm
  obtain ⟨-, hsame⟩ := hsignificant ⟨319, -5⟩ 9 0 rfl (by decide)
  obtain ⟨ds, e', hds, hlength, -, -, hnumber⟩ := hpower 9 0 rfl
  have hten : ⌊(319 / 32 : ℚ) * 10 ^ 1 + 1 / 2⌋₊ = 100 := by
    rw [Nat.floor_eq_iff (by norm_num)]
    norm_num
  rw [hx, hvalue, hten] at hrounded hnumber
  rw [hround] at hrounded htext
  refine ⟨by decide, hvalue, htext.trans (by decide), ?_, ds, e', hsame.trans hds, hlength, ?_⟩
  · rw [hrounded]
    norm_num
  · rw [Nat.cast_one] at hnumber
    rw [hnumber]
    norm_num

end Digits

end Stepwise
