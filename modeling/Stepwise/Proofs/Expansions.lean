/-
Numbers in radix two.

Nothing is rounded there.  A whole number that a double holds is halved exactly (`truncQuotient_two`), so the
digits in front of the point are all those of the whole part; a fraction is doubled exactly (`value_scale_two`),
so each digit behind the point is the right one.  But there are fifty-two of these at most, and they are counted
from the point and not from the first digit that is not zero.  So a text denotes its number cut off at the
fifty-second place (`Numeral.binary_text_is_cut`), and a number that has digits beyond it is not what is written.
-/
import Mathlib.Algebra.Order.Field.Power
import Mathlib.Data.Rat.Floor
import Mathlib.Tactic.LinearCombination
import Stepwise.Builtin.Numeral
import Stepwise.Proofs.Layouts
import Stepwise.Proofs.Roundings

namespace Stepwise

open Digits Decimal

/-! ### What a number is -/

namespace Dyadic

/-- The number itself. -/
def value (x : Dyadic) : ℚ := x.significand * 2 ^ x.exponent

variable {x : Dyadic}

theorem value_nonneg (x : Dyadic) : 0 ≤ x.value := by
  unfold value
  positivity

/-- A number is its whole part and what that leaves over. -/
theorem value_eq (x : Dyadic) : x.value = x.floor + x.fraction.value := by
  unfold value fraction
  rw [Nat.shiftLeft_eq, Nat.one_mul]
  rcases Int.le_total 0 x.exponent with hexponent | hexponent
  · obtain ⟨k, hk⟩ := Int.eq_ofNat_of_zero_le hexponent
    rw [floor_of_nonneg hexponent, hk]
    simp [Nat.mod_one]
  · obtain ⟨k, hk⟩ := Int.exists_eq_neg_ofNat hexponent
    rw [floor_of_nonpos hexponent, hk, Int.neg_neg, Int.toNat_natCast, zpow_neg, zpow_natCast]
    have hsplit : (x.significand : ℚ) = 2 ^ k * (x.significand / 2 ^ k : ℕ) + (x.significand % 2 ^ k : ℕ) := by
      exact_mod_cast (Nat.div_add_mod x.significand (2 ^ k)).symm
    rw [hsplit]
    field_simp

/-- Less than one is left over. -/
theorem value_fraction_lt_one (x : Dyadic) : x.fraction.value < 1 := by
  unfold value fraction
  rw [Nat.shiftLeft_eq, Nat.one_mul]
  rcases Int.le_total 0 x.exponent with hexponent | hexponent
  · rw [show (-x.exponent).toNat = 0 by omega]
    simp [Nat.mod_one]
  · obtain ⟨k, hk⟩ := Int.exists_eq_neg_ofNat hexponent
    rw [hk, Int.neg_neg, Int.toNat_natCast, zpow_neg, zpow_natCast, ← div_eq_mul_inv, div_lt_one (by positivity)]
    exact_mod_cast Nat.mod_lt x.significand (Nat.two_pow_pos k)

/-- A number cut off at some place is its whole part and what that leaves over, cut off there. -/
theorem floor_value_mul (x : Dyadic) (count : ℕ) :
    ⌊x.value * 2 ^ count⌋₊ = x.floor * 2 ^ count + ⌊x.fraction.value * 2 ^ count⌋₊ := by
  have hshift : x.value * 2 ^ count = x.fraction.value * 2 ^ count + (x.floor * 2 ^ count : ℕ) := by
    push_cast
    linear_combination 2 ^ count * value_eq x
  have hnonneg := value_nonneg x.fraction
  rw [hshift, Nat.floor_add_natCast (by positivity), Nat.add_comm]

theorem significand_fraction_lt {n : ℕ} (h : x.significand < n) : x.fraction.significand < n :=
  Nat.lt_of_le_of_lt (Nat.mod_le _ _) h

theorem value_eq_zero (h : x.significand = 0) : x.value = 0 := by
  rw [value, h]
  simp

/-- A multiple is divided exactly. -/
theorem divNearest_mul {d : ℕ} (hd : 0 < d) (q : ℕ) : divNearest (q * d) d = q := by
  unfold divNearest
  dsimp only
  rw [Nat.mul_mod_left, Nat.mul_div_cancel q hd, if_pos (by omega)]

/-- **A double is doubled exactly**, and stays one. -/
theorem value_scale_two (h : x.significand < 2 ^ 53) :
    (x.scale 2).value = 2 * x.value ∧ (x.scale 2).significand < 2 ^ 53 := by
  unfold scale round precision
  dsimp only
  by_cases hmore : x.significand * 2 < 2 ^ 53
  · have hle := bitLength_le_iff.mpr hmore
    rw [show bitLength (x.significand * 2) - 53 = 0 by omega, Nat.shiftLeft_zero, divNearest_one]
    refine ⟨?_, hmore⟩
    unfold value
    push_cast
    rw [Int.add_zero]
    ring
  · have hle : bitLength (x.significand * 2) ≤ 54 := bitLength_le_iff.mpr (by omega)
    have hnot := mt bitLength_le_iff.mp hmore
    rw [show bitLength (x.significand * 2) - 53 = 1 by omega]
    have hhalf : divNearest (x.significand * 2) (1 <<< 1) = x.significand := divNearest_mul (by decide) _
    rw [hhalf]
    refine ⟨?_, h⟩
    unfold value
    push_cast
    rw [zpow_add_one₀ (by norm_num)]
    ring

/-- A number that is not below one has no more than fifty-two places behind the point. -/
theorem exists_places (h : x.significand < 2 ^ 53) (hone : 1 ≤ x.value) : ∃ k : ℕ, x.value * 2 ^ 52 = k := by
  have hexponent : -52 ≤ x.exponent := by
    by_contra hsmall
    have hpow : (2 : ℚ) ^ x.exponent ≤ 2 ^ (-53 : ℤ) := zpow_le_zpow_right₀ (by norm_num) (by omega)
    have hlt : (x.significand : ℚ) < 2 ^ 53 := by exact_mod_cast h
    have hbelow : x.value < 1 := by
      calc x.value ≤ x.significand * 2 ^ (-53 : ℤ) := mul_le_mul_of_nonneg_left hpow (Nat.cast_nonneg _)
        _ < 2 ^ 53 * 2 ^ (-53 : ℤ) := by
          apply mul_lt_mul_of_pos_right hlt
          positivity
        _ = 1 := by norm_num
    exact absurd hone (not_le.mpr hbelow)
  obtain ⟨k, hk⟩ := Int.eq_ofNat_of_zero_le (show 0 ≤ x.exponent + 52 by omega)
  refine ⟨x.significand * 2 ^ k, ?_⟩
  have hpow : (2 : ℚ) ^ x.exponent * 2 ^ 52 = 2 ^ k := by
    rw [← zpow_natCast 2 52, ← zpow_add₀ (by norm_num), ← zpow_natCast 2 k]
    exact congrArg _ hk
  rw [value, mul_assoc, hpow]
  push_cast
  rfl

end Dyadic

/-! ### The digits -/

namespace Whole

variable {n : ℕ}

theorem IsHeld.half (hn : IsHeld n) : IsHeld (n / 2) := by
  obtain ⟨digits, zeros, hdigits, rfl⟩ := hn
  cases zeros with
  | zero => exact ⟨digits * 2 ^ 0 / 2, 0, by omega, by omega⟩
  | succ zeros =>
      refine ⟨digits, zeros, hdigits, ?_⟩
      rw [Nat.pow_succ, ← Nat.mul_assoc, Nat.mul_div_cancel _ (by decide)]

/-- Where the last digit of a half stands, there is nothing to round. -/
theorem lastPlace_two (n : ℕ) : Dyadic.lastPlace n 2 ≤ Dyadic.bitLength n - 54 := by
  have htwo : (Dyadic.bitLength 2 : ℤ) = 2 := by decide
  unfold Dyadic.lastPlace Dyadic.precision
  rw [htwo]
  dsimp only
  split <;> omega

/-- **A whole number that a double holds is halved exactly**, and the half cut off. -/
theorem truncQuotient_two (hn : IsHeld n) : Dyadic.truncQuotient n 2 = n / 2 := by
  have hplace := lastPlace_two n
  rw [Dyadic.truncQuotient, Dyadic.ofQuotient]
  generalize Dyadic.lastPlace n 2 = e at hplace
  rcases Int.lt_or_le e 0 with hneg | hpos
  · -- The half is counted in halves or smaller units.
    obtain ⟨k, rfl⟩ : ∃ k : ℕ, e = -((k + 1 : ℕ) : ℤ) := ⟨(-e - 1).toNat, by omega⟩
    have hquotient : Dyadic.quotientAt n 2 (-((k + 1 : ℕ) : ℤ)) = n * 2 ^ k := by
      rw [Dyadic.quotientAt, Int.neg_neg, Int.toNat_natCast, Int.toNat_neg_natCast, Nat.shiftLeft_zero,
        Nat.shiftLeft_eq, Nat.pow_succ, ← Nat.mul_assoc, Dyadic.divNearest_mul (by decide)]
    rw [hquotient, Dyadic.floor_of_nonpos (by dsimp only; omega)]
    dsimp only
    rw [Int.neg_neg, Int.toNat_natCast, Nat.pow_succ, Nat.mul_comm (2 ^ k) 2,
      Nat.mul_div_mul_right _ _ (Nat.two_pow_pos k)]
  · -- There are so many zeros at the end that the half is a multiple of the unit.
    obtain ⟨k, rfl⟩ := Int.eq_ofNat_of_zero_le hpos
    have hlarge : 2 ^ (52 + (k + 1)) ≤ n := by
      rw [← Nat.not_lt, ← Dyadic.bitLength_le_iff]
      omega
    obtain ⟨q, rfl⟩ := hn.dvd hlarge
    have hpow : 2 <<< k = 2 ^ (k + 1) := by rw [Nat.shiftLeft_eq, Nat.pow_succ, Nat.mul_comm]
    have hquotient : Dyadic.quotientAt (2 ^ (k + 1) * q) 2 k = q := by
      rw [Dyadic.quotientAt, Int.toNat_neg_natCast, Int.toNat_natCast, Nat.shiftLeft_zero, hpow, Nat.mul_comm,
        Dyadic.divNearest_mul (Nat.two_pow_pos _)]
    rw [hquotient, Dyadic.floor_of_nonneg (Int.natCast_nonneg k)]
    dsimp only
    rw [Int.toNat_natCast, Nat.pow_succ, Nat.mul_right_comm, Nat.mul_div_cancel _ (by decide), Nat.mul_comm]

end Whole

namespace Radix

/-- The digits of a whole number are all put in front. -/
theorem wholeDigits_two {fuel n : ℕ} (hn : Whole.IsHeld n) (hfuel : n < 2 ^ fuel) (acc : List ℕ) :
    ∃ ds, wholeDigits 2 fuel n acc = ds ++ acc ∧ (∀ d ∈ ds, d < 2) ∧ number 2 ds = n := by
  induction fuel generalizing n acc with
  | zero => exact ⟨[], rfl, by simp, by rw [Nat.lt_one_iff.mp hfuel]; rfl⟩
  | succ fuel ih =>
      rw [wholeDigits]
      split
      · rename_i hzero
        exact ⟨[], rfl, by simp, (eq_of_beq hzero).symm⟩
      · rw [Whole.truncQuotient_two hn]
        obtain ⟨ds, hds, hlt, hnumber⟩ := ih hn.half (by omega) (n % 2 :: acc)
        refine ⟨ds ++ [n % 2], by rw [hds, List.append_assoc, List.singleton_append], ?_, ?_⟩
        · intro d hd
          rcases List.mem_append.mp hd with hd | hd
          · exact hlt d hd
          · rw [List.mem_singleton.mp hd]
            exact Nat.mod_lt _ (by decide)
        · rw [number_append, hnumber]
          show n / 2 * 2 ^ 1 + (n % 2 + 2 * 0) = n
          omega

/-- **The digits behind the point are the right ones, as far as they go**: they make up the number cut off at
the last place there is room for. -/
theorem fractionDigits_two {count : ℕ} {x : Dyadic} (hx : x.significand < 2 ^ 53) (hone : x.value < 1) :
    (∀ d ∈ fractionDigits 2 count x, d < 2) ∧
    (number 2 (fractionDigits 2 count x) : ℚ) / 2 ^ (fractionDigits 2 count x).length =
      (⌊x.value * 2 ^ count⌋₊ : ℚ) / 2 ^ count := by
  induction count generalizing x with
  | zero =>
      have hfloor : ⌊x.value * 2 ^ 0⌋₊ = 0 := Nat.floor_eq_zero.mpr (by simpa using hone)
      rw [hfloor]
      simp [fractionDigits, number]
  | succ count ih =>
      obtain ⟨hvalue, hsignificand⟩ := Dyadic.value_scale_two hx
      have hrest := Dyadic.significand_fraction_lt hsignificand
      have hbelow := Dyadic.value_fraction_lt_one (x.scale 2)
      have hd : (x.scale 2).floor < 2 := by
        have hsplit := Dyadic.value_eq (x.scale 2)
        have hnonneg := Dyadic.value_nonneg (x.scale 2).fraction
        have hlt : ((x.scale 2).floor : ℚ) < 2 := by linarith
        exact_mod_cast hlt
      -- One place more is one digit in front of those of what is left over.
      have hfloor := Dyadic.floor_value_mul (x.scale 2) count
      rw [show (x.scale 2).value * 2 ^ count = x.value * 2 ^ (count + 1) by rw [hvalue]; ring] at hfloor
      rw [fractionDigits, hfloor]
      generalize (x.scale 2).floor = d at hd
      generalize (x.scale 2).fraction = rest at hrest hbelow
      split
      · rename_i hzero
        rw [Dyadic.value_eq_zero (eq_of_beq hzero)]
        refine ⟨by simpa using hd, ?_⟩
        simp [number, pow_succ]
        field_simp
      · obtain ⟨hlt, hdigits⟩ := ih hrest hbelow
        refine ⟨List.forall_mem_cons.mpr ⟨hd, hlt⟩, ?_⟩
        rw [number_cons, List.length_cons, pow_succ, pow_succ]
        push_cast
        rw [← div_div, ← div_div, add_div, add_div, hdigits]
        field_simp

/-- The digits of a magnitude. -/
theorem digits_two {x : Dyadic} (hx : x.significand < 2 ^ 53) : ∃ whole fraction : List ℕ,
    digits 2 x = (whole, fraction) ∧ whole ≠ [] ∧ (∀ d ∈ whole, d < 2) ∧ (∀ d ∈ fraction, d < 2) ∧
    number 2 whole = x.floor ∧ (number 2 fraction : ℚ) / 2 ^ fraction.length =
      (⌊x.fraction.value * 2 ^ maxFractionDigits⌋₊ : ℚ) / 2 ^ maxFractionDigits := by
  obtain ⟨ds, hds, hlt, hnumber⟩ :=
    wholeDigits_two (Whole.isHeld_floor hx) (Dyadic.bitLength_le_iff.mp (Nat.le_refl _)) []
  rw [List.append_nil] at hds
  -- Zero has a digit in front of the point.
  obtain ⟨whole, hwhole, hne, hwholeLt, hwholeNumber⟩ : ∃ whole,
      (if ds.isEmpty then [0] else ds) = whole ∧ whole ≠ [] ∧ (∀ d ∈ whole, d < 2) ∧ number 2 whole = x.floor := by
    cases ds with
    | nil => exact ⟨[0], rfl, by simp, by simp, hnumber⟩
    | cons d ds => exact ⟨d :: ds, rfl, by simp, hlt, hnumber⟩
  rw [digits, hds, hwhole]
  by_cases hzero : x.isWhole = true
  · refine ⟨whole, [], by rw [if_pos hzero], hne, hwholeLt, by simp, hwholeNumber, ?_⟩
    rw [Dyadic.value_eq_zero (eq_of_beq hzero)]
    simp [number]
  · obtain ⟨hfractionLt, hfractionNumber⟩ :=
      fractionDigits_two (Dyadic.significand_fraction_lt hx) (Dyadic.value_fraction_lt_one x)
    exact ⟨whole, _, by rw [if_neg hzero], hne, hwholeLt, hfractionLt, hwholeNumber, hfractionNumber⟩

/-- **A text in radix two denotes the number cut off at the last place there is room for.** -/
theorem text_two {x : Dyadic} (hx : x.significand < 2 ^ 53) : ∃ whole fraction : List ℕ,
    text 2 x = (Layout.numeral whole fraction none).text ∧ whole ≠ [] ∧ (∀ d ∈ whole ++ fraction, d < 2) ∧
    (Layout.numeral whole fraction none).value 2 =
      (⌊x.value * 2 ^ maxFractionDigits⌋₊ : ℚ) / 2 ^ maxFractionDigits := by
  obtain ⟨whole, fraction, hdigits, hne, hwhole, hfraction, hnumber, hplaces⟩ := digits_two hx
  refine ⟨whole, fraction, ?_, hne, fun d hd => (List.mem_append.mp hd).elim (hwhole d) (hfraction d), ?_⟩
  · rw [text, hdigits, Layout.numeral_text]
    simp
  · rw [Layout.numeral_value (fun d hd => Nat.lt_trans (hwhole d hd) (by decide))
      (fun d hd => Nat.lt_trans (hfraction d hd) (by decide)), number_append, hnumber, Dyadic.floor_value_mul]
    push_cast
    rw [Option.getD_none, zero_sub, zpow_neg, zpow_natCast, ← div_eq_mul_inv, add_div, add_div, hplaces]
    field_simp

end Radix

/-! ### The texts -/

namespace Decimal.Spelling

/-- The same literal with a minus sign where it is due. -/
def signed (negative : Bool) (sp : Spelling) : Spelling := if negative then { sp with sign := some true } else sp

variable {sp : Spelling} {negative : Bool}

theorem signed_proper (h : sp.Proper) : (sp.signed negative).Proper := by
  unfold signed
  split
  · exact ⟨h.whole, h.fraction, h.some_digit, h.power⟩
  · exact h

theorem signed_text (hsign : sp.sign = none) :
    (sp.signed negative).text = if negative then '-' :: sp.text else sp.text := by
  unfold signed
  split
  · rw [text, text, hsign]
    rfl
  · rfl

theorem signed_value (hsign : sp.sign = none) (radix : ℕ) :
    (sp.signed negative).value radix = if negative then -sp.value radix else sp.value radix := by
  unfold signed
  split
  · simp [value, exponent, withSign, hsign]
  · rfl

theorem signed_digits (negative : Bool) (sp : Spelling) : (sp.signed negative).whole = sp.whole ∧ (sp.signed negative).fraction = sp.fraction ∧
    (sp.signed negative).power = sp.power := by
  unfold signed
  split <;> exact ⟨rfl, rfl, rfl⟩

end Decimal.Spelling

namespace Numeral

variable {n : Float} {negative : Bool} {m : Dyadic}

/-- A magnitude with its sign. -/
def signedValue (negative : Bool) (v : ℚ) : ℚ := if negative then -v else v

theorem signedValue_inj {v w : ℚ} : signedValue negative v = signedValue negative w ↔ v = w := by
  cases negative
  · exact Iff.rfl
  · exact neg_inj

/-- Zero is written without its sign. -/
theorem signedValue_isBelowZero {v : ℚ} (hv : m.significand = 0 → v = 0) :
    (if isBelowZero negative m then -v else v) = signedValue negative v := by
  unfold isBelowZero signedValue
  by_cases hzero : m.significand = 0
  · simp [hv hzero]
  · simp [hzero]

theorem toChar_two {d : ℕ} (hd : d < 2) : toChar d = '0' ∨ toChar d = '1' :=
  (by decide : ∀ d < 2, toChar d = '0' ∨ toChar d = '1') d hd

/-- The text in radix two is that of a magnitude, with its sign. -/
theorem inRadix_two (h : Double.parts n = .finite negative m) :
    inRadix n 2.0 = .ok (Layout.signed (isBelowZero negative m) (Radix.text 2 m)) := by
  have hwithin : within 2.0 36.0 2.0 = true := by decide
  have hten : ((2.0 : Float) == 10.0) = false := by decide
  have hradix : Double.clamp 2.0 36 = 2 := by decide
  rw [inRadix, hwithin, h, hradix, hten]
  rfl

/-- What is written in radix two. -/
theorem exists_binary_spelling (h : Double.parts n = .finite negative m) :
    ∃ sp : Spelling, sp.Proper ∧ sp.power = none ∧
    (∀ c ∈ sp.whole ++ sp.fraction.getD [], c = '0' ∨ c = '1') ∧ inRadix n 2.0 = .ok (String.ofList sp.text) ∧
    sp.value 2 = signedValue negative (⌊m.value * 2 ^ 52⌋₊ / 2 ^ 52) := by
  obtain ⟨whole, fraction, htext, hne, hlt, hvalue⟩ := Radix.text_two (Double.significand_lt h)
  obtain ⟨hwhole, hfraction, hpower⟩ := Decimal.Spelling.signed_digits (isBelowZero negative m)
    (Layout.numeral whole fraction none)
  refine ⟨(Layout.numeral whole fraction none).signed (isBelowZero negative m), ?_, hpower, ?_, ?_, ?_⟩
  · refine Decimal.Spelling.signed_proper (Layout.numeral_proper ?_ ?_ ?_ none)
    · exact fun d hd => Nat.lt_trans (hlt d (List.mem_append_left _ hd)) (by decide)
    · exact fun d hd => Nat.lt_trans (hlt d (List.mem_append_right _ hd)) (by decide)
    · simp [hne]
  · rw [hwhole, hfraction]
    show ∀ c ∈ toChars whole ++ ((Layout.behindPoint fraction).map toChars).getD [], c = '0' ∨ c = '1'
    rw [Layout.getD_behindPoint, ← Layout.toChars_append]
    intro c hc
    obtain ⟨d, hd, rfl⟩ := List.mem_map.mp hc
    exact toChar_two (hlt d hd)
  · rw [inRadix_two h, htext, Layout.signed, Decimal.Spelling.signed_text rfl]
  · rw [Decimal.Spelling.signed_value rfl, hvalue]
    refine signedValue_isBelowZero fun hzero => ?_
    rw [Dyadic.value_eq_zero hzero]
    simp

/-- **A text in radix two denotes its number as far as there is room for digits.**  Of every finite double the
text is a literal of binary digits without a power, and what it denotes is the number cut off at the
fifty-second place behind the point.  So it denotes the number itself just if there are no digits beyond that
place, and there never are any in a number that is not below one. -/
theorem binary_text_is_cut (h : Double.parts n = .finite negative m) : ∃ sp : Spelling, sp.Proper ∧ sp.power = none ∧
    (∀ c ∈ sp.whole ++ sp.fraction.getD [], c = '0' ∨ c = '1') ∧
    (∀ s : Heap, method s .toText (.number n) [.number 2.0] = .ok (.string (String.ofList sp.text))) ∧
    sp.value 2 = signedValue negative (⌊m.value * 2 ^ 52⌋₊ / 2 ^ 52) ∧
    (sp.value 2 = signedValue negative m.value ↔ ∃ k : ℕ, m.value * 2 ^ 52 = k) ∧
    (1 ≤ m.value → sp.value 2 = signedValue negative m.value) := by
  obtain ⟨sp, hproper, hpower, hdigits, htext, hvalue⟩ := exists_binary_spelling h
  have hexact : sp.value 2 = signedValue negative m.value ↔ ∃ k : ℕ, m.value * 2 ^ 52 = k := by
    rw [hvalue, signedValue_inj, div_eq_iff (by norm_num)]
    constructor
    · exact fun hwhole => ⟨_, hwhole.symm⟩
    · rintro ⟨k, hk⟩
      rw [hk, Nat.floor_natCast]
  refine ⟨sp, hproper, hpower, hdigits, fun s => ?_, hvalue, hexact, fun hone => ?_⟩
  · show (do return Value.string (← inRadix n (s.wholeArgument [.number 2.0] 0 10.0))) = _
    have hradix : s.wholeArgument [.number 2.0] 0 10.0 = 2.0 := by
      show (if Float.isNaN 2.0 then 0.0 else Double.trunc 2.0) = 2.0
      decide
    rw [hradix, htext]
    rfl
  · exact hexact.mpr (Dyadic.exists_places (Double.significand_lt h) hone)

/-- Two and a half is written as `10.1`. -/
theorem binary_text_of_two_and_a_half : ∃ sp : Spelling, sp.Proper ∧ sp.value 2 = 5 / 2 ∧
    ∀ s : Heap, method s .toText (.number 2.5) [.number 2.0] = .ok (.string (String.ofList sp.text)) := by
  have hparts : Double.parts 2.5 = .finite false ⟨5 * 2 ^ 50, -51⟩ := by rfl
  have hvalue : Dyadic.value ⟨5 * 2 ^ 50, -51⟩ = 5 / 2 := by norm_num [Dyadic.value]
  obtain ⟨sp, hproper, -, -, htext, -, -, hexact⟩ := binary_text_is_cut hparts
  refine ⟨sp, hproper, ?_, htext⟩
  rw [hexact (by rw [hvalue]; norm_num), hvalue]
  rfl

/-- One tenth has its last digit at the fifty-fifth place, and loses it. -/
theorem tenth_loses_digits : ¬∀ n negative m, Double.parts n = .finite negative m → ∃ sp : Spelling, sp.Proper ∧
    inRadix n 2.0 = .ok (String.ofList sp.text) ∧ sp.value 2 = signedValue negative m.value := by
  intro hall
  have hparts : Double.parts 0.1 = .finite false ⟨7205759403792794, -56⟩ := by
    rw [show (0.1 : Float) = Float.ofBits 0x3fb999999999999a by decide]
    rfl
  obtain ⟨sp, hproper, htext, hexact⟩ := hall _ _ _ hparts
  obtain ⟨sp', hproper', -, -, htext', hcut⟩ := exists_binary_spelling hparts
  have hsame : sp.text = sp'.text := String.ofList_injective (Except.ok.inj (htext.symm.trans htext'))
  have hfloor : ⌊Dyadic.value ⟨7205759403792794, -56⟩ * 2 ^ 52⌋₊ = 450359962737049 := by
    rw [Nat.floor_eq_iff (mul_nonneg (Dyadic.value_nonneg _) (by norm_num))]
    norm_num [Dyadic.value]
  rw [Spelling.eq_of_text_eq hproper hproper' hsame, hcut, signedValue_inj, hfloor] at hexact
  norm_num [Dyadic.value] at hexact

end Numeral

end Stepwise
