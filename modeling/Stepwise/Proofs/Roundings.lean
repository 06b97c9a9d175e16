/-
Whole numbers that are rounded.

The arithmetic of dates is that of doubles.  Below `2 ^ 53` every whole number is a double, and nothing
is rounded (`round?_eq`).  A quotient is a double too, and is rounded before it is brought down to a
whole number.  How far a quotient by twelve can be from the next whole number depends on the
digits that its dividend has: the further left its last digit stands, the larger is the step from one
quotient to the next, and so also the least distance of a quotient that is not whole.  It stays larger than what
rounding adds up to the dividend `3 · 2 ^ 54`, and not for the next one (`floorQuotient_twelve`).
-/
import Stepwise.Calendar.Time
import Stepwise.Proofs.Positions

namespace Stepwise

/-! ### The nearest whole number -/

namespace Dyadic

/-- Nearest is at most a half away. -/
theorem divNearest_twelve (n : Nat) : 12 * divNearest n 12 ≤ n + 6 ∧ n ≤ 12 * divNearest n 12 + 6 := by
  unfold divNearest
  dsimp only
  split
  · omega
  · split <;> omega

theorem divNearest_one (n : Nat) : divNearest n 1 = n := by
  unfold divNearest
  dsimp only
  rw [Nat.div_one, Nat.mod_one]
  rfl

theorem bitLength_le_iff {n k : Nat} : bitLength n ≤ k ↔ n < 2 ^ k := by
  unfold bitLength
  split
  · rename_i hzero
    exact iff_of_true (Nat.zero_le k) (hzero ▸ Nat.two_pow_pos k)
  · rename_i hpos
    rw [← Nat.log2_lt hpos]
    omega

end Dyadic

namespace Whole

/-- **A whole number below `2 ^ 53` is not rounded.** -/
theorem round?_eq {i : Int} (h : i.natAbs < 2 ^ 53) : round? i = some i := by
  have hlength : Dyadic.bitLength i.natAbs - Dyadic.precision = 0 := by
    have hle := Dyadic.bitLength_le_iff.mpr h
    unfold Dyadic.precision
    omega
  have hround : Dyadic.round ⟨i.natAbs, 0⟩ = ⟨i.natAbs, 0⟩ := by
    rw [Dyadic.round, hlength]
    show Dyadic.mk (Dyadic.divNearest i.natAbs 1) 0 = _
    rw [Dyadic.divNearest_one]
  have hfloor : Dyadic.floor ⟨i.natAbs, 0⟩ = i.natAbs := rfl
  have hbound : ¬1 <<< 1024 ≤ i.natAbs := by
    have hpow : 2 ^ 53 ≤ 1 <<< 1024 := by decide
    omega
  unfold round?
  rw [hround, hfloor]
  dsimp only
  rw [if_neg hbound]
  split <;> exact congrArg some (by omega)

/-! ### Quotients by twelve -/

/-- A quotient by twelve counted in units that are small enough for the digits of the dividend: what is not
whole is not rounded to a whole number, nor beyond one. -/
theorem units_of_twelfth {a k g : Nat} (htwelve : g ∣ 12) (ha : g ∣ a) (hk : 6 < g * 2 ^ k) :
    ∃ rest, Dyadic.divNearest (a <<< k) 12 = a / 12 * 2 ^ k + rest ∧ rest < 2 ^ k ∧ (rest = 0 ↔ a % 12 = 0) := by
  obtain ⟨hlow, hhigh⟩ := Dyadic.divNearest_twelve (a <<< k)
  rw [Nat.shiftLeft_eq] at hlow hhigh ⊢
  have hsplit : a * 2 ^ k = 12 * (a / 12 * 2 ^ k) + a % 12 * 2 ^ k := by
    rw [← Nat.mul_assoc, ← Nat.add_mul, Nat.div_add_mod]
  have hrest : g ∣ a % 12 := (Nat.dvd_mod_iff htwelve).mpr ha
  -- The remainder is zero, or it is a step away both from zero and from twelve.
  have hsteps : a % 12 = 0 ∨ g * 2 ^ k ≤ a % 12 * 2 ^ k ∧ a % 12 * 2 ^ k + g * 2 ^ k ≤ 12 * 2 ^ k := by
    rcases Nat.eq_zero_or_pos (a % 12) with hzero | hpos
    · exact .inl hzero
    · refine .inr ⟨Nat.mul_le_mul_right _ (Nat.le_of_dvd hpos hrest), ?_⟩
      rw [← Nat.add_mul]
      refine Nat.mul_le_mul_right _ ?_
      have hlt : a % 12 < 12 := Nat.mod_lt _ (by decide)
      have hleft : g ∣ 12 - a % 12 := Nat.dvd_sub htwelve hrest
      have hle := Nat.le_of_dvd (by omega) hleft
      omega
  have hpow := Nat.two_pow_pos k
  generalize a * 2 ^ k = scaled at hlow hhigh hsplit ⊢
  generalize a / 12 * 2 ^ k = whole at hsplit ⊢
  generalize Dyadic.divNearest scaled 12 = nearest at hlow hhigh ⊢
  rcases hsteps with hzero | ⟨hfirst, hlast⟩
  · rw [hzero, Nat.zero_mul] at hsplit
    exact ⟨0, by omega, hpow, iff_of_true rfl hzero⟩
  · refine ⟨nearest - whole, by omega, by omega, iff_of_false (by omega) ?_⟩
    intro hzero
    rw [hzero, Nat.zero_mul] at hfirst
    omega

/-- A whole number that a double holds: fifty-three digits, and zeros behind them. -/
def IsHeld (a : Nat) : Prop := ∃ digits zeros, digits < 2 ^ 53 ∧ a = digits * 2 ^ zeros

/-- The whole part of a double is one. -/
theorem isHeld_floor {m : Dyadic} (h : m.significand < 2 ^ 53) : IsHeld m.floor := by
  rcases Int.le_total 0 m.exponent with hexponent | hexponent
  · exact ⟨m.significand, m.exponent.toNat, h, Dyadic.floor_of_nonneg hexponent⟩
  · refine ⟨m.floor, 0, ?_, (Nat.mul_one _).symm⟩
    rw [Dyadic.floor_of_nonpos hexponent]
    exact Nat.lt_of_le_of_lt (Nat.div_le_self _ _) h

/-- The further left the first digit stands, the further left stands the last one. -/
theorem IsHeld.dvd {a k : Nat} (ha : IsHeld a) (hle : 2 ^ (52 + k) ≤ a) : 2 ^ k ∣ a := by
  obtain ⟨digits, zeros, hdigits, rfl⟩ := ha
  refine Nat.dvd_mul_left_of_dvd (Nat.pow_dvd_pow 2 ?_) digits
  by_contra hfew
  have hzeros : 2 ^ (zeros + 1) ≤ 2 ^ k := Nat.pow_le_pow_right (by decide) (by omega)
  have hlt : digits * 2 ^ zeros < 2 ^ 53 * 2 ^ zeros := Nat.mul_lt_mul_of_pos_right hdigits (Nat.two_pow_pos _)
  have hmore : 2 ^ 53 * 2 ^ zeros ≤ 2 ^ (52 + k) := by
    rw [← Nat.pow_add]
    exact Nat.pow_le_pow_right (by decide) (by omega)
  omega

/-- The greatest dividend up to which quotients by twelve are brought down to the right whole number. -/
def twelfthBound : Nat := 3 * 2 ^ 54

theorem lastPlace_cases (a : Nat) : Dyadic.lastPlace a 12 = Dyadic.bitLength a - 57 ∨
    Dyadic.lastPlace a 12 = Dyadic.bitLength a - 56 ∧ ¬(Dyadic.bitLength a = 56 ∧ a < twelfthBound) := by
  have htwelve : (Dyadic.bitLength 12 : Int) = 4 := by decide
  unfold Dyadic.lastPlace Dyadic.precision
  rw [htwelve]
  dsimp only
  split
  · exact .inl (by omega)
  · rename_i hmore
    refine .inr ⟨by omega, ?_⟩
    rintro ⟨hlength, hlt⟩
    apply hmore
    rw [hlength]
    show a <<< 1 / 12 < 2 ^ 53
    unfold twelfthBound at hlt
    rw [Nat.shiftLeft_eq]
    omega

/-- The units of a quotient by twelve are small enough. -/
theorem exists_units {a : Nat} (ha : IsHeld a) (hle : a ≤ twelfthBound) : ∃ k g : Nat,
    Dyadic.lastPlace a 12 = -k ∧ g ∣ 12 ∧ g ∣ a ∧ 6 < g * 2 ^ k := by
  rcases Nat.lt_or_eq_of_le hle with hlt | rfl
  · have hlength : Dyadic.bitLength a ≤ 56 := Dyadic.bitLength_le_iff.mpr (Nat.lt_of_le_of_lt hle (by decide))
    have hfirst (n : Nat) (hn : n < Dyadic.bitLength a) : 2 ^ n ≤ a := by
      rw [← Nat.not_lt, ← Dyadic.bitLength_le_iff]
      omega
    -- The places of the last digit, as far left as it can stand.
    obtain ⟨steps, hsteps, hdvd, hplace⟩ : ∃ steps : Nat, steps ≤ 2 ∧ 2 ^ steps ∣ a ∧
        Dyadic.lastPlace a 12 ≤ steps - 3 := by
      have hplaces := lastPlace_cases a
      by_cases hexact : Dyadic.bitLength a ≤ 53
      · exact ⟨0, by omega, Nat.one_dvd a, by omega⟩
      · by_cases hone : Dyadic.bitLength a = 54
        · exact ⟨1, by omega, ha.dvd (hfirst 53 (by omega)), by omega⟩
        · exact ⟨2, by omega, ha.dvd (hfirst 54 (by omega)), by omega⟩
    refine ⟨(-Dyadic.lastPlace a 12).toNat, 2 ^ steps, by omega, ?_, hdvd, ?_⟩
    · exact Nat.dvd_trans (Nat.pow_dvd_pow 2 hsteps) (by decide)
    · rw [← Nat.pow_add]
      exact Nat.lt_of_lt_of_le (show 6 < 2 ^ 3 by decide) (Nat.pow_le_pow_right (by decide) (by omega))
  · exact ⟨0, 12, by decide, Nat.dvd_refl _, by decide, by decide⟩

/-- **Months are counted into years exactly, up to the bound.** -/
theorem floorQuotient_twelve {i : Int} (hi : IsHeld i.natAbs) (hle : i.natAbs ≤ twelfthBound) :
    floorQuotient i 12 = i / 12 := by
  obtain ⟨k, g, hplace, htwelve, hdvd, hk⟩ := exists_units hi hle
  obtain ⟨rest, hunits, hrest, hwhole⟩ := units_of_twelfth htwelve hdvd hk
  have hquotient : Dyadic.ofQuotient i.natAbs 12 = ⟨i.natAbs / 12 * 2 ^ k + rest, -k⟩ := by
    rw [Dyadic.ofQuotient, hplace, Dyadic.quotientAt, Int.neg_neg, Int.toNat_natCast, Int.toNat_neg_natCast,
      Nat.shiftLeft_zero, hunits]
  have hfloor : (Dyadic.mk (i.natAbs / 12 * 2 ^ k + rest) (-k)).floor = i.natAbs / 12 := by
    rw [Dyadic.floor_of_nonpos (Int.neg_natCast_le_natCast k 0), Int.neg_neg, Int.toNat_natCast]
    rw [Nat.mul_comm, Nat.mul_add_div (Nat.two_pow_pos k), Nat.div_eq_of_lt hrest, Nat.add_zero]
  have hceil : (Dyadic.mk (i.natAbs / 12 * 2 ^ k + rest) (-k)).ceil =
      if i.natAbs % 12 = 0 then i.natAbs / 12 else i.natAbs / 12 + 1 := by
    have hfraction : (Dyadic.mk (i.natAbs / 12 * 2 ^ k + rest) (-k)).isWhole = decide (i.natAbs % 12 = 0) := by
      simp only [Dyadic.isWhole, Dyadic.fraction, Int.neg_neg, Int.toNat_natCast, Nat.shiftLeft_eq, Nat.one_mul]
      rw [Nat.mul_add_mod_self_right, Nat.mod_eq_of_lt hrest, Bool.eq_iff_iff, beq_iff_eq, decide_eq_true_iff, hwhole]
    rw [Dyadic.ceil, hfraction, hfloor]
    simp only [decide_eq_true_eq]
  unfold floorQuotient
  rw [hquotient]
  dsimp only
  rw [hfloor, hceil]
  split
  · rename_i hzero
    rw [eq_of_beq hzero]
    rfl
  · split
    · split <;> omega
    · omega

end Whole

/-! ### Whole numbers in doubles -/

namespace Double

/-- An integer comes back from the double that holds it. -/
theorem toInt?_ofInt {i : Int} (h : i.natAbs < 2 ^ 53) : toInt? (ofInt i) = some i := by
  obtain ⟨m, hparts, hfloor, -⟩ := exists_parts_ofWhole h (decide (i < 0))
  unfold toInt? ofInt
  rw [hparts]
  dsimp only
  rw [hfloor]
  by_cases hneg : i < 0
  · rw [if_pos (decide_eq_true hneg)]
    exact congrArg some (by omega)
  · rw [if_neg (by simpa using hneg)]
    exact congrArg some (by omega)

/-- A whole part is that of the magnitude. -/
theorem exists_parts_of_toInt? {x : Float} {i : Int} (h : toInt? x = some i) :
    ∃ negative m, parts x = .finite negative m ∧ i.natAbs = m.floor := by
  unfold toInt? at h
  split at h
  · rename_i negative m hparts
    have hi := Option.some.inj h
    exact ⟨negative, m, hparts, by split at hi <;> omega⟩
  · cases h

/-- What is read off a double is a whole number that a double holds. -/
theorem isHeld_of_toInt? {x : Float} {i : Int} (h : toInt? x = some i) : Whole.IsHeld i.natAbs := by
  obtain ⟨negative, m, hparts, hsame⟩ := exists_parts_of_toInt? h
  rw [hsame]
  exact Whole.isHeld_floor (significand_lt hparts)

end Double

end Stepwise
