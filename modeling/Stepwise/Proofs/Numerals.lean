/-
How whole numbers are written.

A number is laid out from the shortest digits that read back, and these have no zeros at the end.
Of a whole number below `2 ^ 53` they are its decimal digits, since no other decimal is as near; the
zeros at their end are taken off and put back by the layout, which knows from the power of ten of
the first digit how many there were.  So an index is written with the decimal digits of that
index, and with nothing else (`ofDouble_of_toIndex?`).
-/
import Mathlib.Data.List.DropRight
import Stepwise.Proofs.Objects
import Stepwise.Proofs.Positions

namespace Stepwise

/-! ### Digits -/

namespace Digits

/-- A decimal digit is written as the character that it was read from. -/
theorem toChar_sub {c : Char} (hc : c.isDigit = true) : toChar (c.toNat - '0'.toNat) = c := by
  have hrange := Decimal.toNat_of_isDigit hc
  have hzero : '0'.toNat = 48 := rfl
  rw [toChar, if_pos (by omega), Nat.add_sub_cancel' (by omega), Char.ofNat_toNat]

/-- The digits of a number are written as its decimal digits. -/
theorem toChars_ofNat (n : Nat) : toChars (ofNat n) = Nat.toDigits 10 n := by
  rw [toChars, ofNat, List.map_map]
  refine (List.map_congr_left fun c hc => ?_).trans (List.map_id _)
  exact toChar_sub (Nat.isDigit_of_mem_toDigits (by decide) (by decide) hc)

theorem length_ofNat (n : Nat) : (ofNat n).length = (Nat.toDigits 10 n).length := List.length_map _

/-- The zeros that were taken off the end can be put back. -/
theorem rdropWhile_append_zeros (ds : List Nat) :
    ds.rdropWhile (· == 0) ++ List.replicate (ds.length - (ds.rdropWhile (· == 0)).length) 0 = ds := by
  have hzeros : ds.rtakeWhile (· == 0) = List.replicate (ds.rtakeWhile (· == 0)).length 0 :=
    List.eq_replicate_iff.mpr ⟨rfl, fun d hd => by simpa using List.mem_rtakeWhile_imp hd⟩
  have hsplit : ds.rdropWhile (· == 0) ++ ds.rtakeWhile (· == 0) = ds := List.rdropWhile_append_rtakeWhile
  have hlength := congrArg List.length hsplit
  rw [List.length_append] at hlength
  rw [show ds.length - (ds.rdropWhile (· == 0)).length = (ds.rtakeWhile (· == 0)).length by omega, ← hzeros, hsplit]

end Digits

/-! ### The parts of a whole number -/

/-- A whole number without a whole part is zero. -/
theorem Dyadic.significand_eq_zero {m : Dyadic} (hwhole : m.isWhole = true) (hfloor : m.floor = 0) :
    m.significand = 0 := by
  have hrest : m.significand % 1 <<< (-m.exponent).toNat = 0 := eq_of_beq hwhole
  rw [Nat.shiftLeft_eq, Nat.one_mul] at hrest
  rcases Int.le_total 0 m.exponent with hexponent | hexponent
  · rw [floor_of_nonneg hexponent, Nat.mul_eq_zero] at hfloor
    exact hfloor.resolve_right (Nat.ne_of_gt (Nat.two_pow_pos _))
  · rw [floor_of_nonpos hexponent] at hfloor
    rw [← Nat.div_add_mod m.significand (2 ^ (-m.exponent).toNat), hfloor, hrest, Nat.mul_zero]

namespace Double

variable {x : Float} {negative : Bool} {m : Dyadic}

/-- What has its last place before the point has its first one far before it. -/
theorem le_floor_of_exponent (h : parts x = .finite negative m) (hexponent : 0 ≤ m.exponent) : 2 ^ 52 ≤ m.floor := by
  rw [Dyadic.floor_of_nonneg hexponent]
  exact Nat.le_trans (fits_of_exponent h hexponent).lower (Nat.le_mul_of_pos_right _ (Nat.two_pow_pos _))

end Double

/-! ### The layout -/

/-- The shortest decimal of a whole number is the number. -/
theorem Shortest.digits_of_isWhole {m : Dyadic} (hexponent : m.exponent < 0) (hwhole : m.isWhole = true) :
    digits m = ((Digits.ofNat m.floor).rdropWhile (· == 0), ((Digits.ofNat m.floor).length : Int) - 1) := by
  have hdecimal : decimal m = (m.floor, 0) := by
    rw [decimal, if_neg]
    rw [hwhole, Bool.not_true, Bool.or_false, decide_eq_true_iff]
    omega
  rw [digits, hdecimal]
  simp only [List.rdropWhile, Int.zero_add]

/-- Digits whose first one stands so many places before the point are written with zeros up to it. -/
theorem Layout.general_of_isWhole {ds : List Nat} (hlength : ds.length ≤ 21) :
    general (ds.rdropWhile (· == 0)) ((ds.length : Int) - 1) = Digits.toChars ds := by
  have hle : (ds.rdropWhile (· == 0)).length ≤ ds.length := (List.rdropWhile_prefix _ _).length_le
  have hzeros : ((ds.length : Int) - (ds.rdropWhile (· == 0)).length).toNat =
      ds.length - (ds.rdropWhile (· == 0)).length := by omega
  rw [general, Int.sub_add_cancel, if_pos (by simp; omega), hzeros]
  calc
    _ = Digits.toChars (ds.rdropWhile (· == 0) ++
          List.replicate (ds.length - (ds.rdropWhile (· == 0)).length) 0) := by
      rw [Digits.toChars, Digits.toChars, List.map_append, List.map_replicate]
      rfl
    _ = Digits.toChars ds := by rw [Digits.rdropWhile_append_zeros]

/-- **A number that is an index is written with the decimal digits of that index.** -/
theorem Layout.ofDouble_of_toIndex? {x : Float} {i : Nat} (h : Double.toIndex? x = some i) : ofDouble x = Nat.repr i := by
  unfold Double.toIndex? at h
  split at h
  · rename_i negative m hparts
    obtain ⟨hindex, hfloor⟩ := Option.ite_none_right_eq_some.mp h
    simp only [Bool.and_eq_true, Bool.or_eq_true, Bool.not_eq_true', beq_iff_eq, decide_eq_true_eq,
      Option.some.injEq] at hindex hfloor
    obtain ⟨⟨hwhole, hsign⟩, hbound⟩ := hindex
    rw [ofDouble, hparts]
    dsimp only
    by_cases hzero : m.floor = 0
    · rw [if_pos (beq_iff_eq.mpr (Dyadic.significand_eq_zero hwhole hzero)), ← hfloor, hzero]
      rfl
    · have hsignificand : m.significand ≠ 0 := fun h => hzero (Double.floor_of_significand_eq_zero h)
      have hexponent : m.exponent < 0 := by
        by_contra hnot
        have hlarge := Double.le_floor_of_exponent hparts (by omega)
        have hsize : UInt32.size < 2 ^ 52 := by decide
        omega
      have hlength : (Digits.ofNat m.floor).length ≤ 21 := by
        rw [Digits.length_ofNat, Nat.length_toDigits_le_iff (by decide) (by decide)]
        exact Nat.lt_trans hbound (by decide)
      rw [if_neg (by simpa using hsignificand), Shortest.digits_of_isWhole hexponent hwhole]
      dsimp only
      rw [general_of_isWhole hlength, Digits.toChars_ofNat, hsign.resolve_right hzero, hfloor]
      rfl
  · cases h

end Stepwise
