/-
Whole numbers that doubles hold.

A length or an index is handed to a script as a double, and it comes back as the whole number
that it was.  A double has fifty-three binary digits, so a whole number below `2 ^ 53` is
shifted to the left until its first digit stands where the first digit of a double stands, and
nothing is rounded away: not when the double is made, and not when it is multiplied by one,
which is how a double is made from a decimal without an exponent.

Arithmetic is told of what the bits of a double unpack to, and the language looks at its parts.
Both say the same of every double (`parts_eq`), so that what is known of the one is known of the
other.
-/
import Mathlib.Algebra.Group.Nat.Defs
import Stepwise.Value

namespace Stepwise

namespace Double

open Float.Model (Format UnpackedFloat totalExponent)
open Float.Model.UnpackedFloat

/-! ### Rounding what needs no rounding -/

private theorem targetExponent_eq (digits : Int) :
    Format.binary64.targetExponent digits = max (digits - 53) (-1074) := rfl

/-- A significand with its first digit in place. -/
structure Fits (m : Nat) (e : Int) : Prop where
  lower : 2 ^ 52 ≤ m
  upper : m < 2 ^ 53
  least : leastPlace ≤ e
  greatest : e ≤ 971

namespace Fits

variable {m : Nat} {e : Int}

theorem pos (h : Fits m e) : 0 < m := Nat.lt_of_lt_of_le (Nat.two_pow_pos 52) h.lower

theorem log2_mul (h : Fits m e) (k : Nat) : (m * 2 ^ k).log2 = 52 + k := by
  have hpos : m * 2 ^ k ≠ 0 := Nat.ne_of_gt (Nat.mul_pos h.pos (Nat.two_pow_pos k))
  refine (Nat.log2_eq_iff hpos).mpr ⟨?_, ?_⟩
  · rw [Nat.pow_add]
    exact Nat.mul_le_mul_right _ h.lower
  · rw [show 52 + k + 1 = 53 + k by omega, Nat.pow_add]
    exact Nat.mul_lt_mul_of_pos_right h.upper (Nat.two_pow_pos k)

theorem log2 (h : Fits m e) : m.log2 = 52 := by simpa using h.log2_mul 0

/-- The exponent that rounding aims at is the one that brings the first digit in place. -/
theorem target (h : Fits m e) (k : Nat) :
    Format.binary64.targetExponent (totalExponent (m * 2 ^ k) (e - k)) = e := by
  have hleast : (-1074 : Int) ≤ e := h.least
  rw [targetExponent_eq, totalExponent, h.log2_mul]
  omega

end Fits

/-- Zeros are shifted out, and nothing is left over. -/
private theorem shift_exact (m k : Nat) :
    (⟨m * 2 ^ k, false, false⟩ : ExtendedMantissa) >>> k = ⟨m, false, false⟩ := by
  induction k generalizing m with
  | zero => simp [HShiftRight.hShiftRight, Nat.repeat]
  | succ k ih =>
      have hlast : (⟨m * 2 ^ (k + 1), false, false⟩ : ExtendedMantissa) >>> (k + 1) =
          ((⟨m * 2 * 2 ^ k, false, false⟩ : ExtendedMantissa) >>> k).shiftRightOne := by
        rw [Nat.pow_succ', ← Nat.mul_assoc]
        rfl
      rw [hlast, ih (m * 2)]
      simp [ExtendedMantissa.shiftRightOne]

/-- What differs from a significand in place by zeros behind is rounded to it. -/
theorem round_exact {m : Nat} {e : Int} (h : Fits m e) (k : Nat) :
    roundWithAccuracy Format.binary64 .positive (m * 2 ^ k) (e - k) .exact =
      .finite .positive m e h.pos := by
  have hfirst : shiftToTargetExponent Format.binary64 (m * 2 ^ k) (e - k) .exact =
      (⟨m, false, false⟩, e) := by
    have hshift : (e - (e - k)).toNat = k := by omega
    simp only [shiftToTargetExponent, h.target k, shiftToExponent, hshift,
      ExtendedMantissa.ofMantissaAndAccuracy, shift_exact]
    congr 1
    omega
  have hagain : shiftToTargetExponent Format.binary64 m e .exact = (⟨m, false, false⟩, e) := by
    have htarget := h.target 0
    rw [Nat.pow_zero, Nat.mul_one, Int.natCast_zero, Int.sub_zero] at htarget
    simp only [shiftToTargetExponent, htarget, shiftToExponent, Int.sub_self, Int.toNat_zero]
    exact Prod.ext rfl (Int.add_zero e)
  have hround : ExtendedMantissa.roundedMantissa ⟨m, false, false⟩ = m := rfl
  rw [roundWithAccuracy, hfirst]
  dsimp only
  rw [hround, hagain]
  exact dif_neg (Nat.ne_of_gt h.pos)

/-! ### Bits -/

/-- The field of the exponent. -/
private theorem biased_eq {m : Nat} {e : Int} (h : Fits m e) :
    (e + Format.binary64.exponentBias + Format.binary64.mantissaBitsWithoutImplicit).toNat =
      (e + 1075).toNat ∧ 0 < (e + 1075).toNat ∧ (e + 1075).toNat < 2047 := by
  have hleast : (-1074 : Int) ≤ e := h.least
  have hgreatest := h.greatest
  refine ⟨?_, by omega, by omega⟩
  show (e + 1023 + 52).toNat = (e + 1075).toNat
  omega

/-- The exponent and the digits behind the first one stand side by side. -/
private theorem pack_eq {m : Nat} {e : Int} (h : Fits m e) (sign : Sign) :
    UnpackedFloat.pack Format.binary64 (.finite sign m e h.pos) =
      packComponents Format.binary64 sign (BitVec.ofNat 11 (e + 1075).toNat) (BitVec.ofNat 52 m) := by
  obtain ⟨hbiased, -, hsmall⟩ := biased_eq h
  have hfinite : ¬2 ^ Format.binary64.exponentBits ≤ (e + 1075).toNat + 1 := by
    show ¬2048 ≤ (e + 1075).toNat + 1
    omega
  have hnormal : 52 + 1 = Format.binary64.mantissaBits := rfl
  show (if 2 ^ Format.binary64.exponentBits ≤ (e + Format.binary64.exponentBias +
      Format.binary64.mantissaBitsWithoutImplicit).toNat + 1 then _
    else if m.log2 + 1 = Format.binary64.mantissaBits then _ else _) = _
  rw [hbiased, h.log2, if_neg hfinite, if_pos hnormal]

/-- The sign stands in front of them. -/
theorem unpackSign_packed (sign : Sign) (exponent : BitVec 11) (mantissa : BitVec 52) :
    @unpackSign Format.binary64 (packComponents Format.binary64 sign exponent mantissa) = sign.toBitVec := by
  show (sign.toBitVec ++ exponent ++ mantissa).extractLsb' 63 1 = _
  rw [BitVec.extractLsb'_append_eq_of_le (by decide), BitVec.extractLsb'_append_eq_of_le (by decide)]
  cases sign <;> rfl

/-- What was packed is unpacked again. -/
theorem unpack_pack {m : Nat} {e : Int} (h : Fits m e) (sign : Sign) :
    (Float.Model.pack (.finite sign m e h.pos)).unpack = .finite sign m e h.pos := by
  obtain ⟨-, hpos, hsmall⟩ := biased_eq h
  have hleast : (-1074 : Int) ≤ e := h.least
  have hexponent : (BitVec.ofNat 11 (e + 1075).toNat).toNat = (e + 1075).toNat := by
    rw [BitVec.toNat_ofNat]
    omega
  have hnotTop : BitVec.ofNat 11 (e + 1075).toNat ≠ -1#11 := by
    intro heq
    have hnat := congrArg BitVec.toNat heq
    rw [hexponent] at hnat
    simp at hnat
    omega
  have hnotZero : BitVec.ofNat 11 (e + 1075).toNat ≠ 0#11 := by
    intro heq
    have hnat := congrArg BitVec.toNat heq
    rw [hexponent] at hnat
    simp at hnat
    omega
  have hsign : unpackSign (packComponents Format.binary64 sign (BitVec.ofNat 11 (e + 1075).toNat)
      (BitVec.ofNat 52 m)) = sign.toBitVec := unpackSign_packed ..
  have hmantissa : unpackMantissa (packComponents Format.binary64 sign (BitVec.ofNat 11 (e + 1075).toNat)
      (BitVec.ofNat 52 m)) = BitVec.ofNat 52 m := unpackMantissa_packComponents ..
  have hfield : unpackExponent (packComponents Format.binary64 sign (BitVec.ofNat 11 (e + 1075).toNat)
      (BitVec.ofNat 52 m)) = BitVec.ofNat 11 (e + 1075).toNat := unpackExponent_packComponents ..
  have hsignificand : (1#1 ++ BitVec.ofNat 52 m).toNat = m := by
    have hlower := h.lower
    have hupper := h.upper
    rw [BitVec.toNat_append, ← Nat.shiftLeft_add_eq_or_of_lt (BitVec.ofNat 52 m).isLt, BitVec.toNat_ofNat,
      BitVec.toNat_ofNat, Nat.shiftLeft_eq]
    omega
  have hplace : ((e + 1075).toNat : Int) - (1023 + 52) = e := by omega
  have hsame {sign' : Sign} {m' : Nat} {e' : Int} (hpos' : 0 < m') (hs : sign' = sign) (hm : m' = m)
      (he : e' = e) : UnpackedFloat.finite sign' m' e' hpos' = .finite sign m e h.pos := by
    subst hs hm he
    rfl
  show unpack Format.binary64 (UnpackedFloat.pack Format.binary64 (.finite sign m e h.pos)) = _
  rw [pack_eq h]
  generalize packComponents Format.binary64 sign (BitVec.ofNat 11 (e + 1075).toNat) (BitVec.ofNat 52 m) =
    packed at hsign hmantissa hfield
  show (if unpackExponent packed = -1#11 then _ else if unpackExponent packed = 0#11 then _ else
    UnpackedFloat.finite (Sign.ofBitVec (unpackSign packed)) (1#1 ++ unpackMantissa packed).toNat
      ((unpackExponent packed).toNat - (1023 + 52)) _) = _
  rw [hfield, if_neg hnotTop, if_neg hnotZero]
  exact hsame _ (by rw [hsign]; cases sign <;> rfl) (by rw [hmantissa, hsignificand])
    (by rw [hexponent, hplace])

/-! ### Parts -/

/-- Is it the sign of negative numbers? -/
def isMinus : Sign → Bool
  | .negative => true
  | .positive => false

/-- The parts of a double that is taken apart already. -/
def Parts.ofUnpacked : UnpackedFloat → Parts
  | .notANumber => .nan
  | .infinity s => .infinite (isMinus s)
  | .zero s => .finite (isMinus s) ⟨0, leastPlace⟩
  | .finite s m e _ => .finite (isMinus s) ⟨m, e⟩

/-- The three fields of a double, read as numbers. -/
private theorem fields_eq (x : Float) :
    (@unpackExponent Format.binary64 x.toBits.toBitVec).toNat = ((x.toBits >>> 52) &&& 0x7ff).toNat ∧
    (@unpackMantissa Format.binary64 x.toBits.toBitVec).toNat =
      (x.toBits &&& 0xfffffffffffff).toNat ∧
    isMinus (.ofBitVec (@unpackSign Format.binary64 x.toBits.toBitVec)) = (x.toBits >>> 63 == 1) := by
  refine ⟨?_, ?_, ?_⟩
  · rw [UInt64.toNat_and, UInt64.toNat_shiftRight]
    show (x.toBits.toNat >>> 52) % 2 ^ 11 = (x.toBits.toNat >>> 52) &&& (2 ^ 11 - 1)
    rw [Nat.and_two_pow_sub_one_eq_mod]
  · rw [UInt64.toNat_and]
    show (x.toBits.toNat >>> 0) % 2 ^ 52 = x.toBits.toNat &&& (2 ^ 52 - 1)
    rw [Nat.and_two_pow_sub_one_eq_mod, Nat.shiftRight_zero]
  · have hbit : (@unpackSign Format.binary64 x.toBits.toBitVec).toNat = (x.toBits >>> 63).toNat := by
      rw [UInt64.toNat_shiftRight]
      show (x.toBits.toNat >>> 63) % 2 ^ 1 = x.toBits.toNat >>> 63
      have hlt := x.toBits.toNat_lt
      rw [Nat.shiftRight_eq_div_pow]
      omega
    generalize @unpackSign Format.binary64 x.toBits.toBitVec = sign at hbit
    have hlt : sign.toNat < 2 := sign.isLt
    by_cases hsign : sign = 0#1
    · subst hsign
      have hzero : x.toBits >>> 63 = 0 := UInt64.toNat_inj.mp hbit.symm
      rw [hzero]
      rfl
    · have hne : sign.toNat ≠ 0 := fun h => hsign (BitVec.eq_of_toNat_eq h)
      have hone : x.toBits >>> 63 = 1 := by
        apply UInt64.toNat_inj.mp
        rw [← hbit]
        show sign.toNat = 1
        omega
      simp [Sign.ofBitVec, hsign, hone, isMinus]

/-- A field is compared by its number. -/
private theorem toNat_beq {w : Nat} (b c : BitVec w) : (b.toNat == c.toNat) = decide (b = c) := by
  rw [Bool.eq_iff_iff, beq_iff_eq, decide_eq_true_iff, BitVec.toNat_inj]

/-- **The parts of a double are those that its bits unpack to.** -/
theorem parts_eq (x : Float) : parts x = .ofUnpacked x.toModel.unpack := by
  obtain ⟨hexponent, hmantissa, hsign⟩ := fields_eq x
  show parts x = .ofUnpacked (unpack Format.binary64 x.toBits.toBitVec)
  have htop := toNat_beq (@unpackExponent Format.binary64 x.toBits.toBitVec) (-1#11)
  have hbottom := toNat_beq (@unpackExponent Format.binary64 x.toBits.toBitVec) 0#11
  have hnone := toNat_beq (@unpackMantissa Format.binary64 x.toBits.toBitVec) 0#52
  have hlt : (@unpackMantissa Format.binary64 x.toBits.toBitVec).toNat < 2 ^ 52 := BitVec.isLt _
  unfold parts unpack
  dsimp only
  rw [← hexponent, ← hmantissa, ← hsign]
  show (if _ == (-1#11).toNat then if _ == (0#52).toNat then _ else _ else if _ == (0#11).toNat then _ else _) = _
  rw [htop, hbottom, hnone]
  by_cases hspecial : @unpackExponent Format.binary64 x.toBits.toBitVec = -1#11
  · rw [if_pos hspecial, if_pos (decide_eq_true hspecial)]
    by_cases hinfinite : @unpackMantissa Format.binary64 x.toBits.toBitVec = 0#52
    · rw [if_pos hinfinite, if_pos (decide_eq_true hinfinite)]
      rfl
    · rw [if_neg hinfinite, if_neg (ne_true_of_eq_false (decide_eq_false hinfinite))]
      rfl
  · rw [if_neg hspecial, if_neg (ne_true_of_eq_false (decide_eq_false hspecial))]
    by_cases hsmall : @unpackExponent Format.binary64 x.toBits.toBitVec = 0#11
    · rw [if_pos hsmall, if_pos (decide_eq_true hsmall)]
      by_cases hzero : @unpackMantissa Format.binary64 x.toBits.toBitVec = 0#52
      · rw [dif_pos hzero, hzero]
        rfl
      · rw [dif_neg hzero, hsmall]
        rfl
    · -- The first digit is not stored.
      rw [if_neg hsmall, if_neg (ne_true_of_eq_false (decide_eq_false hsmall))]
      have hsignificand : (1#1 ++ @unpackMantissa Format.binary64 x.toBits.toBitVec).toNat =
          (@unpackMantissa Format.binary64 x.toBits.toBitVec).toNat + 1 <<< 52 := by
        rw [BitVec.toNat_append, ← Nat.shiftLeft_add_eq_or_of_lt (BitVec.isLt _), Nat.add_comm]
        rfl
      have hplace : leastPlace + ((@unpackExponent Format.binary64 x.toBits.toBitVec).toNat : Int) - 1 =
          (@unpackExponent Format.binary64 x.toBits.toBitVec).toNat - (1023 + 52) := by
        show (-1074 : Int) + _ - 1 = _
        omega
      rw [← hsignificand, hplace]
      rfl

/-- The parts of a double are those that it was packed from. -/
theorem parts_pack {m : Nat} {e : Int} (h : Fits m e) (sign : Sign) :
    parts ⟨Float.Model.pack (.finite sign m e h.pos)⟩ = .finite (isMinus sign) ⟨m, e⟩ := by
  rw [parts_eq, unpack_pack h]
  rfl

/-! ### Whole numbers -/

/-- A whole number other than zero as a significand in place: so far it is shifted to the left. -/
def room (n : Nat) : Nat := 52 - n.log2

theorem fits_of_whole {n : Nat} (hpos : 0 < n) (hn : n < 2 ^ 53) : Fits (n * 2 ^ room n) (-room n) := by
  have hlog : n.log2 < 53 := (Nat.log2_lt (Nat.ne_of_gt hpos)).mpr hn
  have hself := Nat.log2_self_le (Nat.ne_of_gt hpos)
  have hlt : n < 2 ^ (n.log2 + 1) := Nat.lt_log2_self
  have hroom : n.log2 + room n = 52 := by
    unfold room
    omega
  refine ⟨?_, ?_, ?_, ?_⟩
  · rw [← hroom, Nat.pow_add]
    exact Nat.mul_le_mul_right _ hself
  · rw [show 53 = n.log2 + 1 + room n by omega, Nat.pow_add]
    exact Nat.mul_lt_mul_of_pos_right hlt (Nat.two_pow_pos _)
  · show (-1074 : Int) ≤ _
    omega
  · omega

/-- A whole number is rounded to itself. -/
theorem ofNat_model {n : Nat} (hpos : 0 < n) (hn : n < 2 ^ 53) :
    UnpackedFloat.ofNat Format.binary64 n =
      .finite .positive (n * 2 ^ room n) (-room n) (fits_of_whole hpos hn).pos := by
  have hfits := fits_of_whole hpos hn
  have hlog : n.log2 < 53 := (Nat.log2_lt (Nat.ne_of_gt hpos)).mpr hn
  have hsign : compare (n : Int) 0 = .gt := Int.compare_eq_gt.mpr (by omega)
  have htarget : Format.binary64.targetExponent (totalExponent n 0) = -(room n : Int) := by
    unfold room
    rw [targetExponent_eq, totalExponent]
    omega
  have hround := round_exact hfits 0
  rw [Nat.pow_zero, Nat.mul_one, Int.natCast_zero, Int.sub_zero] at hround
  have hshift : (0 - -(room n : Int)).toNat = room n := by omega
  show UnpackedFloat.normalize Format.binary64 n 0 .positive = _
  rw [UnpackedFloat.normalize, hsign]
  show roundWithAccuracy Format.binary64 .positive
    (n <<< (0 - Format.binary64.targetExponent (totalExponent n 0)).toNat)
    (0 - (0 - Format.binary64.targetExponent (totalExponent n 0)).toNat) .exact = _
  rw [htarget, hshift, Nat.shiftLeft_eq, Int.zero_sub, hround]

/-- The double of a whole number, packed.  It is made by a multiplication by one, the power of ten
that has the exponent zero. -/
theorem ofNat_eq_pack {n : Nat} (hpos : 0 < n) (hn : n < 2 ^ 53) :
    Float.ofNat n =
      ⟨Float.Model.pack (.finite .positive (n * 2 ^ room n) (-room n) (fits_of_whole hpos hn).pos)⟩ := by
  have hfits := fits_of_whole hpos hn
  have hsmall : n < 2 ^ 53 ∧ 0 ≤ 22 := ⟨hn, Nat.zero_le 22⟩
  have hword : n.toUInt64.toNat = n := by
    show n % 2 ^ 64 = n
    omega
  have hone : (Float.Model.ofBits 4607182418800017408).unpack =
      .finite .positive (2 ^ 52) (-52) (by decide) := by rfl
  have hmodel : Float.Model.ofUInt64 n.toUInt64 =
      Float.Model.pack (.finite .positive (n * 2 ^ room n) (-room n) hfits.pos) := by
    show Float.Model.pack (UnpackedFloat.ofNat Format.binary64 n.toUInt64.toNat) = _
    rw [hword, ofNat_model hpos hn]
  show Float.ofScientific n false 0 = _
  unfold Float.ofScientific
  rw [dif_pos hsmall]
  show (⟨Float.Model.mul (Float.Model.ofUInt64 n.toUInt64) (Float.Model.ofBits 4607182418800017408)⟩ : Float) = _
  rw [hmodel, Float.Model.mul, unpack_pack hfits, hone]
  show (⟨Float.Model.pack (roundWithAccuracy Format.binary64 .positive (n * 2 ^ room n * 2 ^ 52)
    (-(room n : Int) - (52 : Nat)) .exact)⟩ : Float) = _
  rw [round_exact hfits]

/-- With a sign it is packed under that sign. -/
theorem ofWhole_eq_pack {n : Nat} (hpos : 0 < n) (hn : n < 2 ^ 53) (negative : Bool) :
    ∃ sign, isMinus sign = negative ∧ ofWhole negative n =
      ⟨Float.Model.pack (.finite sign (n * 2 ^ room n) (-room n) (fits_of_whole hpos hn).pos)⟩ := by
  have hfits := fits_of_whole hpos hn
  cases negative with
  | false => exact ⟨.positive, rfl, ofNat_eq_pack hpos hn⟩
  | true =>
      refine ⟨.negative, rfl, ?_⟩
      show -Float.ofNat n = _
      rw [ofNat_eq_pack hpos hn]
      show (⟨Float.Model.pack (Float.Model.pack (.finite .positive (n * 2 ^ room n) (-room n) hfits.pos)).unpack.neg⟩ :
        Float) = _
      rw [unpack_pack hfits]
      rfl

/-- The parts of the double of a whole number are those of that number: wherever its first digit is
shifted to, there are none behind the point. -/
theorem exists_parts_ofWhole {n : Nat} (hn : n < 2 ^ 53) (negative : Bool) :
    ∃ m : Dyadic, parts (ofWhole negative n) = .finite negative m ∧ m.floor = n ∧ m.isWhole = true ∧
      (m.significand = 0 ↔ n = 0) := by
  rcases Nat.eq_zero_or_pos n with rfl | hpos
  · cases negative <;> exact ⟨⟨0, leastPlace⟩, rfl, rfl, rfl, by simp⟩
  · obtain ⟨sign, hsign, hpack⟩ := ofWhole_eq_pack hpos hn negative
    have hparts := parts_pack (fits_of_whole hpos hn) sign
    rw [← hpack, hsign] at hparts
    refine ⟨_, hparts, ?_, ?_, ?_⟩
    · have hexponent : (-(room n : Int)).toNat = 0 := by omega
      have hback : (- -(room n : Int)).toNat = room n := by omega
      simp only [Dyadic.floor, hexponent, hback, Nat.shiftLeft_zero, Nat.shiftRight_eq_div_pow]
      exact Nat.mul_div_cancel n (Nat.two_pow_pos _)
    · simp [Dyadic.isWhole, Dyadic.fraction, Nat.shiftLeft_eq]
    · have hshifted : 0 < n * 2 ^ room n := Nat.mul_pos hpos (Nat.two_pow_pos _)
      exact iff_of_false (Nat.ne_of_gt hshifted) (Nat.ne_of_gt hpos)

theorem exists_parts_ofNat {n : Nat} (hn : n < 2 ^ 53) :
    ∃ m : Dyadic, parts (Float.ofNat n) = .finite false m ∧ m.floor = n ∧ m.isWhole = true := by
  obtain ⟨m, hparts, hfloor, hwhole, -⟩ := exists_parts_ofWhole hn false
  exact ⟨m, hparts, hfloor, hwhole⟩

/-- Packing keeps the sign of a number that is not zero. -/
theorem unpackSign_finite (sign : Sign) (m : Nat) (e : Int) (hpos : 0 < m) :
    unpackSign (UnpackedFloat.pack Format.binary64 (.finite sign m e hpos)) = sign.toBitVec := by
  unfold UnpackedFloat.pack
  dsimp only
  split
  · exact unpackSign_packed ..
  · split <;> exact unpackSign_packed ..

/-- Rounding keeps the sign. -/
theorem unpackSign_round (sign : Sign) (m : Nat) (e : Int) (accuracy : Accuracy) :
    unpackSign (UnpackedFloat.pack Format.binary64 (roundWithAccuracy Format.binary64 sign m e accuracy)) =
      sign.toBitVec := by
  have hround : roundWithAccuracy Format.binary64 sign m e accuracy = .zero sign ∨
      ∃ m' e' hpos, roundWithAccuracy Format.binary64 sign m e accuracy = .finite sign m' e' hpos := by
    unfold roundWithAccuracy
    dsimp only
    exact dite _ (fun hzero => .inl (dif_pos hzero)) (fun hzero => .inr ⟨_, _, _, dif_neg hzero⟩)
  obtain hzero | ⟨m', e', hpos, hfinite⟩ := hround
  · rw [hzero]
    exact unpackSign_packed ..
  · rw [hfinite, unpackSign_finite]

/-- A number without an exponent is rounded as it is. -/
theorem exists_round {n : Nat} (hn : n ≠ 0) : ∃ m e, UnpackedFloat.ofScientific Format.binary64 n 0 =
    roundWithAccuracy Format.binary64 .positive m e .exact := by
  have hrange : (0 : Int) < 2 ^ Format.binary64.exponentBits := Int.pow_pos (by decide)
  have hlow : ¬(0 : Int) < -(2 ^ Format.binary64.exponentBits + n.log2) := by omega
  rw [UnpackedFloat.ofScientific, dif_neg hn, if_neg (by omega), if_neg hlow, if_pos (Int.le_refl 0)]
  unfold UnpackedFloat.mul
  exact ⟨_, _, rfl⟩

/-- The double of a whole number is not below zero, however large the number is. -/
theorem ofNat_ne_minus_one (n : Nat) : Float.ofNat n ≠ -1.0 := by
  intro heq
  rcases Nat.lt_or_ge n (2 ^ 53) with hn | hn
  · obtain ⟨m, hparts, -⟩ := exists_parts_ofNat hn
    have hminus : parts (-1.0) = .finite true ⟨2 ^ 52, -52⟩ := rfl
    rw [heq, hminus] at hparts
    cases hparts
  · have hround : Float.ofNat n = ⟨Float.Model.ofScientific n 0⟩ := by
      show Float.ofScientific n false 0 = _
      unfold Float.ofScientific
      exact dif_neg fun h => absurd h.1 (Nat.not_lt.mpr hn)
    obtain ⟨m, e, hrounded⟩ := exists_round (n := n) (by omega)
    have hsign : @unpackSign Format.binary64 (Float.Model.ofScientific n 0).toBits.toBitVec =
        Sign.positive.toBitVec := by
      show unpackSign (UnpackedFloat.pack Format.binary64 (UnpackedFloat.ofScientific Format.binary64 n 0)) = _
      rw [hrounded, unpackSign_round]
    have hminus : @unpackSign Format.binary64 (-1.0 : Float).toModel.toBits.toBitVec =
        Sign.negative.toBitVec := by decide
    rw [← heq, hround, hsign] at hminus
    cases hminus

/-- **A whole number below the bound of lengths comes back from the double that holds it.** -/
theorem toIndex?_ofNat {n : Nat} (hn : n < UInt32.size) : toIndex? (Float.ofNat n) = some n := by
  obtain ⟨m, hparts, hfloor, hwhole⟩ := exists_parts_ofNat (Nat.lt_trans hn (by decide))
  unfold toIndex?
  rw [hparts]
  simp [hfloor, hwhole, hn]

/-- A whole number is cut at a bound. -/
theorem clamp_ofNat {n : Nat} (hn : n < 2 ^ 53) (bound : Nat) : clamp (Float.ofNat n) bound = min n bound := by
  obtain ⟨m, hparts, hfloor, -⟩ := exists_parts_ofNat hn
  unfold clamp
  rw [hparts]
  simp [hfloor]

/-- What is read as an index is below the bound of lengths. -/
theorem lt_of_toIndex? {x : Float} {n : Nat} (h : toIndex? x = some n) : n < UInt32.size := by
  unfold toIndex? at h
  split at h
  · obtain ⟨hfits, hfloor⟩ := Option.ite_none_right_eq_some.mp h
    cases hfloor
    exact of_decide_eq_true (Bool.and_eq_true_iff.mp hfits).2
  · cases h

end Double

end Stepwise
