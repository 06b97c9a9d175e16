/-
The units of a text.

A character is one unit or a pair of them, and a high half is followed by a low one, so the text
can be read back from its units: no unit of a whole character is half of a pair
(`decode_ofChar_append`).  Different texts have different units, and then the order of texts by
their units is an order of the texts.  It is the lexicographic order of the library for lists,
whose laws it takes over.
-/
import Mathlib.Data.List.Basic
import Stepwise.Text.Units

namespace Stepwise

namespace Units

/-! ### Reading units back -/

theorem isHigh_iff {u : Nat} : isHigh u = true ↔ 0xd800 ≤ u ∧ u < 0xdc00 := by
  rw [isHigh, Bool.and_eq_true, decide_eq_true_iff, decide_eq_true_iff]

theorem isLow_iff {u : Nat} : isLow u = true ↔ 0xdc00 ≤ u ∧ u < 0xe000 := by
  rw [isLow, Bool.and_eq_true, decide_eq_true_iff, decide_eq_true_iff]

theorem decode_cons {u : CodeUnit} (hhigh : isHigh u = false) (rest : List CodeUnit) :
    decode (u :: rest) = toChar u :: decode rest := by
  cases rest with
  | nil => rfl
  | cons v rest => rw [decode, hhigh, Bool.false_and, if_neg Bool.false_ne_true]

theorem decode_pair {u v : CodeUnit} (hhigh : isHigh u = true) (hlow : isLow v = true) (rest : List CodeUnit) :
    decode (u :: v :: rest) =
      Char.ofNat (0x10000 + (u - 0xd800) * 0x400 + (v - 0xdc00)) :: decode rest := by
  rw [decode, hhigh, hlow, Bool.true_and, if_pos rfl]

/-- A character is read back from its units, whatever comes behind them. -/
theorem decode_ofChar_append (c : Char) (rest : List CodeUnit) : decode (ofChar c ++ rest) = c :: decode rest := by
  have hchar : c.toNat < 0xd800 ∨ 0xdfff < c.toNat ∧ c.toNat < 0x110000 := c.valid
  unfold ofChar
  split
  · have hhigh : isHigh c.toNat = false := by
      rw [Bool.eq_false_iff, ne_eq, isHigh_iff]
      omega
    have hlow : isLow c.toNat = false := by
      rw [Bool.eq_false_iff, ne_eq, isLow_iff]
      omega
    rw [List.singleton_append, decode_cons hhigh, toChar, hhigh, hlow, Bool.false_or, if_neg Bool.false_ne_true,
      Char.ofNat_toNat]
  · have hhigh : isHigh (0xd800 + (c.toNat - 0x10000) / 0x400) = true := isHigh_iff.mpr (by omega)
    have hlow : isLow (0xdc00 + (c.toNat - 0x10000) % 0x400) = true := isLow_iff.mpr (by omega)
    have hnumber : 0x10000 + (0xd800 + (c.toNat - 0x10000) / 0x400 - 0xd800) * 0x400
        + (0xdc00 + (c.toNat - 0x10000) % 0x400 - 0xdc00) = c.toNat := by omega
    rw [List.cons_append, List.singleton_append, decode_pair hhigh hlow, hnumber, Char.ofNat_toNat]

/-- **A text is read back from its units.** -/
theorem decode_encode (text : List Char) : decode (encode text) = text := by
  induction text with
  | nil => rfl
  | cons c text ih => rw [encode, List.flatMap_cons, decode_ofChar_append, ← encode, ih]

theorem encode_injective : Function.Injective encode := Function.LeftInverse.injective decode_encode

/-! ### The order of units -/

theorem compare_eq (us vs : List CodeUnit) : compare us vs = Ord.compare us vs := by
  induction us generalizing vs with
  | nil => cases vs <;> rfl
  | cons u us ih =>
      cases vs with
      | nil => rfl
      | cons v vs =>
          rw [compare, List.compare_cons_cons, ih, Nat.compare_eq_ite_lt]
          split
          · rfl
          · split <;> rfl

instance : Std.TransCmp compare where
  eq_swap := by
    intro us vs
    rw [compare_eq, compare_eq]
    exact Std.OrientedCmp.eq_swap
  isLE_trans := by
    intro us vs ws huv hvw
    rw [compare_eq] at huv hvw ⊢
    exact Std.TransCmp.isLE_trans huv hvw

instance : Std.LawfulEqCmp compare where
  compare_self := by
    intro us
    rw [compare_eq]
    exact Std.ReflCmp.compare_self
  eq_of_compare := by
    intro us vs h
    rw [compare_eq] at h
    exact Std.LawfulEqCmp.eq_of_compare h

/-- Texts are equal in this order if they are the same. -/
theorem compare_encode_eq_iff {x y : String} :
    compare (encode x.toList) (encode y.toList) = .eq ↔ x = y := by
  rw [Std.LawfulEqCmp.compare_eq_iff_eq, encode_injective.eq_iff, String.toList_inj]

end Units

end Stepwise
