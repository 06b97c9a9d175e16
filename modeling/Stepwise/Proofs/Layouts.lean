/-
What the layouts of numbers denote.

A layout sets a point between digits or in front of them, adds zeros, or writes a power behind them, and the
place of the point is counted from the power of ten of the first digit.  Every layout is a literal that is
written with the digits and zeros (`numeral`), and of such a literal the number is the one of all its digits,
with as many places taken off as stand behind the point (`numeral_value`).  So it is enough to count zeros and
places in each of the layouts, and all of them denote the digits times one power of ten.
-/
import Mathlib.Data.Nat.Digits.Defs
import Mathlib.Algebra.Order.Field.Basic
import Mathlib.Tactic.FieldSimp
import Mathlib.Tactic.Ring
import Stepwise.Proofs.Literals
import Stepwise.Proofs.Numerals

namespace Stepwise

/-! ### The number of some digits -/

namespace Digits

/-- The number that digits write, the leading one first. -/
def number (radix : ℕ) (ds : List ℕ) : ℕ := Nat.ofDigits radix ds.reverse

variable {radix : ℕ} {ds : List ℕ}

theorem number_append (radix : ℕ) (xs ys : List ℕ) :
    number radix (xs ++ ys) = number radix xs * radix ^ ys.length + number radix ys := by
  rw [number, List.reverse_append, Nat.ofDigits_append, List.length_reverse, Nat.add_comm, Nat.mul_comm]
  rfl

theorem number_cons (radix d : ℕ) (ds : List ℕ) :
    number radix (d :: ds) = d * radix ^ ds.length + number radix ds := by
  rw [← List.singleton_append, number_append]
  simp [number]

theorem number_zeros (radix n : ℕ) : number radix (List.replicate n 0) = 0 := by
  induction n with
  | zero => rfl
  | succ n ih => rw [List.replicate_succ, number_cons, ih, Nat.zero_mul]

theorem isDigit_toChar {d : ℕ} (hd : d < 10) : (toChar d).isDigit = true ∧ (toChar d).toNat - '0'.toNat = d :=
  (by decide : ∀ d < 10, (toChar d).isDigit = true ∧ (toChar d).toNat - '0'.toNat = d) d hd

theorem areDigits_toChars (hds : ∀ d ∈ ds, d < 10) : Decimal.AreDigits (toChars ds) := by
  intro c hc
  obtain ⟨d, hd, rfl⟩ := List.mem_map.mp hc
  exact (isDigit_toChar (hds d hd)).1

/-- Digits are read off the characters that they are written with. -/
theorem ofDigitChars_toChars (hds : ∀ d ∈ ds, d < 10) : Nat.ofDigitChars radix (toChars ds) 0 = number radix ds := by
  have hmore (ds : List ℕ) (hds : ∀ d ∈ ds, d < 10) (n : ℕ) :
      Nat.ofDigitChars radix (toChars ds) n = n * radix ^ ds.length + number radix ds := by
    induction ds generalizing n with
    | nil => simp [toChars, number]
    | cons d ds ih =>
        obtain ⟨hd, hrest⟩ := List.forall_mem_cons.mp hds
        show Nat.ofDigitChars radix (toChar d :: toChars ds) n = _
        rw [Nat.ofDigitChars_cons, (isDigit_toChar hd).2, ih hrest, number_cons, List.length_cons]
        ring
  rw [hmore ds hds, Nat.zero_mul, Nat.zero_add]

theorem ofNat_lt_ten (n : ℕ) : ∀ d ∈ ofNat n, d < 10 := by
  intro d hd
  obtain ⟨c, hc, rfl⟩ := List.mem_map.mp hd
  have hrange := Decimal.toNat_of_isDigit (Nat.isDigit_of_mem_toDigits (by decide) (by decide) hc)
  have hzero : '0'.toNat = 48 := rfl
  omega

end Digits

/-! ### Literals of digits and zeros -/

namespace Layout

open Digits Decimal

/-- Digits behind a point, which is left out if there are none. -/
def behindPoint (ds : List ℕ) : Option (List ℕ) := if ds = [] then none else some ds

/-- A literal that is written with digits, and an exponent if there is one. -/
def numeral (whole fraction : List ℕ) (exponent : Option ℤ) : Spelling where
  sign := none
  whole := toChars whole
  fraction := (behindPoint fraction).map toChars
  power := exponent.map fun e => ⟨'e', some (decide (e < 0)), toChars (ofNat e.natAbs)⟩

variable {whole fraction ds : List ℕ} {exponent : Option ℤ} {e : ℤ}

theorem getD_behindPoint (ds : List ℕ) : ((behindPoint ds).map toChars).getD [] = toChars ds := by
  unfold behindPoint
  split
  · rename_i hnil
    rw [hnil]
    rfl
  · rfl

theorem numeral_text (whole fraction : List ℕ) (exponent : Option ℤ) : (numeral whole fraction exponent).text =
    toChars whole ++ ((if fraction = [] then [] else '.' :: toChars fraction) ++
      (exponent.map fun e => 'e' :: (if 0 ≤ e then '+' else '-') :: toChars (ofNat e.natAbs)).getD []) := by
  have hpoint : pointText ((behindPoint fraction).map toChars) =
      if fraction = [] then [] else '.' :: toChars fraction := by
    unfold behindPoint
    split <;> rfl
  have hpower : powerText (exponent.map fun e => ⟨'e', some (decide (e < 0)), toChars (ofNat e.natAbs)⟩) =
      (exponent.map fun e => 'e' :: (if 0 ≤ e then '+' else '-') :: toChars (ofNat e.natAbs)).getD [] := by
    cases exponent with
    | none => rfl
    | some e =>
        by_cases he : e < 0
        · simp [powerText, Power.text, signText, he, not_le.mpr he]
        · simp [powerText, Power.text, signText, he, not_lt.mp he]
  rw [← hpoint, ← hpower]
  rfl

theorem numeral_proper (hwhole : ∀ d ∈ whole, d < 10) (hfraction : ∀ d ∈ fraction, d < 10)
    (hsome : whole ++ fraction ≠ []) (exponent : Option ℤ) : (numeral whole fraction exponent).Proper := by
  refine ⟨areDigits_toChars hwhole, ?_, ?_, ?_⟩
  · show AreDigits (((behindPoint fraction).map toChars).getD [])
    rw [getD_behindPoint]
    exact areDigits_toChars hfraction
  · show toChars whole ++ ((behindPoint fraction).map toChars).getD [] ≠ []
    rw [getD_behindPoint]
    simpa [toChars] using hsome
  · intro p hp
    obtain ⟨e, -, rfl⟩ := Option.map_eq_some_iff.mp hp
    refine ⟨.inl rfl, areDigits_toChars (ofNat_lt_ten _), ?_⟩
    simp [toChars, ofNat]

theorem power_exponent (e : ℤ) : Power.exponent ⟨'e', some (decide (e < 0)), toChars (ofNat e.natAbs)⟩ = e := by
  have hread : Nat.ofDigitChars 10 (toChars (ofNat e.natAbs)) 0 = e.natAbs := by
    rw [toChars_ofNat, Nat.ofDigitChars_toDigits (by decide) (by decide)]
  rw [Power.exponent, hread, withSign]
  simp only [Option.some.injEq, decide_eq_true_eq]
  split <;> omega

/-- **What is denoted is the number of all the digits**, with the places behind the point taken off. -/
theorem numeral_value (hwhole : ∀ d ∈ whole, d < 10) (hfraction : ∀ d ∈ fraction, d < 10) (exponent : Option ℤ)
    (radix : ℕ) : (numeral whole fraction exponent).value radix =
      number radix (whole ++ fraction) * (radix : ℚ) ^ (exponent.getD 0 - fraction.length) := by
  have hdigits : Nat.ofDigitChars radix (toChars whole ++ ((behindPoint fraction).map toChars).getD []) 0 =
      number radix (whole ++ fraction) := by
    rw [getD_behindPoint, toChars, toChars, ← List.map_append]
    exact ofDigitChars_toChars fun d hd => (List.mem_append.mp hd).elim (hwhole d) (hfraction d)
  have hexponent : (numeral whole fraction exponent).exponent = exponent.getD 0 := by
    cases exponent with
    | none => rfl
    | some e => exact power_exponent e
  have hlength : (((behindPoint fraction).map toChars).getD []).length = fraction.length := by
    rw [getD_behindPoint, toChars, List.length_map]
  rw [Spelling.value, hexponent]
  show ((withSign none
      (Nat.ofDigitChars radix (toChars whole ++ ((behindPoint fraction).map toChars).getD []) 0) : ℤ) : ℚ) *
    (radix : ℚ) ^ (exponent.getD 0 - ((((behindPoint fraction).map toChars).getD []).length : ℤ)) = _
  rw [hdigits, hlength]
  rfl

/-! ### Nothing to spare -/

/-- No zero in front of another digit and no point at the end. -/
structure Tidy (sp : Spelling) : Prop where
  whole_ne : sp.whole ≠ []
  whole : sp.whole.head? = some '0' → sp.whole = ['0']
  fraction : sp.fraction ≠ some []
  power : ∀ p ∈ sp.power, p.digits.head? = some '0' → p.digits = ['0']

theorem toChar_eq_zero {d : ℕ} (hd : d < 10) (h : toChar d = '0') : d = 0 :=
  (by decide : ∀ d < 10, toChar d = '0' → d = 0) d hd h

/-- The digits of a number begin with a zero only if it is zero. -/
theorem toChars_ofNat_tidy {n : ℕ} (h : (toChars (ofNat n)).head? = some '0') : toChars (ofNat n) = ['0'] := by
  rw [toChars_ofNat] at h ⊢
  rcases Nat.eq_zero_or_pos n with rfl | hn
  · rfl
  · exact absurd h (Decimal.head?_toDigits hn)

theorem numeral_tidy (hwhole : ∀ d ∈ whole, d < 10) (hne : whole ≠ []) (hfirst : whole.head? = some 0 → whole = [0])
    (fraction : List ℕ) (exponent : Option ℤ) : Tidy (numeral whole fraction exponent) where
  whole_ne := by simpa [numeral, toChars] using hne
  whole := by
    obtain ⟨d, rest, rfl⟩ := List.exists_cons_of_ne_nil hne
    intro h
    obtain rfl := toChar_eq_zero (hwhole d List.mem_cons_self) (Option.some.inj h)
    exact congrArg toChars (hfirst rfl)
  fraction := by
    show (behindPoint fraction).map toChars ≠ some []
    unfold behindPoint
    split
    · simp
    · rename_i hsome
      simpa [toChars] using hsome
  power := by
    intro p hp
    obtain ⟨e, -, rfl⟩ := Option.map_eq_some_iff.mp hp
    exact toChars_ofNat_tidy

/-! ### The four layouts -/

/-- The number of digits the first of which counts a power of ten. -/
def scaled (ds : List ℕ) (e : ℤ) : ℚ := number 10 ds * 10 ^ (e - ds.length + 1)

/-- A text is spelled so, and denotes a number. -/
structure Denotes (text : List Char) (v : ℚ) (sp : Spelling) : Prop where
  proper : sp.Proper
  text_eq : sp.text = text
  value_eq : sp.value 10 = v

theorem toChars_append (xs ys : List ℕ) : toChars (xs ++ ys) = toChars xs ++ toChars ys := List.map_append

theorem toChars_zeros (n : ℕ) : toChars (List.replicate n 0) = List.replicate n '0' := List.map_replicate

theorem zeros_lt_ten (n : ℕ) : ∀ d ∈ List.replicate n 0, d < 10 := by
  intro d hd
  rw [List.eq_of_mem_replicate hd]
  decide

theorem append_lt_ten {xs ys : List ℕ} (hxs : ∀ d ∈ xs, d < 10) (hys : ∀ d ∈ ys, d < 10) : ∀ d ∈ xs ++ ys, d < 10 :=
  fun d hd => (List.mem_append.mp hd).elim (hxs d) (hys d)

theorem head?_append_tidy (hne : ds ≠ []) (hfirst : ds.head? ≠ some 0) (more : List ℕ) :
    (ds ++ more).head? = some 0 → ds ++ more = [0] := by
  obtain ⟨d, rest, rfl⟩ := List.exists_cons_of_ne_nil hne
  exact fun h => absurd h hfirst

theorem head?_take_tidy (hfirst : ds.head? ≠ some 0) (n : ℕ) : (ds.take n).head? = some 0 → ds.take n = [0] := by
  intro h
  cases n with
  | zero => cases h
  | succ n => exact absurd ((List.head?_take ..).symm.trans h) hfirst

section

variable (hne : ds ≠ []) (hds : ∀ d ∈ ds, d < 10)

include hne hds

/-- Zeros behind the digits. -/
theorem denotes_withZeros {zeros : ℕ} (hzeros : (zeros : ℤ) = e - ds.length + 1) :
    Denotes (toChars ds ++ List.replicate zeros '0') (scaled ds e)
      (numeral (ds ++ List.replicate zeros 0) [] none) where
  proper := numeral_proper (append_lt_ten hds (zeros_lt_ten _)) (by simp) (by simp [hne]) none
  text_eq := by
    rw [numeral_text, toChars_append, toChars_zeros]
    simp
  value_eq := by
    rw [numeral_value (append_lt_ten hds (zeros_lt_ten _)) (by simp), List.append_nil, number_append, number_zeros,
      scaled, ← hzeros]
    simp

/-- A point between the digits, or none behind them all. -/
theorem denotes_pointAfter {n : ℕ} (hn : n ≤ ds.length) (he : (n : ℤ) = e + 1) :
    Denotes (pointAfter n ds) (scaled ds e) (numeral (ds.take n) (ds.drop n) none) where
  proper := numeral_proper (fun d hd => hds d (List.mem_of_mem_take hd)) (fun d hd => hds d (List.mem_of_mem_drop hd))
    (by rwa [List.take_append_drop]) none
  text_eq := by
    rw [numeral_text, pointAfter]
    by_cases hnil : ds.drop n = []
    · simp [hnil]
    · rw [if_neg hnil, if_neg (by simpa using hnil)]
      simp
  value_eq := by
    rw [numeral_value (fun d hd => hds d (List.mem_of_mem_take hd)) (fun d hd => hds d (List.mem_of_mem_drop hd)),
      List.take_append_drop, List.length_drop, scaled, Nat.cast_sub hn, he]
    congr 2
    simp
    omega

/-- Zeros between the point and the digits. -/
theorem denotes_belowOne {zeros : ℕ} (he : (zeros : ℤ) = -e - 1) :
    Denotes (belowOne zeros ds) (scaled ds e) (numeral [0] (List.replicate zeros 0 ++ ds) none) where
  proper := numeral_proper (by simp) (append_lt_ten (zeros_lt_ten _) hds) (by simp) none
  text_eq := by
    rw [numeral_text, if_neg (by simp [hne]), toChars_append, toChars_zeros, belowOne]
    simp [toChars, toChar]
  value_eq := by
    have hnumber : number 10 ([0] ++ (List.replicate zeros 0 ++ ds)) = number 10 ds := by
      rw [List.singleton_append, number_cons, number_append, number_zeros]
      omega
    rw [numeral_value (by simp) (append_lt_ten (zeros_lt_ten _) hds), hnumber, scaled, List.length_append,
      List.length_replicate]
    congr 2
    push_cast
    simp
    omega

/-- A point after the first digit, and a power. -/
theorem denotes_exponential (e : ℤ) :
    Denotes (exponential ds e) (scaled ds e) (numeral (ds.take 1) (ds.drop 1) (some e)) where
  proper := numeral_proper (fun d hd => hds d (List.mem_of_mem_take hd)) (fun d hd => hds d (List.mem_of_mem_drop hd))
    (by rwa [List.take_append_drop]) _
  text_eq := by
    obtain ⟨d, rest, rfl⟩ := List.exists_cons_of_ne_nil hne
    rw [numeral_text]
    cases rest with
    | nil => simp [exponential, toChars]
    | cons d' rest => simp [exponential, toChars]
  value_eq := by
    have hlength : 1 ≤ ds.length := List.length_pos_iff.mpr hne
    rw [numeral_value (fun d hd => hds d (List.mem_of_mem_take hd)) (fun d hd => hds d (List.mem_of_mem_drop hd)),
      List.take_append_drop, List.length_drop, scaled, Nat.cast_sub hlength]
    congr 2
    simp
    omega

/-! ### The forms -/

/-- The general form, by the place of the point: behind the digits, between them, in front of them, or too
far off. -/
theorem denotes_general (hfirst : ds.head? ≠ some 0) (e : ℤ) : ∃ sp, Denotes (general ds e) (scaled ds e) sp ∧
    (sp.power.isSome = true ↔ e < -6 ∨ 21 ≤ e) ∧ Tidy sp := by
  have hlength : 1 ≤ ds.length := List.length_pos_iff.mpr hne
  have htake {n : ℕ} (hn : 1 ≤ n) (fraction : List ℕ) (exponent : Option ℤ) :
      Tidy (numeral (ds.take n) fraction exponent) :=
    numeral_tidy (fun d hd => hds d (List.mem_of_mem_take hd)) (by simp [hne]; omega) (head?_take_tidy hfirst n) _ _
  unfold general
  dsimp only
  split
  case isTrue h =>
    simp only [Bool.and_eq_true, decide_eq_true_eq] at h
    refine ⟨_, denotes_withZeros hne hds (by omega), ?_, ?_⟩
    · simp only [numeral, Option.map_none, Option.isSome_none, Bool.false_eq_true, false_iff]
      omega
    · exact numeral_tidy (append_lt_ten hds (zeros_lt_ten _)) (by simp [hne]) (head?_append_tidy hne hfirst _) _ _
  case isFalse hzeros =>
    simp only [Bool.and_eq_true, decide_eq_true_eq] at hzeros
    split
    case isTrue h =>
      simp only [Bool.and_eq_true, decide_eq_true_eq] at h
      refine ⟨_, denotes_pointAfter hne hds (by omega) (by omega), ?_, htake (by omega) _ _⟩
      simp only [numeral, Option.map_none, Option.isSome_none, Bool.false_eq_true, false_iff]
      omega
    case isFalse hpoint =>
      simp only [Bool.and_eq_true, decide_eq_true_eq] at hpoint
      split
      case isTrue h =>
        simp only [Bool.and_eq_true, decide_eq_true_eq] at h
        refine ⟨_, denotes_belowOne hne hds (by omega), ?_, numeral_tidy (by simp) (by simp) (fun _ => rfl) _ _⟩
        simp only [numeral, Option.map_none, Option.isSome_none, Bool.false_eq_true, false_iff]
        omega
      case isFalse hbelow =>
        simp only [Bool.and_eq_true, decide_eq_true_eq] at hbelow
        refine ⟨_, denotes_exponential hne hds e, ?_, htake (by omega) _ _⟩
        simp only [numeral, Option.map_some, Option.isSome_some, true_iff]
        omega

theorem denotes_precise (e : ℤ) : ∃ sp, Denotes (precise ds e) (scaled ds e) sp ∧
    (sp.power.isSome = true ↔ e < -6 ∨ (ds.length : ℤ) ≤ e) := by
  unfold precise
  split
  case isTrue h =>
    simp only [Bool.or_eq_true, decide_eq_true_eq] at h
    exact ⟨_, denotes_exponential hne hds e, by simpa [numeral] using h⟩
  case isFalse h =>
    simp only [Bool.or_eq_true, decide_eq_true_eq] at h
    split
    · exact ⟨_, denotes_pointAfter hne hds (by omega) (by omega), by simpa [numeral] using h⟩
    · exact ⟨_, denotes_belowOne hne hds (by omega), by simpa [numeral] using h⟩

end

/-- **Every layout denotes exactly its digits.**  Whatever the digits are and whatever power of ten the first
one counts, the general form, the precise one and the exponential one are decimal literals, and what each of
them denotes is the number of the digits times that power; it has one spelling only, so it denotes nothing
else.  If the first digit is not a zero, then the general form has an exponent just where the power is below
`-6` or from `21` on, it has no zero in front of another digit, and no point stands at its end. -/
theorem layouts_denote_their_digits (hne : ds ≠ []) (hds : ∀ d ∈ ds, d < 10) (e : ℤ) :
    (ds.head? ≠ some 0 → ∃ sp, Denotes (general ds e) (scaled ds e) sp ∧
      (sp.power.isSome = true ↔ e < -6 ∨ 21 ≤ e) ∧ Tidy sp) ∧
    (∃ sp, Denotes (precise ds e) (scaled ds e) sp ∧ (sp.power.isSome = true ↔ e < -6 ∨ (ds.length : ℤ) ≤ e)) ∧
    (∃ sp, Denotes (exponential ds e) (scaled ds e) sp ∧ sp.power.isSome = true) ∧
    ∀ text v sp sp', Denotes text v sp → sp'.Proper → sp'.text = text → sp' = sp :=
  ⟨fun hfirst => denotes_general hne hds hfirst e, denotes_precise hne hds e, ⟨_, denotes_exponential hne hds e, rfl⟩,
    fun _ _ _ _ h hproper htext => Spelling.eq_of_text_eq hproper h.proper (htext.trans h.text_eq.symm)⟩

/-- The digits `125` in front of six zeros and behind seven. -/
theorem layouts_denote_their_digits_far :
    (∃ sp, Denotes "125000000".toList (scaled [1, 2, 5] 8) sp) ∧
    (∃ sp, Denotes "1.25e-7".toList (scaled [1, 2, 5] (-7)) sp) := by
  have h := layouts_denote_their_digits (show [1, 2, 5] ≠ [] by simp) (by simp)
  obtain ⟨sp, hsp, -⟩ := (h 8).1 (by simp)
  obtain ⟨sp', hsp', -⟩ := (h (-7)).1 (by simp)
  have hnear : general [1, 2, 5] 8 = "125000000".toList := by decide
  have hfar : general [1, 2, 5] (-7) = "1.25e-7".toList := by decide
  exact ⟨⟨sp, hnear ▸ hsp⟩, ⟨sp', hfar ▸ hsp'⟩⟩

end Layout

end Stepwise
