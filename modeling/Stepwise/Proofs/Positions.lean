/-
Positions.

A position is given as any number, and what counts is its whole part: from the start, or from the end
if it is below zero, and no further than the ends.  So a number and its whole part stand for the
same position (`relative_trunc`), with one gap.  `relative` asks whether a number is below zero before
it cuts it, and of a number that is below zero by less than one the whole part is not: that one is
counted from the end, where nothing is left to count, and comes out behind the last element and not
before the first (`relative_eq`).

`lastIndexOf` cuts first and has no such gap (`backwardCount_trunc`).
-/
import Stepwise.Proofs.Orders
import Stepwise.Proofs.Splices

namespace Stepwise

/-! ### Whole parts -/

/-- A number without digits behind the point is whole. -/
theorem Dyadic.floor_of_nonneg {m : Dyadic} (h : 0 ≤ m.exponent) :
    m.floor = m.significand * 2 ^ m.exponent.toNat := by
  rw [floor, show (-m.exponent).toNat = 0 by omega, Nat.shiftRight_zero, Nat.shiftLeft_eq]

/-- The digits behind the point are cut off. -/
theorem Dyadic.floor_of_nonpos {m : Dyadic} (h : m.exponent ≤ 0) :
    m.floor = m.significand / 2 ^ (-m.exponent).toNat := by
  rw [floor, show m.exponent.toNat = 0 by omega, Nat.shiftLeft_zero, Nat.shiftRight_eq_div_pow]

namespace Double

variable {x : Float} {negative : Bool} {m : Dyadic}

/-- A double has fifty-three binary digits. -/
theorem significand_lt (h : parts x = .finite negative m) : m.significand < 2 ^ 53 := by
  have hstored : (x.toBits &&& 0xfffffffffffff).toNat < 2 ^ 52 := by
    rw [UInt64.toNat_and]
    exact Nat.lt_of_le_of_lt Nat.and_le_right (by decide)
  unfold parts at h
  dsimp only at h
  split at h
  · split at h <;> cases h
  · split at h
    · cases h
      exact Nat.lt_trans hstored (by decide)
    · cases h
      show _ + 2 ^ 52 < 2 ^ 53
      omega

/-- A number whose last digit stands before the point has its first one in place. -/
theorem fits_of_exponent (h : parts x = .finite negative m) (hexponent : 0 ≤ m.exponent) :
    Fits m.significand m.exponent := by
  have hupper := significand_lt h
  have hbiased : ((x.toBits >>> 52) &&& 0x7ff).toNat ≤ 2047 := by
    rw [UInt64.toNat_and]
    exact Nat.and_le_right
  unfold parts at h
  dsimp only at h
  split at h
  · split at h <;> cases h
  · rename_i hfinite
    rw [beq_iff_eq] at hfinite
    split at h
    · cases h
      exact absurd hexponent (show ¬(0 ≤ leastPlace) by decide)
    · cases h
      have hplace : leastPlace = -1074 := rfl
      refine ⟨Nat.le_add_left _ _, hupper, ?_, ?_⟩
      · exact Int.le_trans (by decide) hexponent
      · dsimp only
        omega

/-- Nothing of a number is left where none was. -/
theorem floor_of_significand_eq_zero (h : m.significand = 0) : m.floor = 0 := by
  simp [Dyadic.floor, h]

/-- The whole part of a number has its sign, and no digits behind the point. -/
theorem exists_parts_trunc (h : parts x = .finite negative m) :
    ∃ t : Dyadic, parts (trunc x) = .finite negative t ∧ t.floor = m.floor ∧
      (t.significand = 0 ↔ m.floor = 0) := by
  unfold trunc
  rw [h]
  dsimp only
  by_cases hexponent : 0 ≤ m.exponent
  · rw [if_pos hexponent]
    refine ⟨m, h, rfl, ?_⟩
    have hpow := Nat.two_pow_pos m.exponent.toNat
    rw [Dyadic.floor_of_nonneg hexponent, Nat.mul_eq_zero]
    omega
  · rw [if_neg hexponent]
    have hfloor : m.floor < 2 ^ 53 := by
      rw [Dyadic.floor_of_nonpos (by omega)]
      exact Nat.lt_of_le_of_lt (Nat.div_le_self _ _) (significand_lt h)
    obtain ⟨t, hparts, hsame, -, hzero⟩ := exists_parts_ofWhole hfloor negative
    exact ⟨t, hparts, hsame, hzero⟩

theorem trunc_of_not_finite (h : ∀ negative m, parts x ≠ .finite negative m) : trunc x = x := by
  unfold trunc
  split
  · rename_i negative m hparts
    exact absurd hparts (h negative m)
  · rfl

theorem toInt?_trunc (x : Float) : toInt? (trunc x) = toInt? x := by
  cases h : parts x with
  | finite negative m =>
      obtain ⟨t, hparts, hfloor, -⟩ := exists_parts_trunc h
      rw [toInt?, toInt?, hparts, h]
      show some _ = some _
      rw [hfloor]
  | _ => rw [trunc_of_not_finite (by rw [h]; nofun)]

/-! ### Numbers below zero -/

/-- Which side of zero a number is on. -/
theorem order?_zero (x : Float) : order? x 0.0 =
    match parts x with
    | .nan => none
    | .infinite negative => some (if negative then .lt else .gt)
    | .finite negative m => if m.significand = 0 then some .eq else some (if negative then .lt else .gt) := by
  have hzero : (0.0 : Float).toModel.unpack = .zero .positive := rfl
  rw [parts_eq, order?, hzero]
  cases x.toModel.unpack with
  | notANumber => rfl
  | infinity s => cases s <;> rfl
  | zero s => rfl
  | finite s k e hpos =>
      show _ = if k = 0 then _ else _
      rw [if_neg (Nat.ne_of_gt hpos)]
      cases s <;> rfl

theorem lt_zero_iff (h : parts x = .finite negative m) : x < 0.0 ↔ negative = true ∧ m.significand ≠ 0 := by
  rw [lt_iff, order?_zero, h]
  by_cases hzero : m.significand = 0
  · simp [hzero]
  · cases negative <;> simp [hzero]

theorem zero_lt_infinite_iff (h : parts x = .infinite negative) : 0.0 < x ↔ negative = false := by
  rw [lt_iff, order?_swap x, order?_zero, h]
  cases negative <;> simp

theorem not_zero_lt_nan (h : parts x = .nan) : ¬0.0 < x := by
  rw [lt_iff, order?_swap x, order?_zero, h]
  simp

/-- A number below zero whose whole part is not. -/
def BarelyNegative (x : Float) : Prop := x < 0.0 ∧ toInt? x = some 0

instance (x : Float) : Decidable (BarelyNegative x) := inferInstanceAs (Decidable (_ ∧ _))

theorem barelyNegative_iff {x : Float} :
    BarelyNegative x ↔ ∃ m, parts x = .finite true m ∧ m.significand ≠ 0 ∧ m.floor = 0 := by
  unfold BarelyNegative toInt?
  cases h : parts x with
  | finite negative m =>
      rw [lt_zero_iff h]
      constructor
      · rintro ⟨⟨rfl, hnonzero⟩, hwhole⟩
        have hpart : -(m.floor : Int) = 0 := Option.some.inj hwhole
        exact ⟨m, rfl, hnonzero, by omega⟩
      · rintro ⟨m, hfinite, hnonzero, hfloor⟩
        cases hfinite
        exact ⟨⟨rfl, hnonzero⟩, by simp [hfloor]⟩
  | _ => exact iff_of_false (fun hx => by cases hx.2) (fun ⟨_, hfinite, _⟩ => by cases hfinite)

theorem not_barelyNegative_trunc (x : Float) : ¬BarelyNegative (trunc x) := by
  rw [barelyNegative_iff]
  rintro ⟨t, ht, hnonzero, hfloor⟩
  cases h : parts x with
  | finite negative m =>
      obtain ⟨t', ht', hsame, hzero⟩ := exists_parts_trunc h
      cases ht.symm.trans ht'
      exact hnonzero (hzero.mpr (hsame.symm.trans hfloor))
  | _ =>
      rw [trunc_of_not_finite (by rw [h]; nofun), h] at ht
      cases ht

/-! ### Positions -/

/-- The position that the whole part of a number stands for in a sequence: counted from the start, or
from the end if it is below zero, and no further than the ends. -/
def wholePosition (x : Float) (length : Nat) : Nat :=
  match toInt? x with
  | some whole => (if whole < 0 then max (length + whole) 0 else min whole length).toNat
  | none => if 0.0 < x then length else 0

theorem wholePosition_le (x : Float) (length : Nat) : wholePosition x length ≤ length := by
  unfold wholePosition
  split
  · split <;> omega
  · split <;> omega

theorem wholePosition_trunc (x : Float) (length : Nat) : wholePosition (trunc x) length = wholePosition x length := by
  unfold wholePosition
  rw [toInt?_trunc]
  split
  · rfl
  · rename_i hwhole
    rw [trunc_of_not_finite]
    intro negative m hparts
    rw [toInt?, hparts] at hwhole
    cases hwhole

/-- **The position of a number is that of its whole part**, but a number that is barely below zero
stands behind the last element. -/
theorem relative_eq (x : Float) (length : Nat) :
    relative x length = if BarelyNegative x then length else wholePosition x length := by
  by_cases hbarely : BarelyNegative x
  · obtain ⟨m, h, hnonzero, hfloor⟩ := barelyNegative_iff.mp hbarely
    rw [if_pos hbarely, relative, h]
    simp [hnonzero, hfloor]
  · rw [if_neg hbarely, relative, wholePosition, toInt?]
    cases h : parts x with
    | nan => simp [not_zero_lt_nan h]
    | infinite negative => cases negative <;> simp [zero_lt_infinite_iff h]
    | finite negative m =>
        cases negative with
        | false =>
            have hfloor : ¬(m.floor : Int) < 0 := by omega
            simp [hfloor]
            omega
        | true =>
            by_cases hfloor : m.floor = 0
            · have hzero : m.significand = 0 := by
                by_contra hnonzero
                exact hbarely (barelyNegative_iff.mpr ⟨m, h, hnonzero, hfloor⟩)
              simp [hzero, hfloor]
            · have hnonzero : m.significand ≠ 0 := fun hzero => hfloor (floor_of_significand_eq_zero hzero)
              have hbelow : -(m.floor : Int) < 0 := by omega
              simp only [hnonzero, hbelow, bne_iff_ne, ne_eq, not_false_eq_true, Bool.true_and, if_true]
              omega

/-- A number and its whole part stand for the same position otherwise. -/
theorem relative_trunc (x : Float) (length : Nat) : relative (trunc x) length = wholePosition x length := by
  rw [relative_eq, if_neg (not_barelyNegative_trunc x), wholePosition_trunc]

/-- A search from behind cuts a number to its whole part before it asks for the sign. -/
theorem backwardCount_trunc (x : Float) (length : Nat) : backwardCount (trunc x) length = backwardCount x length := by
  cases h : parts x with
  | finite negative m =>
      obtain ⟨t, hparts, hfloor, -⟩ := exists_parts_trunc h
      rw [backwardCount, backwardCount, hparts, h]
      dsimp only
      rw [hfloor]
  | _ => rw [trunc_of_not_finite (by rw [h]; nofun)]

end Double

/-! ### Arguments -/

section

variable {args : List Value} {i : Nat} {w : Value}

theorem argument_set (hi : i < args.length) : argument (args.set i w) i = w := by
  rw [argument, List.getElem?_set_self hi, Option.getD_some]

theorem argument_set_of_ne {j : Nat} (hne : j ≠ i) : argument (args.set i w) j = argument args j := by
  rw [argument, argument, List.getElem?_set_ne hne.symm]

end

namespace Heap

variable {s : Heap} {args : List Value} {i : Nat} {v : Value}

/-- The position of an argument is that of its number. -/
theorem positionArgument_of_some (harg : args[i]? = some v) (hv : v.isUndefined = false) (length default : Nat) :
    s.positionArgument args i length default = Double.relative (s.toNumber v) length := by
  rw [positionArgument, argument, harg, Option.getD_some]
  cases v with
  | undefined => cases hv
  | _ => rfl

theorem positionArgument_set (hi : i < args.length) (x : Float) (length default : Nat) :
    s.positionArgument (args.set i (.number x)) i length default = Double.relative x length :=
  positionArgument_of_some (List.getElem?_set_self hi) rfl length default

theorem positionArgument_set_of_ne {j : Nat} (hne : j ≠ i) (w : Value) (length default : Nat) :
    s.positionArgument (args.set i w) j length default = s.positionArgument args j length default := by
  rw [positionArgument, positionArgument, argument_set_of_ne hne]

theorem length_elements {values : List Value} (h : s.elements v = .ok values) : values.length = s.lengthOf v := by
  unfold elements at h
  dsimp only at h
  split at h
  · cases h
  · cases h
    rw [List.length_map, List.length_range]

end Heap

namespace Sequence

open Store

variable {s : Heap} {target : Value} {args args' : List Value} {i : Nat}

private theorem query_elements_of_error {e : Failure} (h : s.elements target = .error e) :
    Edit.query (fun s => s.elements target) s = (.error e, s) := by
  rw [Edit.query, h]

/-- `slice` sees nothing of its arguments but the two positions. -/
theorem slice_congr
    (hstart : s.positionArgument args 0 (s.lengthOf target) 0 = s.positionArgument args' 0 (s.lengthOf target) 0)
    (hstop : s.positionArgument args 1 (s.lengthOf target) (s.lengthOf target) =
      s.positionArgument args' 1 (s.lengthOf target) (s.lengthOf target)) :
    slice target args s = slice target args' s := by
  cases h : s.elements target with
  | error e =>
      have hfailed := query_elements_of_error h
      rw [slice, slice, bind_of_error hfailed, bind_of_error hfailed]
  | ok values => rw [slice_eq h, slice_eq h, Heap.length_elements h, hstart, hstop]

/-- `splice` sees nothing of its first argument but the position. -/
theorem splice_congr
    (hstart : s.positionArgument args 0 (s.lengthOf target) 0 = s.positionArgument args' 0 (s.lengthOf target) 0)
    (hlength : args.length = args'.length) (hcount : argument args 1 = argument args' 1)
    (hnew : args.drop 2 = args'.drop 2) : splice target args s = splice target args' s := by
  have hremoval (available : Nat) : removalCount s args available = removalCount s args' available := by
    rw [removalCount, removalCount, hlength, Heap.numberArgument, Heap.numberArgument, hcount]
  cases h : s.elements target with
  | error e =>
      have hfailed := query_elements_of_error h
      rw [splice, splice, bind_of_error hfailed, bind_of_error hfailed]
  | ok values => simp only [splice_eq h, Heap.length_elements h, hstart, hremoval, hnew]

theorem indexOf_congr (hwanted : argument args 0 = argument args' 0)
    (hstart : s.positionArgument args 1 (s.lengthOf target) 0 = s.positionArgument args' 1 (s.lengthOf target) 0) :
    indexOf s target args = indexOf s target args' := by
  simp only [indexOf, hwanted, hstart]

/-! ### The methods that take positions -/

/-- Which arguments of which methods are positions that count from either end. -/
inductive TakesPosition : ArrayMethod → Nat → Prop
  | sliceStart : TakesPosition .slice 0
  | sliceStop : TakesPosition .slice 1
  | spliceStart : TakesPosition .splice 0
  | indexOfStart : TakesPosition .indexOf 1

variable {m : ArrayMethod} {id : ObjectId} {v w : Value}

/-- **A method sees nothing of such an argument but the position.** -/
theorem method_set (hm : TakesPosition m i)
    (hposition : ∀ default, s.positionArgument (args.set i w) i (s.lengthOf (.object id)) default =
      s.positionArgument args i (s.lengthOf (.object id)) default) :
    method m (.object id) (args.set i w) s = method m (.object id) args s := by
  cases hm <;>
    rw [method, method, bind_of_ok (refuseNullish_object _ id s), bind_of_ok (refuseNullish_object _ id s)]
  case sliceStart => exact slice_congr (hposition _) (Heap.positionArgument_set_of_ne (by decide) w _ _)
  case sliceStop => exact slice_congr (Heap.positionArgument_set_of_ne (by decide) w _ _) (hposition _)
  case spliceStart =>
    exact splice_congr (hposition _) List.length_set (argument_set_of_ne (by decide)) (List.drop_set_of_lt (by decide))
  case indexOfStart =>
    have hanswer := indexOf_congr (argument_set_of_ne (by decide)) (hposition 0)
    show Edit.ask (fun s => indexOf s (.object id) (args.set 1 w)) s = Edit.ask (fun s => indexOf s (.object id) args) s
    rw [Edit.ask, Edit.ask, hanswer]

/-- Two numbers that stand for the same position are as good as each other. -/
theorem method_set_congr (hm : TakesPosition m i) (hi : i < args.length) {x y : Float}
    (h : Double.relative x (s.lengthOf (.object id)) = Double.relative y (s.lengthOf (.object id))) :
    method m (.object id) (args.set i (.number x)) s = method m (.object id) (args.set i (.number y)) s := by
  have hset : (args.set i (.number y)).set i (.number x) = args.set i (.number x) := List.set_set ..
  rw [← hset]
  refine method_set hm fun default => ?_
  rw [Heap.positionArgument_set (by rwa [List.length_set]), Heap.positionArgument_set hi, h]

/-- **A position is that of the whole part of a number**, so the whole part may stand in for the number and
the position for both.  Only what is barely below zero is taken for the end. -/
theorem positions_are_whole (hm : TakesPosition m i) (harg : args[i]? = some v) (hv : v.isUndefined = false) :
    let x := s.toNumber v
    let n := s.lengthOf (.object id)
    let run (x : Float) := method m (.object id) (args.set i (.number x)) s
    (∀ default, s.positionArgument args i n default =
      if Double.BarelyNegative x then n else Double.wholePosition x n) ∧
    run (Double.trunc x) = run (Float.ofNat (Double.wholePosition x n)) ∧
    (¬Double.BarelyNegative x → method m (.object id) args s = run (Double.trunc x)) ∧
    (Double.BarelyNegative x → method m (.object id) args s = run (Float.ofNat n)) := by
  intro x n run
  have hi : i < args.length := (List.getElem?_eq_some_iff.mp harg).1
  have hposition (default : Nat) : s.positionArgument args i n default = Double.relative x n :=
    Heap.positionArgument_of_some harg hv n default
  have hsame {y : Float} (h : Double.relative y n = Double.relative x n) : method m (.object id) args s = run y := by
    refine (method_set hm fun default => ?_).symm
    rw [Heap.positionArgument_set hi, hposition default, h]
  have hwhole {k : Nat} (hk : k ≤ n) : Double.relative (Float.ofNat k) n = k := by
    have hn : n < 2 ^ 53 := Nat.lt_trans (s.lengthOf_lt (.object id)) (by decide)
    rw [Double.relative_ofNat (Nat.lt_of_le_of_lt hk hn), Nat.min_eq_left hk]
  refine ⟨fun default => ?_, ?_, fun hx => hsame ?_, fun hx => hsame ?_⟩
  · rw [hposition, Double.relative_eq]
  · refine method_set_congr hm hi ?_
    rw [Double.relative_trunc, hwhole (Double.wholePosition_le x n)]
  · rw [Double.relative_trunc, Double.relative_eq, if_neg hx]
  · rw [hwhole (Nat.le_refl n), Double.relative_eq, if_pos hx]

/-- What begins at one and a half begins at one. -/
theorem slice_from_one_and_a_half :
    method .slice (.object ⟨0⟩) [.number 1.5] Heap.pair = method .slice (.object ⟨0⟩) [.ofNat 1] Heap.pair := by
  obtain ⟨-, hwhole, hsame, -⟩ :=
    @positions_are_whole Heap.pair [.number 1.5] 0 .slice ⟨0⟩ (.number 1.5) .sliceStart rfl rfl
  exact (hsame (by decide)).trans hwhole

/-- What is cut out of an array from a position on. -/
private theorem slice_from {values : List Value} (hlists : s.Lists id values) (hdense : values.length ≤ maxDenseLength)
    (x : Float) : ∃ new s', method .slice (.object id) [.number x] s = (.ok (.object new), s') ∧
      s'.sequence (.object new) = values.drop (Double.relative x values.length) := by
  have hbound : values.length < lengthBound := Nat.lt_of_le_of_lt hdense (by decide)
  have hsequence := hlists.sequence_eq hbound
  have hlength : s.lengthOf (.object id) = values.length := by rw [← s.length_sequence, hsequence]
  have helements : s.elements (.object id) = .ok values := by
    rw [Heap.elements_eq (by rwa [hlength]), hsequence]
  have hcut : ((values.drop (Double.relative x values.length)).take
      (values.length - Double.relative x values.length)).length < lengthBound := by
    rw [List.length_take, List.length_drop]
    omega
  obtain ⟨new, s', hrun, hmakes, -⟩ := allocArray_makes s hcut
  refine ⟨new, s', ?_, ?_⟩
  · rw [method, bind_of_ok (refuseNullish_object _ id s), slice_eq helements]
    exact hrun
  · rw [hmakes.sequence, ← List.length_drop, List.take_length]

/-- Nothing is left of an array from half a step below zero on, and all of it from the whole part of
that on. -/
theorem slice_from_half_below : ∃ e, Evaluator.HostedFairly [] e ∧ ∃ id,
    (∃ new s', method .slice (.object id) [.number (-0.5)] e.store.toHeap = (.ok (.object new), s') ∧
      s'.sequence (.object new) = []) ∧
    ∃ new s', method .slice (.object id) [.number (Double.trunc (-0.5))] e.store.toHeap = (.ok (.object new), s') ∧
      s'.sequence (.object new) = [.string "x"] := by
  have hvalues : ∀ v ∈ [Value.string "x"], v.isPrimitive = true := List.forall_mem_singleton.mpr rfl
  obtain ⟨e, id, he, ho⟩ := (Evaluator.HostedFairly.realm {} none 0 1).exists_array hvalues
  have hlists := Heap.lists_arrayOf ho
  exact ⟨e, he, id, slice_from hlists (by decide) (-0.5), slice_from hlists (by decide) (Double.trunc (-0.5))⟩

/-- The start of a search from behind may always be replaced by its whole part. -/
theorem lastIndexOf_trunc (harg : args[1]? = some v) (hv : v.isUndefined = false) :
    lastIndexOf s target (args.set 1 (.number (Double.trunc (s.toNumber v)))) = lastIndexOf s target args := by
  obtain ⟨hi, -⟩ := List.getElem?_eq_some_iff.mp harg
  have hstart : argument args 1 = v := by rw [argument, harg, Option.getD_some]
  have hcut (length : Nat) : Double.backwardCount (s.toNumber (.number (Double.trunc (s.toNumber v)))) length =
      Double.backwardCount (s.toNumber v) length := Double.backwardCount_trunc (s.toNumber v) length
  rw [lastIndexOf, lastIndexOf, argument_set hi, argument_set_of_ne (by decide), hstart]
  cases v with
  | undefined => cases hv
  | _ => simp only [hcut]

end Sequence

end Stepwise
