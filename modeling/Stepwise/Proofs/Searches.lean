/-
Searches.

`indexOf` and `lastIndexOf` walk the indices of an array until they meet the value, upward from a
start or downward from one.  A long array is walked by the indices that it owns.  A walk over all
indices meets the holes as well, and at a hole it reads undefined; so both walks come to the same
place whatever they look for, unless that is undefined (`searches_agree`).  Then a hole is a match for
the one walk, and the other one never comes there.
-/
import Stepwise.Proofs.Inventory
import Stepwise.Proofs.Queues

namespace Stepwise

/-! ### The first match of a walk -/

section

variable {r : Nat → Nat → Prop} {l walk : List Nat} {p q : Nat → Bool} {a : Nat}

/-- In a walk along an order the first match has no other one before it. -/
theorem find?_eq_some_of_pairwise (hasymm : ∀ a b, r a b → ¬r b a) (hl : l.Pairwise r) :
    l.find? p = some a ↔ a ∈ l ∧ p a = true ∧ ∀ b ∈ l, r b a → p b = false := by
  induction l with
  | nil => simp
  | cons x l ih =>
      obtain ⟨hx, hl⟩ := List.pairwise_cons.mp hl
      rw [List.find?_cons]
      cases hp : p x with
      | true =>
          constructor
          · intro h
            cases h
            refine ⟨List.mem_cons_self, hp, fun b hb hbefore => ?_⟩
            rcases List.mem_cons.mp hb with rfl | hb
            · exact absurd hbefore (hasymm b b hbefore)
            · exact absurd hbefore (hasymm _ b (hx b hb))
          · rintro ⟨ha, -, hfirst⟩
            rcases List.mem_cons.mp ha with rfl | ha
            · rfl
            · have hno := hfirst x List.mem_cons_self (hx a ha)
              rw [hp] at hno
              cases hno
      | false =>
          rw [ih hl]
          constructor
          · rintro ⟨ha, hpa, hfirst⟩
            refine ⟨List.mem_cons_of_mem x ha, hpa, fun b hb hbefore => ?_⟩
            rcases List.mem_cons.mp hb with rfl | hb
            · exact hp
            · exact hfirst b hb hbefore
          · rintro ⟨ha, hpa, hfirst⟩
            have hne : a ≠ x := by
              rintro rfl
              rw [hp] at hpa
              cases hpa
            exact ⟨(List.mem_cons.mp ha).resolve_left hne, hpa, fun b hb => hfirst b (List.mem_cons_of_mem x hb)⟩

/-- A walk that leaves places out comes to another match just if one of these is a match, and none of those that
it keeps is one before. -/
theorem find?_ne_iff (hasymm : ∀ a b, r a b → ¬r b a) (htotal : ∀ a b, r a b ∨ a = b ∨ r b a) (hl : l.Pairwise r)
    (hwalk : walk.Pairwise r) (hmem : ∀ a, a ∈ walk ↔ a ∈ l ∧ q a = true) :
    l.find? p ≠ walk.find? p ↔
      ∃ a ∈ l, p a = true ∧ q a = false ∧ ∀ b ∈ l, r b a → q b = true → p b = false := by
  constructor
  · intro hne
    cases h : l.find? p with
    | none =>
        have hnone : walk.find? p = none := by
          rw [List.find?_eq_none] at h ⊢
          exact fun a ha => h a ((hmem a).mp ha).1
        exact absurd (h.trans hnone.symm) hne
    | some a =>
        obtain ⟨ha, hpa, hfirst⟩ := (find?_eq_some_of_pairwise hasymm hl).mp h
        refine ⟨a, ha, hpa, ?_, fun b hb hbefore _ => hfirst b hb hbefore⟩
        by_contra hqa
        have hkept : a ∈ walk := (hmem a).mpr ⟨ha, by simpa using hqa⟩
        have hsame : walk.find? p = some a := (find?_eq_some_of_pairwise hasymm hwalk).mpr
          ⟨hkept, hpa, fun b hb => hfirst b ((hmem b).mp hb).1⟩
        exact hne (h.trans hsame.symm)
  · rintro ⟨a, ha, hpa, hqa, hfirst⟩ heq
    cases h : l.find? p with
    | none => exact List.find?_eq_none.mp h a ha hpa
    | some b =>
        obtain ⟨hb, hpb, hbefore⟩ := (find?_eq_some_of_pairwise hasymm hl).mp h
        obtain ⟨hkept, -, -⟩ := (find?_eq_some_of_pairwise hasymm hwalk).mp (heq.symm.trans h)
        have hqb := ((hmem b).mp hkept).2
        rcases htotal a b with hab | rfl | hba
        · rw [hbefore a ha hab] at hpa
          cases hpa
        · rw [hqa] at hqb
          cases hqb
        · rw [hfirst b hb hba hqb] at hpb
          cases hpb

end

/-! ### Matches -/

namespace Value

theorem undefined_strictEquals (v : Value) : undefined.strictEquals v = v.isUndefined := by cases v <;> rfl

theorem strictEquals_undefined (v : Value) : v.strictEquals undefined = v.isUndefined := by cases v <;> rfl

theorem isUndefined_iff {v : Value} : v.isUndefined = true ↔ v = undefined := by cases v <;> simp [isUndefined]

end Value

namespace Sequence

variable {s : Heap} {id : ObjectId} {args : List Value} {n : Nat}

/-- The index that `indexOf` comes to on a walk. -/
def firstMatch (s : Heap) (target : Value) (args : List Value) (walk : List Nat) : Option Nat :=
  walk.find? fun i =>
    s.positionArgument args 1 (s.lengthOf target) 0 ≤ i && holds s target (argument args 0) i

/-- So many elements from the first on `lastIndexOf` looks at. -/
def searchCount (s : Heap) (args : List Value) (length : Nat) : Nat :=
  match argument args 1 with
  | .undefined => length
  | v => Double.backwardCount (s.toNumber v) length

/-- The index that `lastIndexOf` comes to on a walk, which it takes backward. -/
def lastMatch (s : Heap) (target : Value) (args : List Value) (walk : List Nat) : Option Nat :=
  walk.reverse.find? fun i => i < searchCount s args (s.lengthOf target) && holds s target (argument args 0) i

theorem indexOf_eq (s : Heap) (target : Value) (args : List Value) :
    indexOf s target args = place (firstMatch s target args (s.elementIndices target (s.lengthOf target))) := rfl

theorem lastIndexOf_eq (s : Heap) (target : Value) (args : List Value) :
    lastIndexOf s target args = place (lastMatch s target args (s.elementIndices target (s.lengthOf target))) := rfl

theorem searchCount_le (s : Heap) (args : List Value) (length : Nat) : searchCount s args length ≤ length := by
  unfold searchCount
  split
  · exact Nat.le_refl length
  · unfold Double.backwardCount
    split
    · exact Nat.min_le_right 1 length
    · split
      · exact Nat.zero_le length
      · exact Nat.le_refl length
    · rename_i negative m _
      by_cases hfloor : m.floor = 0
      · simp only [hfloor, bne_self_eq_false, Bool.and_false]
        exact Nat.min_le_right 1 length
      · split <;> omega

/-- Places are told apart. -/
theorem place_inj {a b : Option Nat} (ha : ∀ i ∈ a, i < lengthBound) (hb : ∀ i ∈ b, i < lengthBound) :
    place a = place b ↔ a = b := by
  constructor
  · intro h
    cases a with
    | none =>
        cases b with
        | none => rfl
        | some j => exact absurd (Value.number.inj h).symm (Double.ofNat_ne_minus_one j)
    | some i =>
        cases b with
        | none => exact absurd (Value.number.inj h) (Double.ofNat_ne_minus_one i)
        | some j =>
            have hindex := congrArg Double.toIndex? (Value.number.inj h)
            rwa [Double.toIndex?_ofNat (ha i rfl), Double.toIndex?_ofNat (hb j rfl)] at hindex
  · rintro rfl
    rfl

/-- What an array that inherits no element has at an index is its own element, or undefined. -/
theorem holds_eq (hlength : s.lengthAt? id = some n) (hn : n < lengthBound) (hinherits : s.InheritsNoElement id)
    (wanted : Value) {i : Nat} (hi : i < n) :
    holds s (.object id) wanted i = ((s.ownElement? id i).getD .undefined).strictEquals wanted := by
  obtain ⟨o, ho, hkind⟩ := Heap.exists_array_of_lengthAt? hlength
  rw [holds, Heap.element_object (Heap.stringData?_of_array ho hkind) (lt_indexBound hi hn),
    hinherits.inheritedElement_eq]

/-- **Two walks along one order, one over all indices and one over those that are owned, come to different
matches** just if undefined is looked for, and a hole comes before all undefined that is owned. -/
theorem find?_holds_ne_iff (hlength : s.lengthAt? id = some n) (hn : n < lengthBound)
    (hinherits : s.InheritsNoElement id) {r : Nat → Nat → Prop} (hasymm : ∀ a b, r a b → ¬r b a)
    (htotal : ∀ a b, r a b ∨ a = b ∨ r b a) {all own : List Nat} (hall : all.Pairwise r) (hown : own.Pairwise r)
    (hmemAll : ∀ i, i ∈ all ↔ i < n) (hmemOwn : ∀ i, i ∈ own ↔ i < n ∧ (s.ownElement? id i).isSome = true)
    (inRange : Nat → Bool) (wanted : Value) :
    (all.find? fun i => inRange i && holds s (.object id) wanted i) ≠
        (own.find? fun i => inRange i && holds s (.object id) wanted i) ↔
      wanted = .undefined ∧ ∃ i < n, inRange i = true ∧ s.ownElement? id i = none ∧
        ∀ j < n, r j i → inRange j = true → s.ownElement? id j ≠ some .undefined := by
  have hholds {i : Nat} (hi : i < n) := holds_eq hlength hn hinherits wanted hi
  rw [find?_ne_iff hasymm htotal hall hown (q := fun i => (s.ownElement? id i).isSome)
    fun i => by rw [hmemOwn, hmemAll]]
  constructor
  · rintro ⟨i, hi, hmatch, hhole, hbefore⟩
    obtain ⟨hrange, hmatch⟩ := Bool.and_eq_true_iff.mp hmatch
    have hnone : s.ownElement? id i = none := Option.isSome_eq_false_iff.mp hhole |> Option.isNone_iff_eq_none.mp
    rw [hholds ((hmemAll i).mp hi), hnone, Option.getD_none, Value.undefined_strictEquals,
      Value.isUndefined_iff] at hmatch
    refine ⟨hmatch, i, (hmemAll i).mp hi, hrange, hnone, fun j hj hji hjrange hundefined => ?_⟩
    have hmiss := hbefore j ((hmemAll j).mpr hj) hji (by rw [hundefined]; rfl)
    rw [hjrange, Bool.true_and, hholds hj, hundefined, hmatch] at hmiss
    cases hmiss
  · rintro ⟨rfl, i, hi, hrange, hhole, hbefore⟩
    refine ⟨i, (hmemAll i).mpr hi, ?_, by rw [hhole]; rfl, fun j hj hji howned => ?_⟩
    · rw [hrange, Bool.true_and, hholds hi, hhole]
      rfl
    · rw [hholds ((hmemAll j).mp hj), Value.strictEquals_undefined]
      by_contra hmatch
      obtain ⟨hjrange, hundefined⟩ := Bool.and_eq_true_iff.mp (Bool.eq_true_of_not_eq_false hmatch)
      obtain ⟨v, hv⟩ := Option.isSome_iff_exists.mp howned
      rw [hv, Option.getD_some, Value.isUndefined_iff] at hundefined
      exact hbefore j ((hmemAll j).mp hj) hji hjrange (by rw [hv, hundefined])

theorem firstMatch_ne_iff (hlength : s.lengthAt? id = some n) (hn : n < lengthBound)
    (hinherits : s.InheritsNoElement id) (args : List Value) :
    let start := s.positionArgument args 1 n 0
    firstMatch s (.object id) args (List.range n) ≠ firstMatch s (.object id) args (s.ownIndices (.object id) n) ↔
      argument args 0 = .undefined ∧ ∃ i, start ≤ i ∧ i < n ∧ s.ownElement? id i = none ∧
        ∀ j, start ≤ j → j < i → s.ownElement? id j ≠ some .undefined := by
  intro start
  obtain ⟨o, ho, hkind⟩ := Heap.exists_array_of_lengthAt? hlength
  have hiff := find?_holds_ne_iff hlength hn hinherits (fun _ _ => Nat.lt_asymm) Nat.lt_trichotomy
    List.pairwise_lt_range (s.ownIndices_ascending (.object id) n) (fun _ => List.mem_range)
    (fun i => by rw [Heap.mem_ownIndices, Heap.ownElement?, Option.isSome_map]) (fun i => start ≤ i) (argument args 0)
  rw [firstMatch, firstMatch, Heap.lengthOf_array ho hkind hn, hiff]
  simp only [decide_eq_true_eq]
  constructor
  · rintro ⟨hwanted, i, hi, hstart, hhole, hbefore⟩
    exact ⟨hwanted, i, hstart, hi, hhole, fun j hj hji => hbefore j (Nat.lt_trans hji hi) hji hj⟩
  · rintro ⟨hwanted, i, hstart, hi, hhole, hbefore⟩
    exact ⟨hwanted, i, hi, hstart, hhole, fun j _ hji hj => hbefore j hj hji⟩

theorem lastMatch_ne_iff (hlength : s.lengthAt? id = some n) (hn : n < lengthBound)
    (hinherits : s.InheritsNoElement id) (args : List Value) :
    let count := searchCount s args n
    lastMatch s (.object id) args (List.range n) ≠ lastMatch s (.object id) args (s.ownIndices (.object id) n) ↔
      argument args 0 = .undefined ∧ ∃ i, i < count ∧ s.ownElement? id i = none ∧
        ∀ j, i < j → j < count → s.ownElement? id j ≠ some .undefined := by
  intro count
  obtain ⟨o, ho, hkind⟩ := Heap.exists_array_of_lengthAt? hlength
  have hcount : count ≤ n := searchCount_le s args n
  have hiff := find?_holds_ne_iff hlength hn hinherits (r := fun a b => b < a) (fun _ _ => Nat.lt_asymm)
    (fun a b => (Nat.lt_trichotomy b a).imp_right fun h => h.imp_left Eq.symm)
    (List.pairwise_reverse.mpr List.pairwise_lt_range)
    (List.pairwise_reverse.mpr (s.ownIndices_ascending (.object id) n))
    (fun _ => List.mem_reverse.trans List.mem_range)
    (fun i => by rw [List.mem_reverse, Heap.mem_ownIndices, Heap.ownElement?, Option.isSome_map])
    (fun i => i < count) (argument args 0)
  rw [lastMatch, lastMatch, Heap.lengthOf_array ho hkind hn, hiff]
  simp only [decide_eq_true_eq]
  constructor
  · rintro ⟨hwanted, i, -, hi, hhole, hbehind⟩
    exact ⟨hwanted, i, hi, hhole, fun j hij hj => hbehind j (Nat.lt_of_lt_of_le hj hcount) hij hj⟩
  · rintro ⟨hwanted, i, hi, hhole, hbehind⟩
    exact ⟨hwanted, i, Nat.lt_of_lt_of_le hi hcount, hi, hhole, fun j _ hij hj => hbehind j hij hj⟩

/-- **A search comes to the same place whether it walks all indices of an array or those that it owns**, unless
it looks for undefined and there is a hole on its way to the first undefined that is owned.  Long
arrays are searched the second way, and all others the first. -/
theorem searches_agree (hlength : s.lengthAt? id = some n) (hn : n < lengthBound)
    (hinherits : s.InheritsNoElement id) (args : List Value) :
    let start := s.positionArgument args 1 n 0
    let count := searchCount s args n
    let all := List.range n
    let own := s.ownIndices (.object id) n
    let first := fun walk => place (firstMatch s (.object id) args walk)
    let last := fun walk => place (lastMatch s (.object id) args walk)
    (method .indexOf (.object id) args s = (.ok (first (if n ≤ maxDenseLength then all else own)), s) ∧
      method .lastIndexOf (.object id) args s = (.ok (last (if n ≤ maxDenseLength then all else own)), s)) ∧
    (first all ≠ first own ↔ argument args 0 = .undefined ∧ ∃ i, start ≤ i ∧ i < n ∧ s.ownElement? id i = none ∧
      ∀ j, start ≤ j → j < i → s.ownElement? id j ≠ some .undefined) ∧
    (last all ≠ last own ↔ argument args 0 = .undefined ∧ ∃ i, i < count ∧ s.ownElement? id i = none ∧
      ∀ j, i < j → j < count → s.ownElement? id j ≠ some .undefined) := by
  intro start count all own first last
  obtain ⟨o, ho, hkind⟩ := Heap.exists_array_of_lengthAt? hlength
  have hbelow {walk : List Nat} (hwalk : ∀ i ∈ walk, i < n) {p : Nat → Bool} : ∀ i ∈ walk.find? p, i < lengthBound :=
    fun i hi => Nat.lt_trans (hwalk i (List.mem_of_find?_eq_some hi)) hn
  have hall : ∀ i ∈ all, i < n := fun i hi => List.mem_range.mp hi
  have hown : ∀ i ∈ own, i < n := fun i hi => (Heap.mem_ownIndices.mp hi).1
  have hreversed {walk : List Nat} (hwalk : ∀ i ∈ walk, i < n) : ∀ i ∈ walk.reverse, i < n :=
    fun i hi => hwalk i (List.mem_reverse.mp hi)
  refine ⟨⟨?_, ?_⟩, ?_, ?_⟩
  · rw [method, bind_of_ok (refuseNullish_object _ id s), Edit.ask, indexOf_eq, Heap.lengthOf_array ho hkind hn,
      Heap.elementIndices_eq]
  · rw [method, bind_of_ok (refuseNullish_object _ id s), Edit.ask, lastIndexOf_eq, Heap.lengthOf_array ho hkind hn,
      Heap.elementIndices_eq]
  · exact (not_congr (place_inj (hbelow hall) (hbelow hown))).trans (firstMatch_ne_iff hlength hn hinherits args)
  · exact (not_congr (place_inj (hbelow (hreversed hall)) (hbelow (hreversed hown)))).trans
      (lastMatch_ne_iff hlength hn hinherits args)

end Sequence

namespace Heap

/-- In a long array with one element, behind a hole, that element is found as on a walk over all indices. -/
theorem gap_is_searched_through : Sequence.method .indexOf (.object ⟨0⟩) [.string "x"] gap =
    (.ok (Sequence.place (Sequence.firstMatch gap (.object ⟨0⟩) [.string "x"] (List.range 16777218))), gap) := by
  obtain ⟨⟨hrun, -⟩, hsame, -⟩ := @Sequence.searches_agree gap ⟨0⟩ 16777218 rfl (by decide) nofun [.string "x"]
  have hagree : Sequence.place (Sequence.firstMatch gap (.object ⟨0⟩) [.string "x"] (List.range 16777218)) =
      Sequence.place (Sequence.firstMatch gap (.object ⟨0⟩) [.string "x"] (gap.ownIndices (.object ⟨0⟩) 16777218)) := by
    by_contra hne
    obtain ⟨hwanted, -⟩ := hsame.mp hne
    cases hwanted
  rw [hrun, if_neg (by decide), hagree]

end Heap

namespace Sequence

variable {s : Heap} {id : ObjectId} {n : Nat}

/-- Where nothing has elements, undefined stands at every index of an array, and at none that is owned. -/
private theorem search_holes {o : Object} (ho : s.object? id = some o) (hkind : o.kind = .array n)
    (hn : n < lengthBound) (hlong : maxDenseLength < n)
    (hlacks : s.Every fun o => ∀ i, o.properties.get? (.index i) = none) :
    s.InheritsNoElement id ∧ method .indexOf (.object id) [.undefined] s = (.ok (.number (-1.0)), s) ∧
      place (firstMatch s (.object id) [.undefined] (List.range n)) = .ofNat 0 := by
  have hnone (j : ObjectId) (i : Nat) : s.own? j (.index i) = none := by
    rw [Heap.own?, Option.bind_eq_none_iff]
    exact fun o ho => hlacks j o ho i
  have hlength : s.lengthAt? id = some n := by simp [Heap.lengthAt?, ho, Object.arrayLength?, hkind]
  have hinherits : s.InheritsNoElement id := fun j _ i => hnone j i
  have hpos : 0 < n := Nat.zero_lt_of_lt hlong
  refine ⟨hinherits, ?_, ?_⟩
  · have howned : s.ownIndices (.object id) n = [] := by
      refine List.eq_nil_iff_forall_not_mem.mpr fun i hi => ?_
      rw [Heap.mem_ownIndices, hnone] at hi
      cases hi.2
    rw [method, bind_of_ok (refuseNullish_object _ id s), Edit.ask, indexOf_eq, Heap.lengthOf_array ho hkind hn,
      Heap.elementIndices_eq, if_neg (Nat.not_le.mpr hlong), howned]
    rfl
  · have hfirst : firstMatch s (.object id) [.undefined] (List.range n) = some 0 := by
      refine (find?_eq_some_of_pairwise (fun _ _ => Nat.lt_asymm) List.pairwise_lt_range).mpr
        ⟨List.mem_range.mpr hpos, ?_, fun j _ hj => absurd hj (Nat.not_lt_zero j)⟩
      rw [holds_eq hlength hn hinherits _ hpos, Heap.ownElement?, hnone]
      rfl
    rw [hfirst]
    rfl

end Sequence

namespace Evaluator

/-- In a long array of holes undefined is not found, though a walk over all indices comes to it at once. -/
theorem hole_is_searched_past : ∃ e, HostedFairly [] e ∧ ∃ id,
    e.store.lengthAt? id = some 16777217 ∧ e.store.InheritsNoElement id ∧
      Sequence.method .indexOf (.object id) [.undefined] e.store.toHeap = (.ok (.number (-1.0)), e.store.toHeap) ∧
        Sequence.place (Sequence.firstMatch e.store.toHeap (.object id) [.undefined] (List.range 16777217)) =
          .ofNat 0 := by
  obtain ⟨e, he, id, ho, hlacks⟩ :=
    (HostedFairly.realm {} none 0 1).exists_holes (Store.create_lacks_elements {} none 0 1) 16777217
  have hlength : e.store.lengthAt? id = some 16777217 := by
    rw [Heap.lengthAt?, ho]
    rfl
  exact ⟨e, he, id, hlength, Sequence.search_holes ho rfl (by decide) (by decide) hlacks⟩

end Evaluator

end Stepwise
