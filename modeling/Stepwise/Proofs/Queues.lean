/-
Arrays as queues.

Elements are added to an array and taken from it at both ends.  `push` and `pop` touch nothing
else; `unshift` and `shift` take all the elements away first and store them again at their new
indices, so that none is overwritten before it was moved.  Of a long array these are only the
elements that are there: a hole stays a hole, and reads as undefined where it comes to lie.

The array must not inherit elements, for then the holes would read as those, and each at its own
index.
-/
import Stepwise.Proofs.Rearranging

namespace Stepwise

namespace Sequence

open Store

variable {s t : Heap} {id : ObjectId} {n : Nat} {f : Nat → Option Value}

/-! ### The end -/

/-- Elements are added behind a length. -/
theorem foldlM_append_rearranged {args : List Value} {k : Nat} (h : s.Rearranged id n f t)
    (hfits : k + args.length < lengthBound) :
    ∃ t' m, args.foldlM (append (.object id)) k t = (.ok (k + args.length), t') ∧
      s.Rearranged id m (fun i => if k ≤ i ∧ i < k + args.length then args[i - k]? else f i) t' := by
  induction args generalizing k t n f with
  | nil =>
      refine ⟨t, n, rfl, ?_⟩
      have hsame : (fun i =>
          if k ≤ i ∧ i < k + ([] : List Value).length then ([] : List Value)[i - k]? else f i) = f := by
        funext i
        rw [if_neg]
        rw [List.length_nil]
        omega
      rwa [hsame]
  | cons v rest ih =>
      rw [List.length_cons] at hfits
      have hnext : k + 1 < lengthBound := by omega
      have hindex : k < indexBound := lt_indexBound (Nat.lt_succ_self k) hnext
      obtain ⟨t₁, hstore, hstored⟩ := store_rearranged h hindex v
      obtain ⟨t', m, hrun, hrearranged⟩ := ih (k := k + 1) hstored (by omega)
      have happend : append (.object id) k v t = (.ok (k + 1), t₁) := by
        rw [append, if_pos hnext, bind_of_ok hstore]
        rfl
      refine ⟨t', m, ?_, ?_⟩
      · rw [List.foldlM_cons, bind_of_ok happend, hrun, List.length_cons, Nat.add_assoc, Nat.add_comm 1]
      · have hsame : (fun i => if k ≤ i ∧ i < k + (v :: rest).length then (v :: rest)[i - k]? else f i) =
            fun i => if k + 1 ≤ i ∧ i < k + 1 + rest.length then rest[i - (k + 1)]?
              else Function.update f k (some v) i := by
          funext i
          rw [List.length_cons]
          rcases Nat.lt_trichotomy i k with hi | rfl | hi
          · rw [if_neg (by omega), if_neg (by omega), Function.update_of_ne (Nat.ne_of_lt hi)]
          · rw [if_pos (by omega), if_neg (by omega), Function.update_self, Nat.sub_self, List.getElem?_cons_zero]
          · have hstep : i - k = i - (k + 1) + 1 := by omega
            by_cases hin : i < k + 1 + rest.length
            · rw [if_pos (by omega), if_pos ⟨hi, hin⟩, hstep, List.getElem?_cons_succ]
            · rw [if_neg (by omega), if_neg (by omega), Function.update_of_ne (Nat.ne_of_gt hi)]
        rwa [hsame]

/-- Elements for which there is no room are refused. -/
theorem foldlM_append_refused {args : List Value} {k : Nat} (h : s.Rearranged id n f t)
    (hk : k < lengthBound) (hfull : lengthBound ≤ k + args.length) :
    (args.foldlM (append (.object id)) k t).1 = .error .invalidArrayLength := by
  induction args generalizing k t n f with
  | nil => exact absurd hk (Nat.not_lt.mpr hfull)
  | cons v rest ih =>
      rw [List.foldlM_cons]
      by_cases hnext : k + 1 < lengthBound
      · obtain ⟨t₁, hstore, hstored⟩ := store_rearranged h (lt_indexBound (Nat.lt_succ_self k) hnext) v
        have happend : append (.object id) k v t = (.ok (k + 1), t₁) := by
          rw [append, if_pos hnext, bind_of_ok hstore]
          rfl
        rw [bind_of_ok happend]
        exact ih hstored hnext (by rw [List.length_cons] at hfull; omega)
      · have happend : append (.object id) k v t = (.error .invalidArrayLength, t) := by
          rw [append, if_neg hnext]
          rfl
        rw [bind_of_error happend]

theorem push_becomes (h : s.WritableArray id n) {args : List Value} (hfits : n + args.length < lengthBound) :
    ∃ s', push (.object id) args s = (.ok (.ofNat (n + args.length)), s') ∧
      s.BecomesArray id (s.sequence (.object id) ++ args) s' := by
  have hcount : (s.sequence (.object id)).length = n := h.length_sequence
  have hlength : (s.sequence (.object id) ++ args).length = n + args.length := by rw [List.length_append, hcount]
  obtain ⟨t, m, happend, hadded⟩ := foldlM_append_rearranged h.rearranged hfits
  obtain ⟨s', hstore, hcut⟩ := storeLength_rearranged hadded hfits
  refine ⟨s', ?_, hcut.becomes hfits hlength fun i hi => ?_⟩
  · rw [push, Edit.ask_bind_eq, h.lengthOf_eq, bind_of_ok happend, bind_of_ok hstore]
    rfl
  · rw [hlength] at hi
    rw [if_pos hi]
    by_cases hin : i < n
    · rw [if_neg (by omega), ← h.element_eq hin, List.getElem_append_left (by rwa [hcount]), Heap.getElem_sequence]
    · have hindex : i - n < args.length := by omega
      rw [if_pos (by omega), List.getElem_append_right (by omega), List.getElem?_eq_getElem hindex,
        Option.getD_some]
      simp only [hcount]

/-- Nothing is moved when the last element is taken. -/
theorem pop_becomes {last : Nat} (h : s.WritableArray id (last + 1)) :
    ∃ s', pop (.object id) s = (.ok (s.element (.object id) last), s') ∧
      s.BecomesArray id ((List.range last).map (s.element (.object id))) s' := by
  obtain ⟨t, htake, htaken⟩ := take_rearranged h.rearranged (lt_indexBound (Nat.lt_succ_self last) h.isLength)
  obtain ⟨s', hstore, hcut⟩ := storeLength_rearranged htaken (Nat.lt_of_succ_lt h.isLength)
  rw [← h.element_eq (Nat.lt_succ_self last)] at htake
  refine ⟨s', ?_, hcut.becomes (Nat.lt_of_succ_lt h.isLength) (by simp) fun i hi => ?_⟩
  · rw [pop, Edit.ask_bind_eq, h.lengthOf_eq]
    show (take (.object id) last >>= _ : Edit Value) s = _
    rw [bind_of_ok htake]
    show (storeLength (.object id) last >>= _ : Edit Value) t = _
    rw [bind_of_ok hstore]
    rfl
  · rw [List.length_map, List.length_range] at hi
    rw [if_pos hi, Function.update_of_ne (Nat.ne_of_lt hi), ← h.element_eq (Nat.lt_succ_of_lt hi),
      List.getElem_map, List.getElem_range]

/-! ### The front -/

/-- All elements are taken away and stored again.  `place` tells where the element at an index goes,
if it goes anywhere, and `source` where the one that comes to an index was before. -/
private theorem moved_rearranged (h : s.WritableArray id n) (body : Nat × Value → Edit Unit)
    (place : Nat → Option Nat) (source : Nat → Nat)
    (hplace : ∀ i < n, ∀ j, place i = some j → source j = i ∧ j < indexBound)
    (hskip : ∀ i v, place i = none → body (i, v) = pure ())
    (hstore : ∀ i v j, place i = some j → body (i, v) = store (.object id) j v) :
    ∃ taken t₁ t₂ m, takeAll (.object id) n s = (.ok taken, t₁) ∧ taken.forM body t₁ = (.ok (), t₂) ∧
      s.Rearranged id m (fun j =>
        if place (source j) = some j ∧ source j ∈ s.elementIndices (.object id) n then
          some (s.element (.object id) (source j))
        else none) t₂ := by
  let taken : List (Nat × Value) :=
    (s.elementIndices (.object id) n).map fun i => (i, s.element (.object id) i)
  have hbelow : ∀ i ∈ s.elementIndices (.object id) n, i < n := fun i hi => (Heap.mem_elementIndices.mp hi).1
  have hpairs : ((s.elementIndices (.object id) n).map fun i =>
      (i, (s.ownElement? id i).getD (s.inheritedElement id i))) = taken :=
    List.map_congr_left fun i hi => by rw [h.element_eq (hbelow i hi)]
  obtain ⟨t₁, htake, htaken⟩ := takeAll_rearranged h.rearranged h.isLength
  rw [hpairs] at htake
  have hleft : ∀ p ∈ taken, place p.1 = none → body p = pure () := fun p _ hp => hskip p.1 p.2 hp
  have hgoes : ∀ p ∈ taken, ∀ j, place p.1 = some j →
      j < indexBound ∧ body p = store (.object id) j (s.element (.object id) (source j)) := by
    intro p hp j hj
    obtain ⟨i, hi, rfl⟩ := List.mem_map.mp hp
    obtain ⟨hsource, hbound⟩ := hplace i (hbelow i hi) j hj
    exact ⟨hbound, by rw [hstore i _ j hj, hsource]⟩
  obtain ⟨t₂, m, hmove, hmoved⟩ := forM_store_rearranged body (fun p => place p.1)
    (fun j => s.element (.object id) (source j)) hleft hgoes htaken
  refine ⟨taken, t₁, t₂, m, htake, hmove, ?_⟩
  have hmem (j : Nat) : j ∈ taken.filterMap (fun p => place p.1) ↔
      place (source j) = some j ∧ source j ∈ s.elementIndices (.object id) n := by
    rw [List.filterMap_map, List.mem_filterMap]
    constructor
    · rintro ⟨i, hi, hj⟩
      have hsource := (hplace i (hbelow i hi) j hj).1
      exact ⟨by rw [hsource]; exact hj, by rwa [hsource]⟩
    · rintro ⟨hj, hi⟩
      exact ⟨source j, hi, hj⟩
  simpa only [hmem] using hmoved

/-- The elements that are walked, and undefined for the others, are all elements. -/
private theorem getD_walked (h : s.WritableArray id n) (hinherits : s.InheritsNoElement id) {i : Nat}
    (hi : i < n) (j : Nat) :
    (if i ∈ s.elementIndices (.object id) n then some (s.element (.object id) i) else none).getD
      (s.inheritedElement id j) = s.element (.object id) i := by
  split
  · rfl
  · rename_i hnot
    have hnone : s.ownElement? id i = none := by
      by_contra hsome
      exact hnot (h.rearranged.mem_elementIndices.mpr ⟨hi, .inr (Option.isSome_iff_ne_none.mpr hsome)⟩)
    rw [h.element_eq hi, hnone, hinherits.inheritedElement_eq, hinherits.inheritedElement_eq]

/-- Of a long array exactly the elements that are there are walked. -/
private theorem mem_elementIndices_of_long (h : s.WritableArray id n) (hlong : maxDenseLength < n) (i : Nat) :
    i ∈ s.elementIndices (.object id) n ↔ (s.own? id (.index i)).isSome = true := by
  rw [Heap.mem_elementIndices]
  constructor
  · rintro ⟨-, hdense | hthere⟩
    · exact absurd hlong (Nat.not_lt.mpr hdense)
    · exact hthere
  · intro hthere
    have hown : s.ownElement? id i ≠ none := by
      rw [Heap.ownElement?, ne_eq, Option.map_eq_none_iff]
      exact Option.isSome_iff_ne_none.mp hthere
    exact ⟨h.rearranged.lt hown, .inr hthere⟩

/-- An element that was taken away is stored one index further down; the first one is not. -/
def moveDown (target : Value) : Nat × Value → Edit Unit := fun (i, v) =>
  match i with
  | 0 => return ()
  | i + 1 => store target i v

/-- The other elements are moved down by one when the first is taken. -/
theorem shift_becomes {last : Nat} (h : s.WritableArray id (last + 1)) (hinherits : s.InheritsNoElement id) :
    ∃ s', shift (.object id) s = (.ok (s.element (.object id) 0), s') ∧
      s.BecomesArray id ((List.range last).map fun i => s.element (.object id) (i + 1)) s' ∧
      (maxDenseLength < last + 1 →
        ∀ i, (s'.own? id (.index i)).isSome = (s.own? id (.index (i + 1))).isSome) := by
  have hplace : ∀ i < last + 1, ∀ j, (if i = 0 then none else some (i - 1)) = some j →
      j + 1 = i ∧ j < indexBound := by
    intro i hi j hj
    have hbound : last < indexBound := lt_indexBound (Nat.lt_succ_self last) h.isLength
    obtain ⟨hpos, hpred⟩ := Option.ite_none_left_eq_some.mp hj
    cases hpred
    omega
  obtain ⟨taken, t₁, t₂, m, htake, hmove, hmoved⟩ := moved_rearranged h (moveDown (.object id))
    (fun i => if i = 0 then none else some (i - 1)) (fun j => j + 1) hplace
    (fun i v hi => by
      cases i with
      | zero => rfl
      | succ i => cases hi)
    (fun i v j hj => by
      cases i with
      | zero => cases hj
      | succ i => cases hj; rfl)
  simp only [Nat.add_one_ne_zero, if_false, Nat.add_sub_cancel, true_and] at hmoved
  obtain ⟨s', hstore, hcut⟩ := storeLength_rearranged hmoved (Nat.lt_of_succ_lt h.isLength)
  refine ⟨s', ?_, hcut.becomes (Nat.lt_of_succ_lt h.isLength) (by simp) fun i hi => ?_, fun hsparse i => ?_⟩
  · have hread : Edit.query (fun s => s.getProperty (.object id) (.ofNat 0)) s =
        (.ok (s.element (.object id) 0), s) := rfl
    rw [shift, Edit.ask_bind_eq, h.lengthOf_eq]
    show (Edit.query (fun s => s.getProperty (.object id) (.ofNat 0)) >>= _ : Edit Value) s = _
    rw [bind_of_ok hread, bind_of_ok htake]
    show (taken.forM (moveDown (.object id)) >>= _ : Edit Value) t₁ = _
    rw [bind_of_ok hmove]
    exact bind_of_ok hstore
  · rw [List.length_map, List.length_range] at hi
    rw [if_pos hi, List.getElem_map, List.getElem_range]
    exact getD_walked h hinherits (Nat.succ_lt_succ hi) i
  · rw [hcut.own?_isSome, Bool.eq_iff_iff, ← mem_elementIndices_of_long h hsparse]
    by_cases hwalked : i + 1 ∈ s.elementIndices (.object id) (last + 1)
    · have hi : i < last := Nat.lt_of_succ_lt_succ (Heap.mem_elementIndices.mp hwalked).1
      rw [if_pos hi, if_pos hwalked]
      exact iff_of_true rfl hwalked
    · rw [if_neg hwalked, ite_self]
      exact iff_of_false Bool.false_ne_true hwalked

/-- The elements are moved up when others are put in front of them. -/
theorem unshift_becomes (h : s.WritableArray id n) (hinherits : s.InheritsNoElement id) {args : List Value}
    (hfits : n + args.length < lengthBound) :
    ∃ s', unshift (.object id) args s = (.ok (.ofNat (n + args.length)), s') ∧
      s.BecomesArray id (args ++ s.sequence (.object id)) s' ∧
      (maxDenseLength < n →
        ∀ i, (s'.own? id (.index (i + args.length))).isSome = (s.own? id (.index i)).isSome) := by
  have hcount : (s.sequence (.object id)).length = n := h.length_sequence
  have hlength : (args ++ s.sequence (.object id)).length = n + args.length := by
    rw [List.length_append, hcount, Nat.add_comm]
  have hplace : ∀ i < n, ∀ j, some (i + args.length) = some j → j - args.length = i ∧ j < indexBound := by
    intro i hi j hj
    cases hj
    exact ⟨Nat.add_sub_cancel i _, lt_indexBound (Nat.add_lt_add_right hi _) hfits⟩
  obtain ⟨taken, t₁, t₂, m, htake, hmove, hmoved⟩ := moved_rearranged h
    (fun p => store (.object id) (p.1 + args.length) p.2) (fun i => some (i + args.length))
    (fun j => j - args.length) hplace (fun _ _ hi => absurd hi (Option.some_ne_none _))
    (fun i v j hj => by cases hj; rfl)
  have hfew : args.length < lengthBound := by omega
  obtain ⟨t₃, m', hput, hadded⟩ := forM_zipIdx_rearranged hmoved hfew
  obtain ⟨s', hstore, hcut⟩ := storeLength_rearranged hadded hfits
  refine ⟨s', ?_, hcut.becomes hfits hlength fun i hi => ?_, fun hsparse i => ?_⟩
  · rw [unshift, Edit.ask_bind_eq, h.lengthOf_eq]
    show (if n + args.length < lengthBound then _ else _ : Edit Value) s = _
    rw [if_pos hfits, bind_of_ok htake, bind_of_ok hmove, bind_of_ok hput, bind_of_ok hstore]
    rfl
  · rw [hlength] at hi
    rw [if_pos hi]
    by_cases hfront : i < args.length
    · rw [List.getElem?_eq_getElem hfront, Option.some_or, Option.getD_some, List.getElem_append_left hfront]
    · have hback : i - args.length + args.length = i := by omega
      have hin : i - args.length < n := by omega
      rw [List.getElem?_eq_none (Nat.le_of_not_lt hfront), Option.none_or,
        List.getElem_append_right (Nat.le_of_not_lt hfront), Heap.getElem_sequence, hback]
      simp only [true_and]
      exact getD_walked h hinherits hin i
  · rw [hcut.own?_isSome, Bool.eq_iff_iff, ← mem_elementIndices_of_long h hsparse, Nat.add_sub_cancel,
      List.getElem?_eq_none (Nat.le_add_left _ _), Option.none_or]
    by_cases hwalked : i ∈ s.elementIndices (.object id) n
    · have hi : i + args.length < n + args.length :=
        Nat.add_lt_add_right (Heap.mem_elementIndices.mp hwalked).1 _
      rw [if_pos hi, if_pos ⟨rfl, hwalked⟩]
      exact iff_of_true rfl hwalked
    · simp only [hwalked, and_false, if_false, ite_self]
      exact iff_of_false Bool.false_ne_true not_false

/-! ### All four -/

/-- An array without elements is left without elements. -/
theorem storeLength_zero_becomes (h : s.WritableArray id 0) :
    ∃ s', storeLength (.object id) 0 s = (.ok (), s') ∧ s.BecomesArray id [] s' := by
  obtain ⟨s', hstore, hcut⟩ := storeLength_rearranged h.rearranged h.isLength
  exact ⟨s', hstore, hcut.becomes h.isLength rfl fun i hi => absurd hi (Nat.not_lt_zero i)⟩

/-- **Arrays are queues with two ends**, of whatever length.  `push` and `unshift` add their arguments
behind and in front and return the new length, as long as that is a length; `pop` and `shift` take
the last element and the first one.  Of a long array the holes are moved as holes. -/
theorem arrays_are_queues (h : s.WritableArray id n) (hinherits : s.InheritsNoElement id) (args : List Value) :
    let values := s.sequence (.object id)
    values.length = n ∧
    (n + args.length < lengthBound →
      (∃ s', method .push (.object id) args s = (.ok (.ofNat (n + args.length)), s') ∧
        s.BecomesArray id (values ++ args) s') ∧
      ∃ s', method .unshift (.object id) args s = (.ok (.ofNat (n + args.length)), s') ∧
        s.BecomesArray id (args ++ values) s' ∧
        (maxDenseLength < n →
          ∀ i, (s'.own? id (.index (i + args.length))).isSome = (s.own? id (.index i)).isSome)) ∧
    (lengthBound ≤ n + args.length →
      (method .push (.object id) args s).1 = .error .invalidArrayLength ∧
      method .unshift (.object id) args s = (.error .invalidArrayLength, s)) ∧
    (values = [] → ∀ m, m = .pop ∨ m = .shift →
      ∃ s', method m (.object id) args s = (.ok .undefined, s') ∧ s.BecomesArray id [] s') ∧
    (∀ rest last, values = rest ++ [last] →
      ∃ s', method .pop (.object id) args s = (.ok last, s') ∧ s.BecomesArray id rest s') ∧
    ∀ first rest, values = first :: rest →
      ∃ s', method .shift (.object id) args s = (.ok first, s') ∧ s.BecomesArray id rest s' ∧
        (maxDenseLength < n →
          ∀ i, (s'.own? id (.index i)).isSome = (s.own? id (.index (i + 1))).isSome) := by
  intro values
  have hcount : values.length = n := h.length_sequence
  have hvalues : values = (List.range n).map (s.element (.object id)) := by
    show (List.range (s.lengthOf (.object id))).map _ = _
    rw [h.lengthOf_eq]
  have hpush : method .push (.object id) args s = push (.object id) args s := by
    rw [method, bind_of_ok (refuseNullish_object _ id s)]
  have hunshift : method .unshift (.object id) args s = unshift (.object id) args s := by
    rw [method, bind_of_ok (refuseNullish_object _ id s)]
  have hpop : method .pop (.object id) args s = pop (.object id) s := by
    rw [method, bind_of_ok (refuseNullish_object _ id s)]
  have hshift : method .shift (.object id) args s = shift (.object id) s := by
    rw [method, bind_of_ok (refuseNullish_object _ id s)]
  rw [hpush, hunshift, hpop, hshift]
  refine ⟨hcount, fun hfits => ⟨push_becomes h hfits, unshift_becomes h hinherits hfits⟩, fun hfull => ⟨?_, ?_⟩,
    fun hempty m hm => ?_, fun rest last hlast => ?_, fun first rest hfirst => ?_⟩
  · have hrefused := foldlM_append_refused h.rearranged h.isLength hfull
    rw [push, Edit.ask_bind_eq, h.lengthOf_eq]
    generalize hrun : args.foldlM (append (.object id)) n s = run at hrefused
    obtain ⟨result, t⟩ := run
    obtain rfl : result = .error .invalidArrayLength := hrefused
    rw [bind_of_error hrun]
  · rw [unshift, Edit.ask_bind_eq, h.lengthOf_eq]
    show (if n + args.length < lengthBound then _ else _ : Edit Value) s = _
    rw [if_neg (Nat.not_lt.mpr hfull)]
    rfl
  · obtain rfl : n = 0 := by rw [← hcount, hempty, List.length_nil]
    obtain ⟨s', hstore, hbecomes⟩ := storeLength_zero_becomes h
    refine ⟨s', ?_, hbecomes⟩
    rcases hm with rfl | rfl
    · rw [hpop, pop, Edit.ask_bind_eq, h.lengthOf_eq]
      exact bind_of_ok hstore
    · rw [hshift, shift, Edit.ask_bind_eq, h.lengthOf_eq]
      exact bind_of_ok hstore
  · cases n with
    | zero => rw [List.eq_nil_of_length_eq_zero hcount] at hlast; simp at hlast
    | succ k =>
        rw [hvalues, List.range_succ, List.map_append] at hlast
        obtain ⟨hrest, hlast⟩ := List.append_inj' hlast rfl
        rw [← hrest, ← List.singleton_inj.mp hlast]
        exact pop_becomes h
  · cases n with
    | zero => rw [List.eq_nil_of_length_eq_zero hcount] at hfirst; cases hfirst
    | succ k =>
        rw [hvalues, List.range_succ_eq_map, List.map_cons, List.map_map] at hfirst
        obtain ⟨hfirst, hrest⟩ := List.cons.inj hfirst
        rw [← hfirst, ← hrest]
        exact shift_becomes h hinherits

end Sequence

namespace Heap

/-- A long array with one element, behind a hole. -/
def gap : Heap where
  objects := #[(Object.new none (.array 16777218)).put (.index 1) (.string "x")]
  reader := none
  clock := 0
  seed := 1
  journal := #[]

private theorem gap_own? (i : Nat) :
    gap.own? ⟨0⟩ (.index i) = if i = 1 then some (.plain (.string "x")) else none := by
  show (Properties.empty.insert (.index 1) (.plain (.string "x"))).get? (.index i) = _
  rw [Properties.get?_insert, Properties.get?_empty]
  simp only [Key.index.injEq, eq_comm]

private theorem gap_writableArray : gap.WritableArray ⟨0⟩ 16777218 where
  array := by
    have hproper : (Key.index 1).IsProper := show 1 < indexBound by decide
    exact ⟨_, rfl, rfl, (Object.InBounds.new _ _).put hproper _⟩
  writable := by
    intro i p hp
    rw [gap_own?] at hp
    obtain ⟨-, hp⟩ := Option.ite_none_right_eq_some.mp hp
    cases hp
    rfl
  isLength := by decide

/-- The hole is taken from the front, and the element comes to the first index. -/
theorem arrays_are_queues_gap : ∃ s', Sequence.method .shift (.object ⟨0⟩) [] gap = (.ok .undefined, s') ∧
    s'.lengthOf (.object ⟨0⟩) = 16777217 ∧ (s'.own? ⟨0⟩ (.index 0)).isSome = true := by
  have hinherits : gap.InheritsNoElement ⟨0⟩ := nofun
  obtain ⟨hcount, -, -, -, -, hshift⟩ := Sequence.arrays_are_queues gap_writableArray hinherits []
  obtain ⟨first, rest, hvalues⟩ := List.exists_cons_of_length_pos (hcount.trans_gt (by decide))
  obtain ⟨s', hrun, hbecomes, hholes⟩ := hshift first rest hvalues
  have hfirst : first = .undefined := by
    have hread : gap.element (.object ⟨0⟩) 0 = .undefined := by
      rw [element_object rfl (by decide), ownElement?, gap_own?, hinherits.inheritedElement_eq]
      rfl
    rw [← hread, ← getElem_sequence gap (.object ⟨0⟩) (hcount.trans_gt (by decide))]
    simp only [hvalues, List.getElem_cons_zero]
  have hrest : rest.length = 16777217 := by
    rw [hvalues, List.length_cons] at hcount
    omega
  refine ⟨s', by rw [hrun, hfirst], ?_, ?_⟩
  · rw [← length_sequence, hbecomes.sequence, hrest]
  · rw [hholes (by decide) 0, gap_own?]
    rfl

end Heap

end Stepwise
