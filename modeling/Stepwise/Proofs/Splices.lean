/-
Arrays as lists.

`splice`, `slice`, `concat` and `reverse` read all the elements of an array, make a list of them, and
store it: in a new array, or in the place of the elements that there were.  When an array is
rewritten, what is stored first and what is cut off behind come to one list, whether that is
longer than the old one or shorter, so nothing of the old elements is left.

All elements are read before anything is written, and so it does not matter whether an array
comes among the arguments of its own method.
-/
import Stepwise.Proofs.Rearranging

namespace Stepwise

/-! ### Positions -/

theorem Double.relative_le (x : Float) (length : Nat) : relative x length ≤ length := by
  unfold relative
  split
  · exact Nat.zero_le _
  · split
    · exact Nat.zero_le _
    · exact Nat.le_refl _
  · split
    · exact Nat.sub_le _ _
    · exact Nat.min_le_right _ _

theorem Double.clamp_le (x : Float) (bound : Nat) : clamp x bound ≤ bound := by
  unfold clamp
  split
  · exact Nat.zero_le _
  · split
    · exact Nat.zero_le _
    · exact Nat.le_refl _
  · split
    · exact Nat.zero_le _
    · exact Nat.min_le_right _ _

/-- A whole number counts from the start. -/
theorem Double.relative_ofNat {k : Nat} (hk : k < 2 ^ 53) (length : Nat) :
    relative (Float.ofNat k) length = min k length := by
  obtain ⟨m, hparts, hfloor, -⟩ := exists_parts_ofNat hk
  unfold relative
  rw [hparts]
  simp [hfloor]

namespace Heap

/-- A position lies within the sequence. -/
theorem positionArgument_le (s : Heap) (args : List Value) (i : Nat) {length default : Nat}
    (h : default ≤ length) : s.positionArgument args i length default ≤ length := by
  unfold positionArgument
  split
  · exact h
  · exact Double.relative_le _ _

/-- A whole number that lies within the sequence is the position. -/
theorem positionArgument_ofNat (s : Heap) {args : List Value} {i k length : Nat} (default : Nat)
    (harg : args[i]? = some (.ofNat k)) (hk : k < 2 ^ 53) (hle : k ≤ length) :
    s.positionArgument args i length default = k := by
  have hnumber : s.toNumber (.ofNat k) = Float.ofNat k := rfl
  rw [positionArgument, argument, harg, Option.getD_some]
  show Double.relative (s.toNumber (.ofNat k)) length = k
  rw [hnumber, Double.relative_ofNat hk, Nat.min_eq_left hle]

end Heap

namespace Sequence

/-- As many elements are removed as there are, at most. -/
theorem removalCount_le (s : Heap) (args : List Value) (available : Nat) :
    removalCount s args available ≤ available := by
  unfold removalCount
  split
  · exact Nat.zero_le _
  · exact Nat.le_refl _
  · exact Double.clamp_le _ _

/-- A whole number is the count, as far as there are elements. -/
theorem removalCount_ofNat (s : Heap) (first : Value) {d : Nat} (rest : List Value) (available : Nat)
    (hd : d < 2 ^ 53) : removalCount s (first :: .ofNat d :: rest) available = min d available := by
  have hnumber : s.numberArgument (first :: .ofNat d :: rest) 1 = Float.ofNat d := rfl
  show Double.clamp (s.numberArgument (first :: .ofNat d :: rest) 1) available = _
  rw [hnumber, Double.clamp_ofNat hd]

end Sequence

/-! ### New arrays -/

namespace Heap

/-- An array of values that was not there before. -/
structure MakesArray (s : Heap) (new : ObjectId) (values : List Value) (s' : Heap) : Prop where
  isNew : s.object? new = none
  lists : s'.Lists new values
  sequence : s'.sequence (.object new) = values

/-- What was there is as it was. -/
def Preserves (s s' : Heap) : Prop := ∀ id o, s.object? id = some o → s'.object? id = some o

variable {s t : Heap} {id : ObjectId} {n : Nat} {values : List Value}

/-- An array is made, after another one was rewritten or at once. -/
theorem makesArray_push (hsize : t.objects.size = s.objects.size) (hlength : values.length < lengthBound) :
    s.MakesArray ⟨t.objects.size⟩ values { t with objects := t.objects.push (Store.arrayOf values) } := by
  have hlists : Lists { t with objects := t.objects.push (Store.arrayOf values) } ⟨t.objects.size⟩ values :=
    lists_arrayOf (by rw [object?_push, if_pos rfl])
  exact ⟨Array.getElem?_eq_none (Nat.le_of_eq hsize.symm), hlists, hlists.sequence_eq hlength⟩

end Heap

namespace Sequence

open Store

variable {s : Heap} {id : ObjectId} {n : Nat}

/-- A list is returned as a new array. -/
theorem allocArray_makes (s : Heap) {values : List Value} (hlength : values.length < lengthBound) :
    ∃ new s', (do return .object (← allocArray values) : Edit Value) s = (.ok (.object new), s') ∧
      s.MakesArray new values s' ∧ s.Preserves s' :=
  ⟨⟨s.objects.size⟩, _, rfl, Heap.makesArray_push rfl hlength,
    fun _ _ ho => Heap.object?_push_of_eq_some ho _⟩

/-- All elements of an array are read, as long as it is not a long one. -/
private theorem elements_array (h : s.WritableArray id n) (hdense : n ≤ maxDenseLength) :
    s.elements (.object id) = .ok (s.sequence (.object id)) :=
  Heap.elements_eq (by rwa [h.lengthOf_eq])

private theorem query_of_ok {α : Type} {f : Heap → Except Failure α} {x : α} (h : f s = .ok x) :
    Edit.query f s = (.ok x, s) := by rw [Edit.query, h]

/-! ### Cuts -/

/-- What `slice` does with the elements that it has read. -/
theorem slice_eq {target : Value} {values : List Value} (h : s.elements target = .ok values) (args : List Value) :
    slice target args s =
      (do
        let start := s.positionArgument args 0 values.length 0
        let stop := s.positionArgument args 1 values.length values.length
        return .object (← allocArray ((values.drop start).take (stop - start))) : Edit Value) s := by
  rw [slice, bind_of_ok (query_of_ok h), Edit.ask_bind_eq, Edit.ask_bind_eq]

/-- The elements from one position to another. -/
theorem slice_makes (h : s.WritableArray id n) (hdense : n ≤ maxDenseLength) (args : List Value) :
    let start := s.positionArgument args 0 n 0
    let stop := s.positionArgument args 1 n n
    ∃ new s', slice (.object id) args s = (.ok (.object new), s') ∧
      s.MakesArray new (((s.sequence (.object id)).take (max start stop)).drop start) s' ∧ s.Preserves s' := by
  intro start stop
  have hlength : (((s.sequence (.object id)).take (max start stop)).drop start).length < lengthBound := by
    have hn := h.isLength
    rw [List.length_drop, List.length_take, h.length_sequence]
    omega
  have hcut : ((s.sequence (.object id)).drop start).take (stop - start) =
      ((s.sequence (.object id)).take (max start stop)).drop start := by
    rw [List.drop_take, show max start stop - start = stop - start by omega]
  rw [slice_eq (elements_array h hdense), h.length_sequence]
  show ∃ new s', (do return .object (← allocArray (((s.sequence (.object id)).drop start).take (stop - start))) :
    Edit Value) s = (.ok (.object new), s') ∧ _
  rw [hcut]
  exact allocArray_makes s hlength

/-! ### Concatenations -/

/-- What a value contributes to a concatenation that does not fail. -/
def contributed (s : Heap) (v : Value) : List Value := if s.isArray v then s.sequence v else [v]

theorem mapM_contribution {vs : List Value}
    (hdense : ∀ v ∈ vs, s.isArray v = true → s.lengthOf v ≤ maxDenseLength) :
    vs.mapM (contribution s) = .ok (vs.map (contributed s)) := by
  induction vs with
  | nil => rfl
  | cons v rest ih =>
      have hfirst : contribution s v = .ok (contributed s v) := by
        unfold contribution contributed
        split
        · rename_i harray
          exact Heap.elements_eq (hdense v List.mem_cons_self harray)
        · rfl
      rw [List.mapM_cons, hfirst, ih fun w hw => hdense w (List.mem_cons_of_mem v hw)]
      rfl

/-- The elements of the arrays, and the other values, one behind the other. -/
theorem concat_makes (h : s.WritableArray id n) (hdense : n ≤ maxDenseLength) {args : List Value}
    (hargs : ∀ v ∈ args, s.isArray v = true → s.lengthOf v ≤ maxDenseLength)
    (hfits : (s.sequence (.object id) ++ args.flatMap (contributed s)).length < lengthBound) :
    ∃ new s', concat (.object id) args s = (.ok (.object new), s') ∧
      s.MakesArray new (s.sequence (.object id) ++ args.flatMap (contributed s)) s' ∧ s.Preserves s' := by
  have harray : s.isArray (.object id) = true := by
    obtain ⟨o, ho, hkind, -⟩ := h.array
    rw [Heap.isArray_object ho, Object.isArray, Object.arrayLength?, hkind]
    rfl
  have hall : ∀ v ∈ Value.object id :: args, s.isArray v = true → s.lengthOf v ≤ maxDenseLength := by
    refine List.forall_mem_cons.mpr ⟨fun _ => ?_, hargs⟩
    rwa [h.lengthOf_eq]
  have hread : Edit.query (fun s => (Value.object id :: args).mapM (contribution s)) s =
      (.ok ((Value.object id :: args).map (contributed s)), s) :=
    query_of_ok (mapM_contribution hall)
  have hflat : ((Value.object id :: args).map (contributed s)).flatten =
      s.sequence (.object id) ++ args.flatMap (contributed s) := by
    rw [List.map_cons, List.flatten_cons, contributed, if_pos harray, List.flatMap_def]
  rw [concat, bind_of_ok hread, hflat]
  exact allocArray_makes s hfits

/-! ### Arrays in their place -/

/-- An array is turned around in its place. -/
theorem reverse_becomes (h : s.WritableArray id n) (hdense : n ≤ maxDenseLength) :
    ∃ s', reverse (.object id) s = (.ok (.object id), s') ∧
      s.BecomesArray id (s.sequence (.object id)).reverse s' := by
  have hlength : (s.sequence (.object id)).reverse.length < lengthBound := by
    rw [List.length_reverse, h.length_sequence]
    exact h.isLength
  obtain ⟨s', hreplace, hreplaced⟩ := replaceAll_rearranged h.rearranged h.isLength hlength
  refine ⟨s', ?_, hreplaced.becomes hlength rfl fun i hi => ?_⟩
  · rw [reverse, bind_of_ok (query_of_ok (elements_array h hdense)), bind_of_ok hreplace]
    rfl
  · rw [List.getElem?_eq_getElem hi, Option.getD_some]

/-- What `splice` does with the elements that it has read. -/
theorem splice_eq {target : Value} {values : List Value} (h : s.elements target = .ok values) (args : List Value) :
    splice target args s =
      (do
        let start := s.positionArgument args 0 values.length 0
        let count := removalCount s args (values.length - start)
        replaceAll target (values.take start ++ args.drop 2 ++ values.drop (start + count))
        return .object (← allocArray ((values.drop start).take count)) : Edit Value) s := by
  rw [splice, bind_of_ok (query_of_ok h), Edit.ask_bind_eq, Edit.ask_bind_eq]

/-- Elements are removed from an array, and others come in their place. -/
theorem splice_becomes (h : s.WritableArray id n) (hdense : n ≤ maxDenseLength) (args : List Value) :
    let values := s.sequence (.object id)
    let start := s.positionArgument args 0 n 0
    let count := removalCount s args (n - start)
    (values.take start ++ args.drop 2 ++ values.drop (start + count)).length < lengthBound →
      ∃ new s', splice (.object id) args s = (.ok (.object new), s') ∧
        s.MakesArray new ((values.drop start).take count) s' ∧
        s.BecomesArray id (values.take start ++ args.drop 2 ++ values.drop (start + count)) s' := by
  intro values start count hfits
  have hcount : values.length = n := h.length_sequence
  have hremoved : ((values.drop start).take count).length < lengthBound := by
    have hn := h.isLength
    rw [List.length_take, List.length_drop]
    omega
  obtain ⟨t, hreplace, hreplaced⟩ := replaceAll_rearranged h.rearranged h.isLength hfits
  refine ⟨⟨t.objects.size⟩, _, ?_, Heap.makesArray_push hreplaced.size_eq hremoved,
    hreplaced.becomes_push hfits _⟩
  rw [splice_eq (elements_array h hdense), h.length_sequence]
  exact bind_of_ok hreplace

/-! ### All four -/

/-- What is given for the positions is brought within the array, and what lies within it is taken as
it is. -/
theorem positions_resolve (s : Heap) (args : List Value) (hn : n < 2 ^ 53) :
    let start := s.positionArgument args 0 n 0
    let count := removalCount s args (n - start)
    let stop := s.positionArgument args 1 n n
    start ≤ n ∧ count ≤ n - start ∧ stop ≤ n ∧ (args.length = 1 → count = n - start) ∧ (args = [] → count = 0) ∧
    ∀ k d rest, args = .ofNat k :: .ofNat d :: rest → k ≤ n → d ≤ n →
      start = k ∧ count = min d (n - k) ∧ stop = d := by
  intro start count stop
  refine ⟨s.positionArgument_le args 0 (Nat.zero_le n), removalCount_le s args (n - start),
    s.positionArgument_le args 1 (Nat.le_refl n), fun hone => ?_, fun hnone => ?_, ?_⟩
  · obtain ⟨first, rfl⟩ := List.length_eq_one_iff.mp hone
    rfl
  · subst hnone
    rfl
  · rintro k d rest rfl hk hd
    have hstart : start = k := s.positionArgument_ofNat 0 rfl (Nat.lt_of_le_of_lt hk hn) hk
    refine ⟨hstart, ?_, s.positionArgument_ofNat n rfl (Nat.lt_of_le_of_lt hd hn) hd⟩
    rw [← hstart]
    exact removalCount_ofNat s _ rest _ (Nat.lt_of_le_of_lt hd hn)

/-- **Arrays are lists**, as long as they are not long ones.  `slice` and `concat` make a new array of the
elements and leave everything else; `reverse` and `splice` rewrite the array, and what `splice`
removes becomes a new one.  The positions lie within the array whatever is given for them, and
those that do are taken as they are. -/
theorem arrays_are_lists (h : s.WritableArray id n) (hdense : n ≤ maxDenseLength) (args : List Value) :
    let values := s.sequence (.object id)
    let start := s.positionArgument args 0 n 0
    let count := removalCount s args (n - start)
    let stop := s.positionArgument args 1 n n
    (values.length = n ∧
      ∀ i (hi : i < values.length), values[i] = (s.ownElement? id i).getD (s.inheritedElement id i)) ∧
    (start ≤ n ∧ count ≤ n - start ∧ stop ≤ n ∧ (args.length = 1 → count = n - start) ∧
      (args = [] → count = 0) ∧
      ∀ k d rest, args = .ofNat k :: .ofNat d :: rest → k ≤ n → d ≤ n →
        start = k ∧ count = min d (n - k) ∧ stop = d) ∧
    ((values.take start ++ args.drop 2 ++ values.drop (start + count)).length < lengthBound →
      ∃ new s', method .splice (.object id) args s = (.ok (.object new), s') ∧
        s.MakesArray new ((values.drop start).take count) s' ∧
        s.BecomesArray id (values.take start ++ args.drop 2 ++ values.drop (start + count)) s') ∧
    (∃ new s', method .slice (.object id) args s = (.ok (.object new), s') ∧
      s.MakesArray new ((values.take (max start stop)).drop start) s' ∧ s.Preserves s') ∧
    ((∀ v ∈ args, s.isArray v = true → s.lengthOf v ≤ maxDenseLength) →
      (values ++ args.flatMap (contributed s)).length < lengthBound →
        ∃ new s', method .concat (.object id) args s = (.ok (.object new), s') ∧
          s.MakesArray new (values ++ args.flatMap (contributed s)) s' ∧ s.Preserves s') ∧
    ∃ s', method .reverse (.object id) args s = (.ok (.object id), s') ∧
      s.BecomesArray id values.reverse s' := by
  intro values start count stop
  have hsplice : method .splice (.object id) args s = splice (.object id) args s := by
    rw [method, bind_of_ok (refuseNullish_object _ id s)]
  have hslice : method .slice (.object id) args s = slice (.object id) args s := by
    rw [method, bind_of_ok (refuseNullish_object _ id s)]
  have hconcat : method .concat (.object id) args s = concat (.object id) args s := by
    rw [method, bind_of_ok (refuseNullish_object _ id s)]
  have hreverse : method .reverse (.object id) args s = reverse (.object id) s := by
    rw [method, bind_of_ok (refuseNullish_object _ id s)]
  have hcount : values.length = n := h.length_sequence
  rw [hsplice, hslice, hconcat, hreverse]
  refine ⟨⟨hcount, fun i hi => ?_⟩, positions_resolve s args (Nat.lt_of_le_of_lt hdense (by decide)),
    splice_becomes h hdense args, slice_makes h hdense args, concat_makes h hdense, reverse_becomes h hdense⟩
  rw [Heap.getElem_sequence, h.element_eq (by rwa [hcount] at hi)]

end Sequence

namespace Heap

/-- An array of two elements. -/
def pair : Heap where
  objects := #[Store.arrayOf [.string "x", .string "y"]]
  reader := none
  clock := 0
  seed := 1
  journal := #[]

private theorem pair_writableArray : pair.WritableArray ⟨0⟩ 2 where
  array := ⟨_, rfl, rfl, .arrayOf _⟩
  writable := by
    intro i p hp
    rw [own?_of_object? rfl] at hp
    obtain ⟨_, _, -, -, rfl⟩ := Store.get?_arrayOf.mp hp
    rfl
  isLength := by decide

/-- It stands twice in what it is concatenated with itself to. -/
theorem arrays_are_lists_pair :
    ∃ new s', Sequence.method .concat (.object ⟨0⟩) [.object ⟨0⟩] pair = (.ok (.object new), s') ∧
      s'.sequence (.object new) = [.string "x", .string "y", .string "x", .string "y"] := by
  have hlists : pair.Lists ⟨0⟩ [.string "x", .string "y"] := lists_arrayOf rfl
  have hvalues := hlists.sequence_eq (by decide)
  have hall : pair.sequence (.object ⟨0⟩) ++ [Value.object ⟨0⟩].flatMap (Sequence.contributed pair) =
      [.string "x", .string "y", .string "x", .string "y"] := by
    have hcontributed : Sequence.contributed pair (.object ⟨0⟩) = pair.sequence (.object ⟨0⟩) := rfl
    rw [List.flatMap_singleton, hcontributed, hvalues]
    rfl
  obtain ⟨-, -, -, -, hconcat, -⟩ :=
    Sequence.arrays_are_lists pair_writableArray (by decide) [.object ⟨0⟩]
  rw [hall] at hconcat
  have hdense : ∀ v ∈ [Value.object ⟨0⟩], pair.isArray v = true → pair.lengthOf v ≤ maxDenseLength := by
    intro v hv _
    rw [List.mem_singleton.mp hv, pair_writableArray.lengthOf_eq]
    decide
  obtain ⟨new, s', hrun, hmakes, -⟩ := hconcat hdense (by decide)
  exact ⟨new, s', hrun, hmakes.sequence⟩

end Heap

end Stepwise
