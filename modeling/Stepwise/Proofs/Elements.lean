/-
The elements of arrays.

The length of a value is what it has as `length`, read as a whole number, and zero where that
is none; an array answers its own, which comes back as it is.  The element at an index is
the first one along the chain: the object's own, or the inherited one.

A long array is walked by the indices that it owns.  Nothing is missed if no object it inherits
from has elements: there is no other place where one could come from.
-/
import Stepwise.Builtin.Sequence
import Stepwise.Proofs.Activations
import Stepwise.Proofs.Enumerations
import Stepwise.Proofs.Variables
import Stepwise.Proofs.Wholes

namespace Stepwise

/-- What lies below a length is an index. -/
theorem lt_indexBound {i n : Nat} (hi : i < n) (hn : n < lengthBound) : i < indexBound :=
  Nat.lt_of_lt_of_le hi (Nat.le_pred_of_lt hn)

namespace Key

theorem ofNat_of_lt {i : Nat} (hi : i < indexBound) : ofNat i = .index i := if_pos hi

end Key

namespace Heap

variable {s : Heap} {id : ObjectId} {o : Object} {i n : Nat}

/-! ### Lengths -/

theorem lengthOf_lt (s : Heap) (v : Value) : s.lengthOf v < lengthBound := by
  unfold lengthOf
  split
  · rename_i m _
    cases h : Double.toIndex? (s.toNumber m) with
    | none => exact Nat.two_pow_pos 32
    | some n => exact Double.lt_of_toIndex? h
  · exact Nat.two_pow_pos 32

/-- An array has the length that it answers, as long as that is a length. -/
theorem lengthOf_array (ho : s.object? id = some o) (hkind : o.kind = .array n) (hn : n < lengthBound) :
    s.lengthOf (.object id) = n := by
  have hanswer : o.kind.answer? .length = some (.ofNat n) := by simp [hkind, Kind.answer?]
  have hnumber : s.toNumber (.ofNat n) = Float.ofNat n := rfl
  rw [lengthOf, getProperty_of_answer ho hanswer]
  simp only [hnumber, Double.toIndex?_ofNat hn, Option.getD_some]

theorem exists_array_of_lengthAt? (h : s.lengthAt? id = some n) :
    ∃ o, s.object? id = some o ∧ o.kind = .array n := by
  obtain ⟨⟨parent, properties, kind⟩, ho, hlength⟩ := exists_of_lengthAt? h
  cases kind <;> cases hlength
  exact ⟨_, ho, rfl⟩

/-! ### Indices -/

/-- The indices below a length that a value owns. -/
def ownIndices (s : Heap) (v : Value) (n : Nat) : List Nat :=
  match s.objectOf? v with
  | some o => o.properties.indices.filter (· < n)
  | none => []

theorem mem_ownIndices : i ∈ s.ownIndices (.object id) n ↔ i < n ∧ (s.own? id (.index i)).isSome = true := by
  have hobject : s.objectOf? (.object id) = s.object? id := rfl
  rw [ownIndices, hobject, own?]
  cases s.object? id with
  | none => simp
  | some o =>
      have hmem : i ∈ o.properties.indices ↔ (o.properties.get? (.index i)).isSome = true := by
        rw [Properties.indices, Std.TreeMap.mem_keys, Properties.get?, ← Std.TreeMap.mem_iff_isSome_getElem?]
      simp only [List.mem_filter, hmem, decide_eq_true_eq, Option.bind_some, and_comm]

theorem ownIndices_ascending (s : Heap) (v : Value) (n : Nat) : (s.ownIndices v n).Pairwise (· < ·) := by
  unfold ownIndices
  split
  · exact (Properties.indices_ascending _).filter _
  · exact .nil

/-- The indices that are walked: all below the length, or of a long array those that it owns. -/
theorem elementIndices_eq (s : Heap) (v : Value) (n : Nat) :
    s.elementIndices v n = if n ≤ maxDenseLength then List.range n else s.ownIndices v n := rfl

theorem mem_elementIndices : i ∈ s.elementIndices (.object id) n ↔
    i < n ∧ (n ≤ maxDenseLength ∨ (s.own? id (.index i)).isSome = true) := by
  rw [elementIndices_eq]
  split
  · rename_i hdense
    rw [List.mem_range, and_iff_left (.inl hdense)]
  · rename_i hlong
    rw [mem_ownIndices, or_iff_right hlong]

/-- They are walked upward. -/
theorem elementIndices_ascending (s : Heap) (v : Value) (n : Nat) :
    (s.elementIndices v n).Pairwise (· < ·) := by
  rw [elementIndices_eq]
  split
  · exact List.pairwise_lt_range
  · exact s.ownIndices_ascending v n

/-! ### Elements -/

/-- The element that an object owns at an index. -/
def ownElement? (s : Heap) (id : ObjectId) (i : Nat) : Option Value :=
  (s.own? id (.index i)).map Property.value

/-- The element that an object inherits at an index, undefined where there is none. -/
def inheritedElement (s : Heap) (id : ObjectId) (i : Nat) : Value :=
  ((s.chain (.object id)).tail.findSome? (s.own? · (.index i))).elim .undefined Property.value

/-- No object that this one inherits from has elements. -/
def InheritsNoElement (s : Heap) (id : ObjectId) : Prop :=
  ∀ j ∈ (s.chain (.object id)).tail, ∀ i, s.own? j (.index i) = none

theorem InheritsNoElement.inheritedElement_eq (h : s.InheritsNoElement id) (i : Nat) :
    s.inheritedElement id i = .undefined := by
  have hnone : (s.chain (.object id)).tail.findSome? (s.own? · (.index i)) = none :=
    List.findSome?_eq_none_iff.mpr fun j hj => h j hj i
  rw [inheritedElement, hnone, Option.elim_none]

/-- An object that is not a string has its own element, or else the inherited one. -/
theorem element_object (hplain : s.stringData? (.object id) = none) (hi : i < indexBound) :
    s.element (.object id) i = (s.ownElement? id i).getD (s.inheritedElement id i) := by
  have hlength : ((Key.index i) == Key.length) = false := by
    rw [beq_eq_false_iff_ne]
    exact nofun
  have hanswer : s.ownAnswer? (.object id) (.index i) = none := by
    simp [ownAnswer?, hplain, arrayProperty?, hlength]
  have hread := getProperty_eq (s := s) (v := .object id) rfl (.index i)
  rw [hanswer, Option.getD_none, chain_object, List.findSome?_cons] at hread
  rw [element, Key.ofNat_of_lt hi]
  refine (Except.ok.inj hread).trans ?_
  rw [ownElement?]
  cases s.own? id (.index i) with
  | none => rfl
  | some p => rfl

/-- An array is not a string. -/
theorem stringData?_of_array (ho : s.object? id = some o) (hkind : o.kind = .array n) :
    s.stringData? (.object id) = none := by
  simp only [stringData?, ho, Option.map_some, hkind]

/-- What a value has below its length; where there is nothing stands undefined. -/
def sequence (s : Heap) (v : Value) : List Value := (List.range (s.lengthOf v)).map (s.element v)

theorem length_sequence (s : Heap) (v : Value) : (s.sequence v).length = s.lengthOf v := by
  rw [sequence, List.length_map, List.length_range]

theorem getElem_sequence (s : Heap) (v : Value) {i : Nat} (hi : i < (s.sequence v).length) :
    (s.sequence v)[i] = s.element v i := by
  simp only [sequence, List.getElem_map, List.getElem_range]

theorem elements_eq {v : Value} (h : s.lengthOf v ≤ maxDenseLength) : s.elements v = .ok (s.sequence v) :=
  if_neg (Nat.not_lt.mpr h)

/-! ### Lists of values -/

variable {values : List Value}

/-- An array of values that it owns reads as these values. -/
theorem element_of_own (ho : s.object? id = some o) (hkind : o.kind = .array n) (hi : i < indexBound) {v : Value}
    (hown : s.ownElement? id i = some v) : s.element (.object id) i = v := by
  rw [element_object (stringData?_of_array ho hkind) hi, hown, Option.getD_some]

theorem sequence_of_own (ho : s.object? id = some o) (hkind : o.kind = .array values.length)
    (hlength : values.length < lengthBound)
    (hown : ∀ i (hi : i < values.length), s.ownElement? id i = some values[i]) :
    s.sequence (.object id) = values := by
  have hcount : s.lengthOf (.object id) = values.length := lengthOf_array ho hkind hlength
  refine List.ext_getElem (by rw [length_sequence, hcount]) fun i _ hi => ?_
  rw [getElem_sequence]
  exact element_of_own ho hkind (lt_indexBound hi hlength) (hown i hi)

theorem lists_arrayOf (ho : s.object? id = some (Store.arrayOf values)) : s.Lists id values :=
  ⟨_, ho, rfl, rfl, fun _ _ => Store.get?_arrayOf⟩

namespace Lists

theorem ownElement?_eq (h : s.Lists id values) (hlength : values.length < lengthBound) (hi : i < values.length) :
    s.ownElement? id i = some values[i] := by
  obtain ⟨o, ho, -, -, hlists⟩ := h
  have hbound : i < indexBound := lt_indexBound hi hlength
  have hown : o.properties.get? (.index i) = some (.plain values[i]) :=
    (hlists _ _).mpr ⟨i, values[i], List.getElem?_eq_getElem hi, (Key.ofNat_of_lt hbound).symm, rfl⟩
  rw [ownElement?, own?_of_object? ho, hown]
  rfl

theorem element_eq (h : s.Lists id values) (hlength : values.length < lengthBound) (hi : i < values.length) :
    s.element (.object id) i = values[i] := by
  have hown := h.ownElement?_eq hlength hi
  obtain ⟨o, ho, -, hkind, -⟩ := h
  exact element_of_own ho hkind (lt_indexBound hi hlength) hown

theorem lengthOf_eq (h : s.Lists id values) (hlength : values.length < lengthBound) :
    s.lengthOf (.object id) = values.length := by
  obtain ⟨o, ho, -, hkind, -⟩ := h
  exact lengthOf_array ho hkind hlength

/-- A list of values is read from it. -/
theorem sequence_eq (h : s.Lists id values) (hlength : values.length < lengthBound) :
    s.sequence (.object id) = values := by
  have hown := fun i (hi : i < values.length) => h.ownElement?_eq hlength hi
  obtain ⟨o, ho, -, hkind, -⟩ := h
  exact sequence_of_own ho hkind hlength hown

end Lists

end Heap

end Stepwise
