/-
Arrays that are rewritten element by element.

Methods that move elements take them away and store them again, one at a time, and set the
length at last.  What there is in between is told by a length and by what stands at each
index (`Object.Rearranged`); all the rest of the object is as it was, and so is all the rest of
the heap.  Each of the operations changes that in one way, and what a loop of them leaves
follows by induction.

While the array is rewritten it inherits what it has inherited all the time, for the links to
the objects further on are kept under names.
-/
import Mathlib.Logic.Function.Basic
import Stepwise.Proofs.Elements

namespace Stepwise

/-! ### Another object in a place -/

namespace Heap

/-- The heap with another object at a place. -/
def withObject (s : Heap) (id : ObjectId) (o : Object) : Heap := s.change id fun _ => o

variable {s : Heap} {id : ObjectId} {o : Object}

theorem object?_withObject (ho : s.object? id = some o) (o' : Object) :
    (s.withObject id o').object? id = some o' := object?_change_self ho fun _ => o'

theorem object?_withObject_of_ne {j : ObjectId} (hne : j ≠ id) (o' : Object) :
    (s.withObject id o').object? j = s.object? j := object?_change_of_ne hne fun _ => o'

theorem withObject_self (ho : s.object? id = some o) : s.withObject id o = s := change_of_eq ho rfl

/-- A change to that object makes it still another one. -/
theorem change_withObject (s : Heap) (id : ObjectId) (o : Object) (f : Object → Object) :
    (s.withObject id o).change id f = s.withObject id (f o) := by
  have hobjects : (s.objects.modify id.index fun _ => o).modify id.index f =
      s.objects.modify id.index fun _ => f o := by
    refine Array.ext_getElem? fun i => ?_
    rw [Array.getElem?_modify, Array.getElem?_modify, Array.getElem?_modify]
    split
    · rw [Option.map_map]
      rfl
    · rfl
  show ({ s with objects := (s.objects.modify id.index fun _ => o).modify id.index f } : Heap) = _
  rw [hobjects]
  rfl

theorem withObject_withObject (s : Heap) (id : ObjectId) (o o' : Object) :
    (s.withObject id o).withObject id o' = s.withObject id o' :=
  change_withObject s id o fun _ => o'

theorem change_eq_withObject (ho : s.object? id = some o) (f : Object → Object) :
    s.change id f = s.withObject id (f o) := by
  rw [← change_withObject, withObject_self ho]

end Heap

/-! ### Rearranged arrays -/

/-- An array that was made of an object by rewriting its elements.  It has a length, and `f` tells what
stands at the indices. -/
structure Object.Rearranged (o : Object) (n : Nat) (f : Nat → Option Value) (o' : Object) : Prop where
  parent : o'.parent = o.parent
  named : o'.properties.named = o.properties.named
  kind : o'.kind = .array n
  value : ∀ i, (o'.properties.get? (.index i)).map Property.value = f i
  writable : ∀ i p, o'.properties.get? (.index i) = some p → p.readonly = false
  bounds : o'.InBounds

namespace Object.Rearranged

variable {o o' : Object} {n i : Nat} {f : Nat → Option Value}

/-- Nothing stands at the length or behind it. -/
theorem lt (h : o.Rearranged n f o') (hi : f i ≠ none) : i < n := by
  have hthere : o'.properties.contains (.index i) = true := by
    rw [← h.value i, ne_eq, Option.map_eq_none_iff] at hi
    exact Option.isSome_iff_ne_none.mpr hi
  exact (h.bounds i hthere).2 n h.kind

/-- An element that is stored. -/
theorem put (h : o.Rearranged n f o') (hi : i < indexBound) (v : Value) :
    o.Rearranged (max n (i + 1)) (Function.update f i (some v)) (o'.put (.index i) v) := by
  have hwritable := h.writable i
  have hproper : (Key.index i).IsProper := hi
  -- An index that is there is below the length already.
  have hkind : (o'.put (.index i) v).kind = .array (max n (i + 1)) := by
    cases hp : o'.properties.get? (.index i) with
    | none =>
        rw [put_of_none hp]
        simp only [add, kindWith, h.kind]
    | some p =>
        have hlt : i < n := h.lt (by rw [← h.value i, hp]; exact Option.some_ne_none _)
        rw [put_of_writable hp (hwritable p hp), Nat.max_eq_left hlt]
        exact h.kind
  have hself : ∃ p, (o'.put (.index i) v).properties.get? (.index i) = some p ∧ p.value = v ∧
      p.readonly = false := by
    cases hp : o'.properties.get? (.index i) with
    | none =>
        refine ⟨.plain v, ?_, rfl, rfl⟩
        rw [put_of_none hp, add, Properties.get?_insert, if_pos rfl]
    | some p =>
        refine ⟨{ p with value := v }, ?_, rfl, hwritable p hp⟩
        rw [put_of_writable hp (hwritable p hp), Properties.get?_insert, if_pos rfl]
  obtain ⟨p, hp, hvalue, hfree⟩ := hself
  have hother {j : Nat} (hne : j ≠ i) :
      (o'.put (.index i) v).properties.get? (.index j) = o'.properties.get? (.index j) :=
    put_of_ne (fun heq => hne (Key.index.inj heq)) v
  refine ⟨(put_parent o' _ v).trans h.parent, ?_, hkind, fun j => ?_, fun j q hq => ?_, h.bounds.put hproper v⟩
  · rw [← h.named]
    unfold Object.put
    split
    · split <;> rfl
    · rfl
  · by_cases hj : j = i
    · subst hj
      rw [hp, Function.update_self, Option.map_some, hvalue]
    · rw [hother hj, Function.update_of_ne hj, h.value]
  · by_cases hj : j = i
    · subst hj
      rw [hp] at hq
      cases hq
      exact hfree
    · rw [hother hj] at hq
      exact h.writable j q hq

/-- An element that is taken away. -/
theorem erase (h : o.Rearranged n f o') (i : Nat) :
    o.Rearranged n (Function.update f i none) (o'.erase (.index i)) := by
  have hget (j : Nat) : (o'.erase (.index i)).properties.get? (.index j) =
      if i = j then none else o'.properties.get? (.index j) := by
    show (o'.properties.erase (.index i)).get? (.index j) = _
    rw [Properties.get?_erase]
    simp only [Key.index.injEq]
  refine ⟨h.parent, h.named, h.kind, fun j => ?_, fun j q hq => ?_, h.bounds.erase _⟩
  · rw [hget]
    by_cases hj : i = j
    · subst hj
      rw [if_pos rfl, Function.update_self, Option.map_none]
    · rw [if_neg hj, Function.update_of_ne (Ne.symm hj), h.value]
  · rw [hget] at hq
    split at hq
    · cases hq
    · exact h.writable j q hq

/-- A length that is set. -/
theorem resize (h : o.Rearranged n f o') (m : Nat) :
    o.Rearranged m (fun i => if i < m then f i else none) (o'.resize m) := by
  have hlength : o'.arrayLength? = some n := by
    rw [arrayLength?, h.kind]
  have hget (j : Nat) : (o'.resize m).properties.get? (.index j) =
      if j < m then o'.properties.get? (.index j) else none := by
    rw [h.bounds.get?_resize hlength]
    simp only [Key.fits, decide_eq_true_eq]
  have hresized : o'.resize m = { o' with
      properties := if m < n then o'.properties.truncate m else o'.properties, kind := .array m } := by
    rw [Object.resize, h.kind]
  refine ⟨?_, ?_, ?_, fun j => ?_, fun j q hq => ?_, h.bounds.resize m⟩
  · rw [hresized]
    exact h.parent
  · rw [hresized, ← h.named]
    show (if m < n then o'.properties.truncate m else o'.properties).named = _
    split <;> rfl
  · rw [hresized]
  · rw [hget, ← h.value]
    split <;> rfl
  · rw [hget] at hq
    split at hq
    · exact h.writable j q hq
    · cases hq

end Object.Rearranged

/-! ### Heaps with a rearranged array -/

namespace Heap

/-- An array in bounds, without read-only elements. -/
structure WritableArray (s : Heap) (id : ObjectId) (n : Nat) : Prop where
  array : ∃ o, s.object? id = some o ∧ o.kind = .array n ∧ o.InBounds
  writable : ∀ i p, s.own? id (.index i) = some p → p.readonly = false
  isLength : n < lengthBound

/-- A heap that was made of another one by rewriting the elements of an array. -/
def Rearranged (s : Heap) (id : ObjectId) (n : Nat) (f : Nat → Option Value) (t : Heap) : Prop :=
  ∃ o o', s.object? id = some o ∧ t = s.withObject id o' ∧ o.Rearranged n f o'

variable {s t : Heap} {id : ObjectId} {n i : Nat} {f : Nat → Option Value}

theorem WritableArray.lengthOf_eq (h : s.WritableArray id n) : s.lengthOf (.object id) = n := by
  obtain ⟨o, ho, hkind, -⟩ := h.array
  exact lengthOf_array ho hkind h.isLength

theorem WritableArray.length_sequence (h : s.WritableArray id n) : (s.sequence (.object id)).length = n := by
  rw [Heap.length_sequence, h.lengthOf_eq]

/-- To begin with, the array is as it is. -/
theorem WritableArray.rearranged (h : s.WritableArray id n) : s.Rearranged id n (s.ownElement? id) s := by
  obtain ⟨o, ho, hkind, hbounds⟩ := h.array
  refine ⟨o, o, ho, (withObject_self ho).symm, rfl, rfl, hkind, fun i => ?_, fun i p hp => ?_, hbounds⟩
  · rw [ownElement?, own?_of_object? ho]
  · exact h.writable i p (by rw [own?_of_object? ho, hp])

namespace Rearranged

theorem object?_of_ne (h : s.Rearranged id n f t) {j : ObjectId} (hne : j ≠ id) : t.object? j = s.object? j := by
  obtain ⟨o, o', -, rfl, -⟩ := h
  exact object?_withObject_of_ne hne o'

theorem size_eq (h : s.Rearranged id n f t) : t.objects.size = s.objects.size := by
  obtain ⟨o, o', -, rfl, -⟩ := h
  exact Array.size_modify

theorem ownElement?_eq (h : s.Rearranged id n f t) (i : Nat) : t.ownElement? id i = f i := by
  obtain ⟨o, o', ho, rfl, hrearranged⟩ := h
  rw [ownElement?, own?_of_object? (object?_withObject ho o'), hrearranged.value]

theorem own?_isSome (h : s.Rearranged id n f t) (i : Nat) : (t.own? id (.index i)).isSome = (f i).isSome := by
  rw [← h.ownElement?_eq i, ownElement?, Option.isSome_map]

/-- The indices that are walked are those with elements, or all of them. -/
theorem mem_elementIndices (h : s.Rearranged id n f t) {m : Nat} :
    i ∈ t.elementIndices (.object id) m ↔ i < m ∧ (m ≤ maxDenseLength ∨ (f i).isSome = true) := by
  rw [Heap.mem_elementIndices, h.own?_isSome]

theorem lt (h : s.Rearranged id n f t) (hi : f i ≠ none) : i < n := by
  obtain ⟨o, o', -, -, hrearranged⟩ := h
  exact hrearranged.lt hi

theorem lengthOf_eq (h : s.Rearranged id n f t) (hn : n < lengthBound) : t.lengthOf (.object id) = n := by
  obtain ⟨o, o', ho, rfl, hrearranged⟩ := h
  exact lengthOf_array (object?_withObject ho o') hrearranged.kind hn

theorem lengthAt?_eq (h : s.Rearranged id n f t) : t.lengthAt? id = some n := by
  obtain ⟨o, o', ho, rfl, hrearranged⟩ := h
  rw [lengthAt?, object?_withObject ho, Option.bind_some, Object.arrayLength?, hrearranged.kind]

theorem parentAt?_eq (h : s.Rearranged id n f t) (j : ObjectId) : t.parentAt? j = s.parentAt? j := by
  by_cases hj : j = id
  · subst hj
    obtain ⟨o, o', ho, rfl, hrearranged⟩ := h
    rw [parentAt?, parentAt?, object?_withObject ho, ho]
    exact hrearranged.parent
  · rw [parentAt?, parentAt?, h.object?_of_ne hj]

theorem own?_name (h : s.Rearranged id n f t) (j : ObjectId) (name : String) :
    t.own? j (.name name) = s.own? j (.name name) := by
  by_cases hj : j = id
  · subst hj
    obtain ⟨o, o', ho, rfl, hrearranged⟩ := h
    rw [own?_of_object? ho, own?_of_object? (object?_withObject ho o'), Properties.get?, Properties.get?,
      hrearranged.named]
  · rw [own?, own?, h.object?_of_ne hj]

/-- The array inherits from the same objects. -/
theorem chain_eq (h : s.Rearranged id n f t) : t.chain (.object id) = s.chain (.object id) := by
  have hprototype (c : ObjectId) : t.prototypeOf? c = s.prototypeOf? c := by
    rw [prototypeOf?_eq, prototypeOf?_eq, Key.prototype, h.own?_name]
  have hnext (j : ObjectId) : t.next? j = s.next? j := by
    rw [next?_eq, next?_eq, h.parentAt?_eq]
    exact Option.bind_congr fun c _ => hprototype c
  have hfuel : t.walkFuel = s.walkFuel := congrArg (· + 1) h.size_eq
  show t.chainFrom t.walkFuel [] id = s.chainFrom s.walkFuel [] id
  rw [hfuel]
  exact chainFrom_congr fun j _ => hnext j

theorem inheritedElement_eq (h : s.Rearranged id n f t) (i : Nat) :
    t.inheritedElement id i = s.inheritedElement id i := by
  have hnot : id ∉ (s.chain (.object id)).tail := by
    have hnodup := s.chain_nodup (.object id)
    rw [chain_object] at hnodup
    exact (List.nodup_cons.mp hnodup).1
  have hfind : ∀ l : List ObjectId, id ∉ l →
      l.findSome? (t.own? · (.index i)) = l.findSome? (s.own? · (.index i)) := by
    intro l hl
    induction l with
    | nil => rfl
    | cons j rest ih =>
        obtain ⟨hj, hrest⟩ := not_or.mp (mt List.mem_cons.mpr hl)
        have hown : t.own? j (.index i) = s.own? j (.index i) := by
          rw [own?, own?, h.object?_of_ne (Ne.symm hj)]
        rw [List.findSome?_cons, List.findSome?_cons, hown, ih hrest]
  rw [inheritedElement, inheritedElement, h.chain_eq, hfind _ hnot]

theorem element_eq (h : s.Rearranged id n f t) (hi : i < indexBound) :
    t.element (.object id) i = (f i).getD (s.inheritedElement id i) := by
  have hown := h.ownElement?_eq i
  have hinherited := h.inheritedElement_eq i
  obtain ⟨o, o', ho, rfl, hrearranged⟩ := h
  rw [element_object (stringData?_of_array (object?_withObject ho o') hrearranged.kind) hi, ← hinherited, hown]

end Rearranged

/-- What is read at an index below the length. -/
theorem WritableArray.element_eq (h : s.WritableArray id n) (hi : i < n) :
    s.element (.object id) i = (s.ownElement? id i).getD (s.inheritedElement id i) :=
  h.rearranged.element_eq (lt_indexBound hi h.isLength)

end Heap

/-! ### The steps -/

namespace Sequence

open Store

variable {s t : Heap} {id : ObjectId} {n i : Nat} {f : Nat → Option Value}

/-- An object is not refused as a receiver. -/
theorem refuseNullish_object (name : String) (id : ObjectId) (s : Heap) :
    method.liftExcept (refuseNullish "Array" name (.object id)) s = (.ok (), s) := rfl

theorem store_rearranged (h : s.Rearranged id n f t) (hi : i < indexBound) (v : Value) :
    ∃ t', store (.object id) i v t = (.ok (), t') ∧
      s.Rearranged id (max n (i + 1)) (Function.update f i (some v)) t' := by
  have hplan := Heap.planWrite_of_array h.lengthAt?_eq (.index i) v
  obtain ⟨o, o', ho, rfl, hrearranged⟩ := h
  rw [if_neg nofun] at hplan
  refine ⟨s.withObject id (o'.put (.index i) v), ?_, o, _, ho, rfl, hrearranged.put hi v⟩
  rw [store, Key.ofNat_of_lt hi, setProperty_of_ok hplan, Heap.carryOut, Heap.change_withObject]

theorem storeLength_rearranged (h : s.Rearranged id n f t) {m : Nat} (hm : m < lengthBound) :
    ∃ t', storeLength (.object id) m t = (.ok (), t') ∧
      s.Rearranged id m (fun i => if i < m then f i else none) t' := by
  have hindex : Double.toIndex? (t.toNumber (.ofNat m)) = some m := Double.toIndex?_ofNat hm
  have hplan := Heap.planWrite_of_array h.lengthAt?_eq .length (.ofNat m)
  rw [if_pos rfl, hindex] at hplan
  obtain ⟨o, o', ho, rfl, hrearranged⟩ := h
  refine ⟨s.withObject id (o'.resize m), ?_, o, _, ho, rfl, hrearranged.resize m⟩
  rw [storeLength, setProperty_of_ok hplan, Heap.carryOut, Heap.change_withObject]

theorem delete_rearranged (h : s.Rearranged id n f t) (hi : i < indexBound) :
    ∃ t', deleteProperty (.object id) (.ofNat i) t = (.ok true, t') ∧
      s.Rearranged id n (Function.update f i none) t' := by
  obtain ⟨o, o', ho, rfl, hrearranged⟩ := h
  have hcan : (s.withObject id o').canDelete (.object id) (.index i) = true := by
    have hobject : (s.withObject id o').objectOf? (.object id) = some o' := Heap.object?_withObject ho o'
    have hlength : (Key.index i == Key.length && o'.isArray) = false := rfl
    simp only [Heap.canDelete, hobject, hlength, Bool.false_eq_true, if_false]
    cases hp : o'.properties.get? (.index i) with
    | none => rfl
    | some p =>
        show (!p.readonly) = true
        rw [hrearranged.writable i p hp]
        rfl
  refine ⟨s.withObject id (o'.erase (.index i)), ?_, o, _, ho, rfl, hrearranged.erase i⟩
  rw [Key.ofNat_of_lt hi, deleteProperty_of_canDelete hcan, Heap.change_withObject]

/-- What is taken away is the element that is read there. -/
theorem take_rearranged (h : s.Rearranged id n f t) (hi : i < indexBound) :
    ∃ t', take (.object id) i t = (.ok (i, (f i).getD (s.inheritedElement id i)), t') ∧
      s.Rearranged id n (Function.update f i none) t' := by
  obtain ⟨t', hdelete, hrearranged⟩ := delete_rearranged h hi
  refine ⟨t', ?_, hrearranged⟩
  have hread : Edit.query (fun s => s.getProperty (.object id) (.ofNat i)) t =
      (.ok ((f i).getD (s.inheritedElement id i)), t) := by
    rw [← h.element_eq hi]
    rfl
  rw [take, bind_of_ok hread, bind_of_ok hdelete]
  rfl

/-! ### Loops of them -/

/-- A loop of stores.  `index` tells where an element of the list is stored, if it is at all, and `g`
tells what is stored at an index. -/
theorem forM_store_rearranged {α : Type} (body : α → Edit Unit) (index : α → Option Nat) (g : Nat → Value)
    {xs : List α}
    (hskip : ∀ x ∈ xs, index x = none → body x = pure ())
    (hstore : ∀ x ∈ xs, ∀ i, index x = some i → i < indexBound ∧ body x = store (.object id) i (g i))
    (h : s.Rearranged id n f t) :
    ∃ t' m, xs.forM body t = (.ok (), t') ∧
      s.Rearranged id m (fun i => if i ∈ xs.filterMap index then some (g i) else f i) t' := by
  induction xs generalizing t n f with
  | nil =>
      refine ⟨t, n, rfl, ?_⟩
      simpa only [List.filterMap_nil, List.not_mem_nil, if_false] using h
  | cons x rest ih =>
      have hskip' := fun y hy => hskip y (List.mem_cons_of_mem x hy)
      have hstore' := fun y hy => hstore y (List.mem_cons_of_mem x hy)
      cases hx : index x with
      | none =>
          obtain ⟨t', m, hrun, hrearranged⟩ := ih hskip' hstore' h
          refine ⟨t', m, ?_, ?_⟩
          · show (body x >>= fun _ => rest.forM body : Edit Unit) t = _
            rw [hskip x List.mem_cons_self hx, pure_bind, hrun]
          · rw [List.filterMap_cons_none hx]
            exact hrearranged
      | some i =>
          obtain ⟨hi, hbody⟩ := hstore x List.mem_cons_self i hx
          obtain ⟨t₁, hrun₁, hrearranged₁⟩ := store_rearranged h hi (g i)
          obtain ⟨t', m, hrun, hrearranged⟩ := ih hskip' hstore' hrearranged₁
          refine ⟨t', m, ?_, ?_⟩
          · show (body x >>= fun _ => rest.forM body : Edit Unit) t = _
            rw [hbody, bind_of_ok hrun₁, hrun]
          · have hsame : (fun j => if j ∈ (x :: rest).filterMap index then some (g j) else f j) =
                fun j => if j ∈ rest.filterMap index then some (g j) else Function.update f i (some (g i)) j := by
              funext j
              rw [List.filterMap_cons_some hx]
              by_cases hj : j = i
              · subst hj
                simp
              · simp [hj]
            rw [hsame]
            exact hrearranged

/-- What stands at indices before they are taken out. -/
private theorem update_none {indices : List Nat} (i : Nat) (f : Nat → Option Value) :
    (fun j => if j ∈ i :: indices then none else f j) =
      fun j => if j ∈ indices then none else Function.update f i none j := by
  funext j
  by_cases hj : j = i
  · subst hj
    simp
  · simp [hj]

/-- A loop of deletions. -/
theorem forM_delete_rearranged {indices : List Nat} (hbound : ∀ i ∈ indices, i < indexBound)
    (h : s.Rearranged id n f t) :
    ∃ t', (indices.forM fun i => do let _ ← deleteProperty (.object id) (.ofNat i) : Edit Unit) t = (.ok (), t') ∧
      s.Rearranged id n (fun i => if i ∈ indices then none else f i) t' := by
  induction indices generalizing t f with
  | nil =>
      refine ⟨t, rfl, ?_⟩
      simpa only [List.not_mem_nil, if_false] using h
  | cons i rest ih =>
      obtain ⟨t₁, hrun₁, hrearranged₁⟩ := delete_rearranged h (hbound i List.mem_cons_self)
      obtain ⟨t', hrun, hrearranged⟩ := ih (fun j hj => hbound j (List.mem_cons_of_mem i hj)) hrearranged₁
      refine ⟨t', ?_, by rwa [update_none]⟩
      show ((deleteProperty (.object id) (.ofNat i) >>= fun _ => pure ()) >>= fun _ => rest.forM _ : Edit Unit) t = _
      rw [bind_assoc, bind_of_ok hrun₁, pure_bind, hrun]

/-- What is taken away at different indices are the elements that were there. -/
theorem mapM_take_rearranged {indices : List Nat} (hnodup : indices.Nodup)
    (hbound : ∀ i ∈ indices, i < indexBound) (h : s.Rearranged id n f t) :
    ∃ t', indices.mapM (take (.object id)) t =
        (.ok (indices.map fun i => (i, (f i).getD (s.inheritedElement id i))), t') ∧
      s.Rearranged id n (fun i => if i ∈ indices then none else f i) t' := by
  induction indices generalizing t f with
  | nil =>
      refine ⟨t, rfl, ?_⟩
      simpa only [List.not_mem_nil, if_false] using h
  | cons i rest ih =>
      obtain ⟨hi, hrest⟩ := List.nodup_cons.mp hnodup
      obtain ⟨t₁, hrun₁, hrearranged₁⟩ := take_rearranged h (hbound i List.mem_cons_self)
      obtain ⟨t', hrun, hrearranged⟩ := ih hrest (fun j hj => hbound j (List.mem_cons_of_mem i hj)) hrearranged₁
      refine ⟨t', ?_, by rwa [update_none]⟩
      -- The others are read as before, for they stand at other indices.
      have hothers : (rest.map fun j => (j, (Function.update f i none j).getD (s.inheritedElement id j))) =
          rest.map fun j => (j, (f j).getD (s.inheritedElement id j)) := by
        refine List.map_congr_left fun j hj => ?_
        have hne : j ≠ i := fun heq => hi (heq ▸ hj)
        rw [Function.update_of_ne hne]
      rw [List.mapM_cons, bind_of_ok hrun₁, bind_of_ok hrun, hothers, List.map_cons]
      rfl

/-- All elements are taken away, and nothing is left. -/
theorem takeAll_rearranged (h : s.Rearranged id n f t) (hn : n < lengthBound) :
    ∃ t', takeAll (.object id) n t = (.ok ((t.elementIndices (.object id) n).map fun i =>
        (i, (f i).getD (s.inheritedElement id i))), t') ∧
      s.Rearranged id n (fun _ => none) t' := by
  have hbound : ∀ i ∈ t.elementIndices (.object id) n, i < indexBound := fun i hi =>
    lt_indexBound (h.mem_elementIndices.mp hi).1 hn
  have hnodup := (t.elementIndices_ascending (.object id) n).imp Nat.ne_of_lt
  obtain ⟨t', hrun, hrearranged⟩ := mapM_take_rearranged hnodup hbound h
  have hnone : (fun i => if i ∈ t.elementIndices (.object id) n then none else f i) = fun _ => none := by
    funext i
    split
    · rfl
    · rename_i hnot
      by_contra hi
      exact hnot (h.mem_elementIndices.mpr ⟨h.lt hi, .inr (Option.isSome_iff_ne_none.mpr hi)⟩)
  rw [hnone] at hrearranged
  exact ⟨t', by rw [takeAll, Edit.ask_bind_eq, hrun], hrearranged⟩

/-- A list of elements is stored from the first index on. -/
theorem forM_zipIdx_rearranged (h : s.Rearranged id n f t) {elements : List Value}
    (hlength : elements.length < lengthBound) :
    ∃ t' m, (elements.zipIdx.forM fun (v, i) => store (.object id) i v) t = (.ok (), t') ∧
      s.Rearranged id m (fun i => elements[i]?.or (f i)) t' := by
  have hstore : ∀ p ∈ elements.zipIdx, ∀ i, some p.2 = some i → i < indexBound ∧
      store (.object id) p.2 p.1 = store (.object id) i (elements[i]?.getD .undefined) := by
    intro p hp i hi
    cases hi
    have hget : elements[p.2]? = some p.1 := List.mk_mem_zipIdx_iff_getElem?.mp hp
    have hlt : p.2 < elements.length := (List.getElem?_eq_some_iff.mp hget).1
    rw [hget]
    exact ⟨lt_indexBound hlt hlength, rfl⟩
  obtain ⟨t', m, hrun, hrearranged⟩ := forM_store_rearranged
    (fun p : Value × Nat => store (.object id) p.2 p.1) (fun p => some p.2)
    (fun i => elements[i]?.getD .undefined) (fun _ _ hp => nomatch hp) hstore h
  have hsame : (fun i => if i ∈ elements.zipIdx.filterMap (fun p => some p.2) then
      some (elements[i]?.getD .undefined) else f i) = fun i => elements[i]?.or (f i) := by
    funext i
    have hmem : i ∈ elements.zipIdx.filterMap (fun p => some p.2) ↔ i < elements.length := by simp
    by_cases hi : i < elements.length
    · rw [if_pos (hmem.mpr hi), List.getElem?_eq_getElem hi, Option.getD_some, Option.some_or]
    · rw [if_neg (mt hmem.mp hi), List.getElem?_eq_none (Nat.le_of_not_lt hi), Option.none_or]
  exact ⟨t', m, hrun, by rwa [hsame] at hrearranged⟩

/-- The elements are replaced by those of a list. -/
theorem replaceAll_rearranged (h : s.Rearranged id n f t) (hn : n < lengthBound) {elements : List Value}
    (hlength : elements.length < lengthBound) :
    ∃ t', replaceAll (.object id) elements t = (.ok (), t') ∧
      s.Rearranged id elements.length (fun i => elements[i]?) t' := by
  obtain ⟨t₁, m, hrun₁, hstored⟩ := forM_zipIdx_rearranged h hlength
  have hbound : ∀ i ∈ List.range' elements.length (n - elements.length), i < indexBound := by
    intro i hi
    obtain ⟨hlow, hhigh⟩ := List.mem_range'_1.mp hi
    exact lt_indexBound (by omega) hn
  obtain ⟨t₂, hrun₂, hdeleted⟩ := forM_delete_rearranged hbound hstored
  obtain ⟨t₃, hrun₃, hcut⟩ := storeLength_rearranged hdeleted hlength
  refine ⟨t₃, ?_, ?_⟩
  · rw [replaceAll, Edit.ask_bind_eq, h.lengthOf_eq hn, bind_of_ok hrun₁, bind_of_ok hrun₂, hrun₃]
  · have hsame : (fun i => if i < elements.length then
        (if i ∈ List.range' elements.length (n - elements.length) then none else elements[i]?.or (f i)) else none) =
        fun i => elements[i]? := by
      funext i
      by_cases hi : i < elements.length
      · have hnot : i ∉ List.range' elements.length (n - elements.length) := fun hmem => by
          have hlow := (List.mem_range'_1.mp hmem).1
          omega
        rw [if_pos hi, if_neg hnot, List.getElem?_eq_getElem hi, Option.some_or]
      · rw [if_neg hi, List.getElem?_eq_none (Nat.le_of_not_lt hi)]
    rwa [hsame] at hcut

end Sequence

/-! ### What there is at the end -/

namespace Heap

/-- An array has become one with other elements, and nothing else has changed.  There may be new
objects. -/
structure BecomesArray (s : Heap) (id : ObjectId) (values : List Value) (s' : Heap) : Prop where
  sequence : s'.sequence (.object id) = values
  array : ∃ o o', s.object? id = some o ∧ s'.object? id = some o' ∧ o'.kind = .array values.length ∧
    o'.parent = o.parent ∧ o'.properties.named = o.properties.named
  behind : ∀ i, values.length ≤ i → s'.own? id (.index i) = none
  others : ∀ j o, j ≠ id → s.object? j = some o → s'.object? j = some o

variable {s t : Heap} {id : ObjectId} {values : List Value} {f : Nat → Option Value}

/-- A rearranged array has become one with the elements that are read from it. -/
theorem Rearranged.becomes {n : Nat} (h : s.Rearranged id n f t) (hn : n < lengthBound)
    (hcount : values.length = n)
    (hvalues : ∀ i (hi : i < values.length), (f i).getD (s.inheritedElement id i) = values[i]) :
    s.BecomesArray id values t := by
  subst hcount
  have hcount := h.lengthOf_eq hn
  refine ⟨?_, ?_, fun i hi => ?_, fun j o hj ho => by rw [h.object?_of_ne hj, ho]⟩
  · refine List.ext_getElem (by rw [length_sequence, hcount]) fun i _ hi => ?_
    rw [getElem_sequence, h.element_eq (lt_indexBound hi hn), hvalues i hi]
  · obtain ⟨o, o', ho, rfl, hrearranged⟩ := h
    exact ⟨o, o', ho, object?_withObject ho o', hrearranged.kind, hrearranged.parent, hrearranged.named⟩
  · have hnone : f i = none := by
      by_contra hsome
      exact Nat.not_lt.mpr hi (h.lt hsome)
    have hown := h.ownElement?_eq i
    rwa [hnone, ownElement?, Option.map_eq_none_iff] at hown

/-- An array that owns all its elements has them as well when another object is made. -/
theorem Rearranged.becomes_push (h : s.Rearranged id values.length (fun i => values[i]?) t)
    (hlength : values.length < lengthBound) (new : Object) :
    s.BecomesArray id values { t with objects := t.objects.push new } := by
  have hbecomes : s.BecomesArray id values t := h.becomes hlength rfl fun i hi => by
    rw [List.getElem?_eq_getElem hi, Option.getD_some]
  obtain ⟨o, o', ho, ho', hkind, hparent, hnamed⟩ := hbecomes.array
  have hpushed := object?_push_of_eq_some ho' new
  have hown (key : Key) : own? { t with objects := t.objects.push new } id key = t.own? id key := by
    rw [own?_of_object? hpushed, own?_of_object? ho']
  refine ⟨sequence_of_own hpushed hkind hlength fun i hi => ?_, ⟨o, o', ho, hpushed, hkind, hparent, hnamed⟩,
    fun i hi => by rw [hown, hbecomes.behind i hi],
    fun j x hj hx => object?_push_of_eq_some (hbecomes.others j x hj hx) new⟩
  rw [ownElement?, hown]
  exact (h.ownElement?_eq i).trans (List.getElem?_eq_getElem hi)

end Heap

end Stepwise
