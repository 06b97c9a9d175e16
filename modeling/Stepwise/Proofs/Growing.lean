/-
Growing to the bound.

No array has a length at the bound or beyond.  `unshift` asks at once whether all its elements fit, and
touches nothing if they do not.  `push` asks again before each element, and by then it has stored
the ones before: when it fails, the array has grown as far as it can
(`foldlM_append_extends`).  So the two fail for the same arguments, and only of a full array they
leave the same behind.

That nothing else can fail does not depend on what is stored in the array: it is an array all the
time, and takes every write to an index and every length below the bound.
-/
import Stepwise.Proofs.Inventory
import Stepwise.Proofs.Lexical
import Stepwise.Proofs.Queues

namespace Stepwise

/-! ### Values behind the elements -/

/-- An array of a length with values stored behind it. -/
structure Object.Extended (o : Object) (n : Nat) (values : List Value) (o' : Object) : Prop where
  parent : o'.parent = o.parent
  named : o'.properties.named = o.properties.named
  kind : o'.kind = .array (n + values.length)
  own : ∀ i, o'.properties.get? (.index i) =
    if n ≤ i ∧ i < n + values.length then values[i - n]?.map .plain else o.properties.get? (.index i)

namespace Object

variable {o o₁ o' : Object} {n i : Nat} {v : Value} {rest : List Value}

theorem InBounds.get?_eq_none (h : o.InBounds) (hkind : o.kind = .array n) (hi : n ≤ i) :
    o.properties.get? (.index i) = none := by
  by_contra hthere
  have hlt := (h i (Option.isSome_iff_ne_none.mpr hthere)).2 n hkind
  omega

theorem Extended.nil (hkind : o.kind = .array n) : o.Extended n [] o where
  parent := rfl
  named := rfl
  kind := hkind
  own i := by
    rw [if_neg]
    rw [List.length_nil]
    omega

/-- One value is stored, and then the others. -/
theorem Extended.cons (hkind : o.kind = .array n) (hbounds : o.InBounds)
    (h : (o.put (.index n) v).Extended (n + 1) rest o') : o.Extended n (v :: rest) o' := by
  have hadd : o.put (.index n) v = o.add (.index n) (.plain v) :=
    put_of_none (hbounds.get?_eq_none hkind (Nat.le_refl n)) v
  rw [hadd] at h
  refine ⟨h.parent, h.named, ?_, fun i => ?_⟩
  · rw [h.kind, List.length_cons, Nat.add_assoc, Nat.add_comm 1]
  · rw [h.own, List.length_cons]
    show (if _ then _ else (o.properties.insert (.index n) (.plain v)).get? (.index i)) = _
    rw [Properties.get?_insert]
    simp only [Key.index.injEq]
    rcases Nat.lt_trichotomy i n with hi | rfl | hi
    · rw [if_neg (by omega), if_neg (by omega), if_neg (by omega)]
    · rw [if_neg (by omega), if_pos rfl, if_pos (by omega), Nat.sub_self]
      rfl
    · have hstep : i - n = i - (n + 1) + 1 := by omega
      rw [if_neg (Nat.ne_of_lt hi), hstep, List.getElem?_cons_succ]
      exact if_congr (by omega) rfl rfl

end Object

namespace Sequence

open Store

variable {s : Heap} {id : ObjectId} {o : Object} {n : Nat}

/-! ### Storing behind the elements -/

theorem store_eq (ho : s.object? id = some o) (hkind : o.kind = .array n) {i : Nat} (hi : i < indexBound) (v : Value) :
    store (.object id) i v s = (.ok (), s.withObject id (o.put (.index i) v)) := by
  have hlength : s.lengthAt? id = some n := by
    rw [Heap.lengthAt?, ho, Option.bind_some, Object.arrayLength?, hkind]
  have hplan := Heap.planWrite_of_array hlength (.ofNat i) v
  rw [if_neg (Key.ofNat_ne_length i)] at hplan
  rw [store, setProperty_of_ok hplan, Heap.carryOut, Heap.change_eq_withObject ho, Key.ofNat_of_lt hi]

/-- **As many values are stored behind the elements as there is room for**, and if there is not room for all of them,
that is a failure. -/
theorem foldlM_append_extends (ho : s.object? id = some o) (hkind : o.kind = .array n) (hbounds : o.InBounds)
    (hn : n < lengthBound) (args : List Value) :
    ∃ o', args.foldlM (append (.object id)) n s =
        (if n + args.length < lengthBound then .ok (n + args.length) else .error .invalidArrayLength,
          s.withObject id o') ∧
      o.Extended n (args.take (lengthBound - 1 - n)) o' ∧ (n + 1 = lengthBound → o' = o) := by
  induction args generalizing s o n with
  | nil =>
      refine ⟨o, ?_, by simpa using .nil hkind, fun _ => rfl⟩
      rw [List.length_nil, Nat.add_zero, if_pos hn, Heap.withObject_self ho]
      rfl
  | cons v rest ih =>
      rw [List.length_cons, List.foldlM_cons]
      by_cases hnext : n + 1 < lengthBound
      · have hindex : n < indexBound := lt_indexBound (Nat.lt_succ_self n) hnext
        have happend : append (.object id) n v s = (.ok (n + 1), s.withObject id (o.put (.index n) v)) := by
          rw [append, if_pos hnext, bind_of_ok (store_eq ho hkind hindex v)]
          rfl
        have hgrown : (o.put (.index n) v).kind = .array (n + 1) := by
          rw [Object.put_of_none (hbounds.get?_eq_none hkind (Nat.le_refl n))]
          simp [Object.add, Object.kindWith, hkind]
        obtain ⟨o', hrun, hextended, -⟩ := ih (Heap.object?_withObject ho _) hgrown
          (hbounds.put (show Key.IsProper (.index n) from hindex) v) hnext
        have hroom : lengthBound - 1 - n = lengthBound - 1 - (n + 1) + 1 := by omega
        refine ⟨o', ?_, ?_, fun hfull => absurd hnext (by omega)⟩
        · rw [bind_of_ok happend, hrun, Heap.withObject_withObject, Nat.add_assoc, Nat.add_comm 1]
        · rw [hroom, List.take_succ_cons]
          exact .cons hkind hbounds hextended
      · have happend : append (.object id) n v s = (.error .invalidArrayLength, s) := by
          rw [append, if_neg hnext]
          rfl
        have hroom : lengthBound - 1 - n = 0 := by omega
        refine ⟨o, ?_, by simpa [hroom] using .nil hkind, fun _ => rfl⟩
        rw [bind_of_error happend, if_neg (by omega), Heap.withObject_self ho]

/-! ### What cannot fail -/

/-- There is an array at a place. -/
def HasArray (id : ObjectId) (s : Heap) : Prop := ∃ o n, s.object? id = some o ∧ o.kind = .array n

theorem HasArray.change (h : HasArray id s) {f : Object → Object}
    (hf : ∀ o n, o.kind = .array n → ∃ m, (f o).kind = .array m) : HasArray id (s.change id f) := by
  obtain ⟨o, n, ho, hkind⟩ := h
  obtain ⟨m, hm⟩ := hf o n hkind
  exact ⟨f o, m, Heap.object?_change_self ho f, hm⟩

theorem HasArray.lengthAt? (h : HasArray id s) : ∃ n, s.lengthAt? id = some n := by
  obtain ⟨o, n, ho, hkind⟩ := h
  exact ⟨n, by rw [Heap.lengthAt?, ho, Option.bind_some, Object.arrayLength?, hkind]⟩

theorem store_succeeds (i : Nat) (v : Value) : Edit.Succeeds (HasArray id) (store (.object id) i v) := by
  intro s hs
  obtain ⟨n, hlength⟩ := hs.lengthAt?
  have hplan := Heap.planWrite_of_array hlength (.ofNat i) v
  rw [if_neg (Key.ofNat_ne_length i)] at hplan
  refine ⟨(), _, setProperty_of_ok hplan, hs.change fun o n hkind => ?_⟩
  rcases o.put_kind (.ofNat i) v with hput | ⟨-, hput⟩
  · exact ⟨n, hput.trans hkind⟩
  · rw [hput]
    unfold Object.kindWith
    split
    · exact ⟨_, rfl⟩
    · exact ⟨n, hkind⟩

theorem storeLength_succeeds {m : Nat} (hm : m < lengthBound) :
    Edit.Succeeds (HasArray id) (storeLength (.object id) m) := by
  intro s hs
  obtain ⟨n, hlength⟩ := hs.lengthAt?
  have hindex : Double.toIndex? (s.toNumber (.ofNat m)) = some m := Double.toIndex?_ofNat hm
  have hplan := Heap.planWrite_of_array hlength .length (.ofNat m)
  rw [if_pos rfl, hindex] at hplan
  refine ⟨(), _, setProperty_of_ok hplan, hs.change fun o n hkind => ⟨m, ?_⟩⟩
  rw [Object.resize, hkind]

theorem deleteProperty_succeeds (key : Key) : Edit.Succeeds (HasArray id) (deleteProperty (.object id) key) := by
  intro s hs
  cases hcan : s.canDelete (.object id) key with
  | true => exact ⟨true, _, deleteProperty_of_canDelete hcan, hs.change fun _ n hkind => ⟨n, hkind⟩⟩
  | false => exact ⟨false, s, deleteProperty_of_not_canDelete hcan, hs⟩

theorem take_succeeds (i : Nat) : Edit.Succeeds (HasArray id) (take (.object id) i) := by
  refine .bind (fun s hs => ?_) fun v => .bind (deleteProperty_succeeds _) fun _ => .pure _
  have hread := s.getProperty_eq (v := .object id) rfl (.ofNat i)
  exact ⟨_, s, by rw [Edit.query, hread], hs⟩

theorem takeAll_succeeds (length : Nat) : Edit.Succeeds (HasArray id) (takeAll (.object id) length) :=
  .bind (.ask _) fun indices => .mapM take_succeeds indices

/-! ### Both ends -/

/-- What fits is put behind an array. -/
theorem push_succeeds (ho : s.object? id = some o) (hkind : o.kind = .array n) (hbounds : o.InBounds)
    {args : List Value} (hfits : n + args.length < lengthBound) : ∃ v s', push (.object id) args s = (.ok v, s') := by
  have hn : n < lengthBound := Nat.lt_of_le_of_lt (Nat.le_add_right n _) hfits
  obtain ⟨o', hrun, hextended, -⟩ := foldlM_append_extends ho hkind hbounds hn args
  rw [if_pos hfits] at hrun
  obtain ⟨⟨⟩, t, hstore, -⟩ := storeLength_succeeds hfits (s.withObject id o')
    ⟨o', _, Heap.object?_withObject ho o', hextended.kind⟩
  refine ⟨.ofNat (n + args.length), t, ?_⟩
  rw [push, Edit.ask_bind_eq, Heap.lengthOf_array ho hkind hn, bind_of_ok hrun, bind_of_ok hstore]
  rfl

/-- What does not fit is put behind an array as far as it does. -/
theorem push_refused (ho : s.object? id = some o) (hkind : o.kind = .array n) (hbounds : o.InBounds)
    (hn : n < lengthBound) {args : List Value} (hfull : lengthBound ≤ n + args.length) :
    ∃ o', push (.object id) args s = (.error .invalidArrayLength, s.withObject id o') ∧
      o.Extended n (args.take (lengthBound - 1 - n)) o' ∧ (n + 1 = lengthBound → o' = o) := by
  obtain ⟨o', hrun, hextended, hsame⟩ := foldlM_append_extends ho hkind hbounds hn args
  rw [if_neg (Nat.not_lt.mpr hfull)] at hrun
  refine ⟨o', ?_, hextended, hsame⟩
  rw [push, Edit.ask_bind_eq, Heap.lengthOf_array ho hkind hn, bind_of_error hrun]

/-- What fits is put in front of an array. -/
theorem unshift_succeeds {args : List Value} (hs : HasArray id s)
    (hfits : s.lengthOf (.object id) + args.length < lengthBound) :
    ∃ v s', unshift (.object id) args s = (.ok v, s') := by
  rw [unshift, Edit.ask_bind_eq]
  dsimp only
  rw [if_pos hfits]
  refine Edit.Succeeds.exists_ok (P := HasArray id) ?_ hs
  refine .bind (takeAll_succeeds _) fun taken => .bind (.forM (fun _ => store_succeeds _ _) taken) fun _ => ?_
  exact .bind (.forM (fun _ => store_succeeds _ _) _) fun _ => .bind (storeLength_succeeds hfits) fun _ => .pure _

/-- What does not fit in front of an array is refused at once. -/
theorem unshift_refused {target : Value} {args : List Value} (hfull : lengthBound ≤ s.lengthOf target + args.length) :
    unshift target args s = (.error .invalidArrayLength, s) := by
  rw [unshift, Edit.ask_bind_eq]
  dsimp only
  rw [if_neg (Nat.not_lt.mpr hfull)]
  rfl

/-- **Growing past the bound fails, and fails at both ends for the same arguments.**  In front of the array
nothing is changed then; behind it stands as much as there was room for, and the array is as it
was only if it was full. -/
theorem growing_past_bound (ho : s.object? id = some o) (hkind : o.kind = .array n) (hbounds : o.InBounds)
    (hn : n < lengthBound) (args : List Value) :
    ((method .push (.object id) args s).1 = .error .invalidArrayLength ↔ lengthBound ≤ n + args.length) ∧
    ((method .unshift (.object id) args s).1 = .error .invalidArrayLength ↔ lengthBound ≤ n + args.length) ∧
    (lengthBound ≤ n + args.length →
      (method .unshift (.object id) args s).2 = s ∧
      ((method .push (.object id) args s).2 = s ↔ n + 1 = lengthBound) ∧
      ∃ o', (method .push (.object id) args s).2 = s.withObject id o' ∧
        o.Extended n (args.take (lengthBound - 1 - n)) o') := by
  have hlength : s.lengthOf (.object id) = n := Heap.lengthOf_array ho hkind hn
  have hpush : method .push (.object id) args s = push (.object id) args s := by
    rw [method, bind_of_ok (refuseNullish_object _ id s)]
  have hunshift : method .unshift (.object id) args s = unshift (.object id) args s := by
    rw [method, bind_of_ok (refuseNullish_object _ id s)]
  rw [hpush, hunshift]
  by_cases hfull : lengthBound ≤ n + args.length
  · obtain ⟨o', hpushed, hextended, hsame⟩ := push_refused ho hkind hbounds hn hfull
    rw [hpushed, unshift_refused (by rwa [hlength])]
    refine ⟨iff_of_true rfl hfull, iff_of_true rfl hfull, fun _ => ⟨rfl, ?_, o', rfl, hextended⟩⟩
    constructor
    · -- What was stored shows in the length.
      intro heq
      have hobject : s.object? id = some o' := by
        rw [← Heap.object?_withObject ho o']
        exact congrArg (fun t : Heap => t.object? id) heq.symm
      cases ho.symm.trans hobject
      have hnone := Kind.array.inj (hkind.symm.trans hextended.kind)
      rw [List.length_take] at hnone
      omega
    · intro hlast
      rw [hsame hlast, Heap.withObject_self ho]
  · have hfits : n + args.length < lengthBound := Nat.not_le.mp hfull
    obtain ⟨v, t, hpushed⟩ := push_succeeds ho hkind hbounds hfits
    obtain ⟨w, t', hunshifted⟩ := unshift_succeeds ⟨o, n, ho, hkind⟩
      (show s.lengthOf (.object id) + args.length < lengthBound by rwa [hlength])
    rw [hpushed, hunshifted]
    have hok {v : Value} : (.ok v : Except Failure Value) ≠ .error .invalidArrayLength := fun h => by cases h
    exact ⟨iff_of_false hok hfull, iff_of_false hok hfull, fun h => absurd h hfull⟩

end Sequence

namespace Evaluator

open Sequence

/-- An array of holes is in bounds. -/
private theorem holes_inBounds (length : Nat) : ((Store.arrayOf []).resize length).InBounds :=
  Object.InBounds.resize (Object.InBounds.arrayOf []) length

/-- A full array refuses two values, and stays as it is. -/
theorem full_array_stays : ∃ e, HostedFairly [] e ∧ ∃ id,
    (method .push (.object id) [.null, .null] e.store.toHeap).1 = .error .invalidArrayLength ∧
      (method .push (.object id) [.null, .null] e.store.toHeap).2 = e.store.toHeap := by
  obtain ⟨e, he, id, ho, -⟩ :=
    (HostedFairly.realm {} none 0 1).exists_holes (Store.create_lacks_elements {} none 0 1) 4294967295
  obtain ⟨hpush, -, hfull⟩ := growing_past_bound ho rfl (holes_inBounds _) (by decide) [.null, .null]
  exact ⟨e, he, id, hpush.mpr (by decide), (hfull (by decide)).2.1.mpr (by decide)⟩

/-- An array with room for one value refuses two, and has the first one then. -/
theorem refused_values_stay_behind : ∃ e, HostedFairly [] e ∧ ∃ id,
    (method .push (.object id) [.null, .null] e.store.toHeap).1 = .error .invalidArrayLength ∧
      e.store.lengthAt? id = some 4294967294 ∧
        (method .push (.object id) [.null, .null] e.store.toHeap).2.lengthAt? id = some 4294967295 := by
  obtain ⟨e, he, id, ho, -⟩ :=
    (HostedFairly.realm {} none 0 1).exists_holes (Store.create_lacks_elements {} none 0 1) 4294967294
  obtain ⟨o', hpushed, hextended, -⟩ := push_refused ho rfl (holes_inBounds _) (by decide)
    (show lengthBound ≤ 4294967294 + [Value.null, Value.null].length by decide)
  have hrun : method .push (.object id) [.null, .null] e.store.toHeap = _ :=
    (bind_of_ok (refuseNullish_object _ id e.store.toHeap)).trans hpushed
  refine ⟨e, he, id, by rw [hrun], ?_, ?_⟩
  · rw [Heap.lengthAt?, ho]
    rfl
  · rw [hrun]
    show Heap.lengthAt? (e.store.toHeap.withObject id o') id = _
    rw [Heap.lengthAt?, Heap.object?_withObject ho o', Option.bind_some, Object.arrayLength?, hextended.kind]
    rfl

end Evaluator

end Stepwise
