/-
Writing, deleting, and reading afterwards.

Reads, writes and deletions are functions of their own.  Each of them looks at the keys that
an object answers by itself, the characters and the length of a string and the length of an
array, before it comes to the properties that are stored, and so it has to be shown that
they agree on them.  `Kind.answer?` tells what they have to agree on.

What was written is read again, unless the write had no effect.  An array takes its length
from the number that is written even if a host has stored a read-only property under that
name, which nobody can read.  What was deleted is not there any more, unless a string
answers it: a wrapper gives up what is stored under the name of its length, and says that
the length is gone.
-/
import Stepwise.Proofs.Chains
import Stepwise.Proofs.Hosting
import Stepwise.Proofs.Inventory
import Stepwise.Proofs.Lengths

namespace Stepwise

/-! ### What an object answers by itself -/

/-- The answer of an object of the kind, whatever is stored in it. -/
def Kind.answer? : Kind → Key → Option Value
  | .wrapper (.string text), key => Heap.stringProperty? text key
  | .array n, key => if key == .length then some (.ofNat n) else none
  | _, _ => none

/-- A scope answers nothing. -/
theorem Kind.answer?_scope (outer : Option ObjectId) (key : Key) : (Kind.scope outer).answer? key = none := rfl

/-- The keys that an object of the kind answers are those of a string, or the length of an array. -/
theorem Kind.answer?_isSome (kind : Kind) (key : Key) : (kind.answer? key).isSome = true ↔
    (∃ text, kind = .wrapper (.string text) ∧ Heap.stringOwns text key = true) ∨
      ∃ n, kind = .array n ∧ key = .length := by
  unfold answer?
  split
  · rw [Heap.stringProperty?_isSome]
    simp
  · by_cases hkey : key = .length <;> simp [hkey]
  · rename_i hstring harray
    simp only [Option.isSome_none, Bool.false_eq_true, false_iff, not_or, not_exists, not_and]
    exact ⟨fun text hkind => absurd hkind (hstring text), fun n hkind => absurd hkind (harray n)⟩

/-- No answer of an array depends on how long it is, but for the length. -/
theorem Object.answer?_kindWith (o : Object) (key : Key) :
    (o.kindWith key).answer? key = o.kind.answer? key := by
  unfold kindWith
  split
  · rename_i hkind
    rw [hkind]
    rfl
  · rfl

namespace Heap

variable {s : Heap} {id : ObjectId} {o : Object} {key : Key}

theorem stringData?_object (ho : s.object? id = some o) (text : String) :
    s.stringData? (.object id) = some text ↔ o.kind = .wrapper (.string text) := by
  unfold stringData?
  rcases o with ⟨parent, properties, kind⟩
  cases kind with
  | wrapper payload => cases payload <;> simp [ho]
  | _ => simp [ho]

theorem isArray_object (ho : s.object? id = some o) : s.isArray (.object id) = o.isArray := by
  unfold isArray objectOf?
  rw [Value.objectId?, Option.bind_some, ho]
  rfl

theorem ownAnswer?_object (ho : s.object? id = some o) (key : Key) :
    s.ownAnswer? (.object id) key = o.kind.answer? key := by
  have hobject : s.objectOf? (.object id) = some o := ho
  rcases o with ⟨parent, properties, kind⟩
  cases kind with
  | wrapper payload =>
      cases payload <;>
        simp [ownAnswer?, arrayProperty?, stringData?, hobject, ho, Object.arrayLength?, Kind.answer?]
  | _ => simp [ownAnswer?, arrayProperty?, stringData?, hobject, ho, Object.arrayLength?, Kind.answer?]

/-- The first object of its chain is the object itself. -/
theorem chain_object (s : Heap) (id : ObjectId) :
    s.chain (.object id) = id :: (s.chain (.object id)).tail := by
  show s.chainFrom s.walkFuel [] id = id :: (s.chainFrom s.walkFuel [] id).tail
  rw [walkFuel, chainFrom_succ, if_neg List.not_mem_nil, List.tail_cons]

theorem own?_of_object? (ho : s.object? id = some o) (key : Key) :
    s.own? id key = o.properties.get? key := by
  rw [own?, ho, Option.bind_some]

/-- What an object answers is read, whatever is stored. -/
theorem getProperty_of_answer {v : Value} (ho : s.object? id = some o)
    (hanswer : o.kind.answer? key = some v) : s.getProperty (.object id) key = .ok v := by
  rw [getProperty_eq rfl, ownAnswer?_object ho, hanswer, Option.getD_some]

/-- What an object owns is read, if the object does not answer the key by itself. -/
theorem getProperty_of_own {p : Property} (ho : s.object? id = some o)
    (hanswer : o.kind.answer? key = none) (hp : o.properties.get? key = some p) :
    s.getProperty (.object id) key = .ok p.value := by
  have hown : s.own? id key = some p := by rw [own?_of_object? ho, hp]
  rw [getProperty_eq rfl, ownAnswer?_object ho, hanswer, Option.getD_none, chain_object,
    List.findSome?_cons, hown, Option.elim_some]

/-- An object has a key that it answers, one that it owns, and one that comes later in its chain. -/
theorem hasOf_object_iff (ho : s.object? id = some o) (key : Key) :
    s.hasOf id key = true ↔ (o.kind.answer? key).isSome = true ∨
      (o.properties.get? key).isSome = true ∨
        ∃ j ∈ (s.chain (.object id)).tail, (s.own? j key).isSome = true := by
  rw [hasOf_iff, ownAnswer?_object ho, ← own?_of_object? ho]
  conv_lhs => rw [chain_object]
  simp only [List.mem_cons, exists_eq_or_imp]

/-- An object has what it owns. -/
theorem hasOf_of_own {p : Property} (hp : s.own? id key = some p) : s.hasOf id key = true := by
  rw [hasOf_iff, chain_object]
  exact .inr ⟨id, List.mem_cons_self, by rw [hp]; rfl⟩

end Heap

/-! ### Writing -/

namespace Object

variable {o : Object} {key key' : Key} {v : Value}

/-- A write under the key has no effect: the string in a wrapper answers it, or what is stored
there is read-only.  The length of an array is not stored. -/
def Ignores (o : Object) (key : Key) : Prop :=
  (∃ text, o.kind = .wrapper (.string text) ∧ Heap.stringOwns text key = true) ∨
    (∀ n, o.kind = .array n → key ≠ .length) ∧
      ∃ p, o.properties.get? key = some p ∧ p.readonly = true

/-- What a write under a key leaves of an object.  The other properties stay, but for those behind
the end of an array that is cut; the length of an array grows to hold an index. -/
structure WrittenAt (key : Key) (o o' : Object) : Prop where
  parent : o'.parent = o.parent
  kind : o'.kind = o.kind ∨ ∃ n m, o.kind = .array n ∧ o'.kind = .array m ∧
    (key = .length ∨ ∃ i, key = .index i ∧ n ≤ i ∧ m = i + 1)
  others : ∀ key', key' ≠ key → o'.properties.get? key' = o.properties.get? key' ∨
    ∃ n m i, o.kind = .array n ∧ o'.kind = .array m ∧ key = .length ∧ key' = .index i ∧
      m < n ∧ m ≤ i

theorem WrittenAt.refl (key : Key) (o : Object) : o.WrittenAt key o :=
  ⟨rfl, .inl rfl, fun _ _ => .inl rfl⟩

theorem put_of_readonly {p : Property} (hp : o.properties.get? key = some p)
    (hreadonly : p.readonly = true) (v : Value) : o.put key v = o := by
  unfold put
  simp [hp, hreadonly]

theorem put_of_writable {p : Property} (hp : o.properties.get? key = some p)
    (hwritable : p.readonly = false) (v : Value) :
    o.put key v = { o with properties := o.properties.insert key { p with value := v } } := by
  unfold put
  simp [hp, hwritable]

theorem put_of_none (hnone : o.properties.get? key = none) (v : Value) :
    o.put key v = o.add key (.plain v) := by
  unfold put
  simp [hnone]

theorem put_of_ne (hne : key' ≠ key) (v : Value) :
    (o.put key v).properties.get? key' = o.properties.get? key' := by
  unfold put
  split
  · split
    · rfl
    · exact (Properties.get?_insert ..).trans (if_neg hne.symm)
  · exact (Properties.get?_insert ..).trans (if_neg hne.symm)

/-- What is put is stored, where nothing read-only was. -/
theorem put_self (hwritable : ∀ p, o.properties.get? key = some p → p.readonly = false) (v : Value) :
    ∃ p, (o.put key v).properties.get? key = some p ∧ p.value = v := by
  have hinsert (q : Property) : (o.properties.insert key q).get? key = some q := by
    rw [Properties.get?_insert, if_pos rfl]
  cases hp : o.properties.get? key with
  | none =>
      rw [put_of_none hp]
      exact ⟨.plain v, hinsert _, rfl⟩
  | some p =>
      rw [put_of_writable hp (hwritable p hp)]
      exact ⟨{ p with value := v }, hinsert _, rfl⟩

/-- An object is of the kind it was, or an array that holds one more index. -/
theorem put_kind (o : Object) (key : Key) (v : Value) :
    (o.put key v).kind = o.kind ∨
      o.properties.get? key = none ∧ (o.put key v).kind = o.kindWith key := by
  unfold put
  split
  · split <;> exact .inl rfl
  · rename_i hnone
    exact .inr ⟨hnone, rfl⟩

theorem put_parent (o : Object) (key : Key) (v : Value) : (o.put key v).parent = o.parent := by
  unfold put
  split
  · split <;> rfl
  · rfl

theorem answer?_put (o : Object) (key : Key) (v : Value) :
    (o.put key v).kind.answer? key = o.kind.answer? key := by
  rcases o.put_kind key v with hkind | ⟨-, hkind⟩
  · rw [hkind]
  · rw [hkind, answer?_kindWith]

theorem put_writtenAt (o : Object) (key : Key) (v : Value) : o.WrittenAt key (o.put key v) where
  parent := o.put_parent key v
  others := fun key' hne => .inl (put_of_ne hne v)
  kind := by
    rcases o.put_kind key v with hkind | ⟨-, hkind⟩
    · exact .inl hkind
    rw [hkind]
    unfold kindWith
    split
    · rename_i n i harray
      by_cases hi : i < n
      · left
        rw [harray, Nat.max_eq_left hi]
      · exact .inr ⟨n, i + 1, harray, by rw [Nat.max_eq_right (by omega)], .inr ⟨i, rfl, by omega, rfl⟩⟩
    · exact .inl rfl

theorem resize_writtenAt {n : Nat} (hn : o.kind = .array n) (m : Nat) :
    o.WrittenAt .length (o.resize m) := by
  obtain ⟨parent, properties, kind⟩ := o
  obtain rfl : kind = .array n := hn
  refine ⟨rfl, .inr ⟨n, m, rfl, rfl, .inl rfl⟩, fun key' _ => ?_⟩
  show (if m < n then properties.truncate m else properties).get? key' = _ ∨ _
  by_cases hcut : m < n
  · rw [if_pos hcut]
    match key' with
    | .name _ => exact .inl rfl
    | .index i =>
        by_cases hi : i < m
        · left
          rw [Properties.get?_truncate_index, if_pos hi]
        · exact .inr ⟨n, m, i, rfl, rfl, rfl, rfl, hcut, by omega⟩
  · rw [if_neg hcut]
    exact .inl rfl

end Object

namespace Heap

variable {s : Heap} {id : ObjectId} {o : Object} {key : Key}

/-- A change that keeps the object that is there is none. -/
theorem change_of_eq (ho : s.object? id = some o) {f : Object → Object} (hf : f o = o) :
    s.change id f = s := by
  have hobjects : s.objects.modify id.index f = s.objects := by
    refine Array.ext_getElem? fun i => ?_
    rw [Array.getElem?_modify]
    by_cases hi : id.index = i
    · subst hi
      rw [if_pos rfl, show s.objects[id.index]? = some o from ho, Option.map_some, hf]
    · rw [if_neg hi]
  show ({ s with objects := s.objects.modify id.index f } : Heap) = s
  rw [hobjects]

/-- A key that is not the length of an array and not answered by a string is put. -/
theorem planWrite_of_not_answered (ho : s.object? id = some o) (hanswer : o.kind.answer? key = none)
    (v : Value) : s.planWrite (.object id) key v = .ok (.put id key v) := by
  have hnone : ¬(o.kind.answer? key).isSome = true := by simp [hanswer]
  obtain ⟨hstring, harray⟩ := not_or.mp (mt (o.kind.answer?_isSome key).mpr hnone)
  have hunowned : (s.stringData? (.object id)).any (fun text => stringOwns text key) = false := by
    rw [← Bool.not_eq_true, Option.any_eq_true]
    rintro ⟨text, htext, howns⟩
    exact hstring ⟨text, (stringData?_object ho text).mp htext, howns⟩
  have hlength : (key == .length && s.isArray (.object id)) = false := by
    rw [isArray_object ho, Bool.and_eq_false_imp]
    intro hkey
    have hkey : key = .length := beq_iff_eq.mp hkey
    unfold Object.isArray Object.arrayLength?
    split
    · rename_i n hkind
      exact absurd ⟨n, hkind, hkey⟩ harray
    · rfl
  simp only [planWrite, hunowned, hlength, Bool.false_eq_true, if_false]
  rfl

theorem planWrite_of_string (ho : s.object? id = some o) {text : String}
    (hkind : o.kind = .wrapper (.string text)) (howns : stringOwns text key = true) (v : Value) :
    s.planWrite (.object id) key v = .ok .ignored := by
  have hdata := (stringData?_object ho text).mpr hkind
  simp only [planWrite, hdata, Option.any_some, howns, if_true]
  rfl

end Heap

namespace Store

variable {s : Heap} {id : ObjectId} {o : Object} {key : Key} {target v : Value}

theorem setProperty_of_ok {write : Write} (h : s.planWrite target key v = .ok write) :
    setProperty target key v s = (.ok (), Heap.carryOut write s) := by
  unfold setProperty
  rw [bind_of_ok (show Edit.query _ s = (.ok write, s) by rw [Edit.query, h])]
  rfl

theorem setProperty_of_error {failure : Failure} (h : s.planWrite target key v = .error failure) :
    setProperty target key v s = (.error failure, s) := by
  unfold setProperty
  exact bind_of_error (show Edit.query _ s = (.error failure, s) by rw [Edit.query, h])

end Store

/-! ### Reading what was written -/

/-- What becomes of a heap when a value is written under a key of an object.  The write has no
effect, it sets the length of an array, or it puts a property that will be read. -/
inductive Heap.Wrote (s : Heap) (id : ObjectId) (o : Object) (key : Key) (v : Value) : Heap → Prop where
  | ignored (h : o.Ignores key) : Wrote s id o key v s
  | length {n m : Nat} (hkind : o.kind = .array n) (hkey : key = .length)
      (hm : Double.toIndex? (s.toNumber v) = some m) :
      Wrote s id o key v (s.change id fun o => o.resize m)
  | put (h : ¬o.Ignores key) (hanswer : o.kind.answer? key = none) :
      Wrote s id o key v (s.change id fun o => o.put key v)

namespace Heap.Wrote

variable {s s' : Heap} {id : ObjectId} {o : Object} {key : Key} {v : Value}

/-- The object is still there, and it has what is not written. -/
theorem exists_writtenAt (h : s.Wrote id o key v s') (ho : s.object? id = some o) :
    ∃ o', s'.object? id = some o' ∧ o.WrittenAt key o' := by
  cases h with
  | ignored _ => exact ⟨o, ho, .refl key o⟩
  | length hkind hkey _ => exact ⟨_, object?_change_self ho _, hkey ▸ o.resize_writtenAt hkind _⟩
  | put _ _ => exact ⟨_, object?_change_self ho _, o.put_writtenAt key v⟩

/-- The other objects are as they were. -/
theorem object?_of_ne (h : s.Wrote id o key v s') {j : ObjectId} (hne : j ≠ id) :
    s'.object? j = s.object? j := by
  cases h with
  | ignored _ => rfl
  | length _ _ _ => exact object?_change_of_ne hne _
  | put _ _ => exact object?_change_of_ne hne _

theorem eq_of_ignores (h : s.Wrote id o key v s') (hignores : o.Ignores key) : s' = s := by
  cases h with
  | ignored _ => rfl
  | length hkind hkey _ =>
      rcases hignores with ⟨text, hstring, -⟩ | ⟨hlength, -⟩
      · rw [hkind] at hstring
        cases hstring
      · exact absurd hkey (hlength _ hkind)
  | put h _ => exact absurd hignores h

/-- The length of an array is read as it was written. -/
theorem getProperty_length (h : s.Wrote id o key v s') (ho : s.object? id = some o) {n : Nat}
    (hkind : o.kind = .array n) (hkey : key = .length) :
    ∃ m, Double.toIndex? (s.toNumber v) = some m ∧
      s'.getProperty (.object id) key = .ok (.ofNat m) := by
  have hanswer (m : Nat) : Kind.answer? (.array m) key = some (.ofNat m) := by
    rw [hkey]
    rfl
  cases h with
  | ignored hignores =>
      rcases hignores with ⟨text, hstring, -⟩ | ⟨hlength, -⟩
      · rw [hkind] at hstring
        cases hstring
      · exact absurd hkey (hlength _ hkind)
  | @length _ m _ _ hm =>
      refine ⟨m, hm, getProperty_of_answer (object?_change_self ho _) ?_⟩
      have hresized : (o.resize m).kind = .array m := by
        unfold Object.resize
        rw [hkind]
      rw [hresized, hanswer]
  | put _ hnone =>
      rw [hkind, hanswer] at hnone
      cases hnone

/-- Any other property is read as it was written, unless the write has no effect. -/
theorem getProperty_self (h : s.Wrote id o key v s') (ho : s.object? id = some o)
    (hstored : ¬o.Ignores key) (hlength : ∀ n, o.kind = .array n → key ≠ .length) :
    s'.getProperty (.object id) key = .ok v := by
  cases h with
  | ignored hignores => exact absurd hignores hstored
  | length hkind hkey _ => exact absurd hkey (hlength _ hkind)
  | put _ hanswer =>
      have hwritable (p : Property) (hp : o.properties.get? key = some p) : p.readonly = false := by
        rw [← Bool.not_eq_true]
        exact fun hreadonly => hstored (.inr ⟨hlength, p, hp, hreadonly⟩)
      obtain ⟨p, hp, rfl⟩ := Object.put_self hwritable v
      exact getProperty_of_own (object?_change_self ho _) ((o.answer?_put key _).trans hanswer) hp

end Heap.Wrote

namespace Store

variable {s : Heap} {id : ObjectId} {o : Object}

/-- A write to an object is refused if it is for the length of an array and the value is none;
otherwise it succeeds. -/
theorem setProperty_object_cases (ho : s.object? id = some o) (key : Key) (v : Value) :
    (∃ n, o.kind = .array n ∧ key = .length ∧ Double.toIndex? (s.toNumber v) = none ∧
      setProperty (.object id) key v s = (.error .invalidArrayLength, s)) ∨
    ∃ s', setProperty (.object id) key v s = (.ok (), s') ∧ s.Wrote id o key v s' := by
  by_cases hanswer : (o.kind.answer? key).isSome = true
  · rcases (o.kind.answer?_isSome key).mp hanswer with ⟨text, hkind, howns⟩ | ⟨n, hkind, hkey⟩
    · have hplan := Heap.planWrite_of_string ho hkind howns v
      exact .inr ⟨s, setProperty_of_ok hplan, .ignored (.inl ⟨text, hkind, howns⟩)⟩
    · have hn : s.lengthAt? id = some n := by
        unfold Heap.lengthAt? Object.arrayLength?
        rw [ho, Option.bind_some, hkind]
      have hplan := Heap.planWrite_of_array hn key v
      rw [if_pos hkey] at hplan
      cases hm : Double.toIndex? (s.toNumber v) with
      | none =>
          rw [hm] at hplan
          exact .inl ⟨n, hkind, hkey, rfl, setProperty_of_error hplan⟩
      | some m =>
          rw [hm] at hplan
          exact .inr ⟨_, setProperty_of_ok hplan, .length hkind hkey hm⟩
  · have hnone : o.kind.answer? key = none := by simpa using hanswer
    have hplan := Heap.planWrite_of_not_answered ho hnone v
    refine .inr ⟨_, setProperty_of_ok hplan, ?_⟩
    by_cases hignores : o.Ignores key
    · -- What is read-only is put where it was.
      have hsame : o.put key v = o := by
        rcases hignores with ⟨text, hkind, howns⟩ | ⟨-, p, hp, hreadonly⟩
        · exact absurd ((o.kind.answer?_isSome key).mpr (.inl ⟨text, hkind, howns⟩)) hanswer
        · exact Object.put_of_readonly hp hreadonly v
      rw [show Heap.carryOut (.put id key v) s = s from Heap.change_of_eq ho hsame]
      exact .ignored hignores
    · exact .put hignores hnone

/-- **What was written is read again**, unless the write has no effect, and nothing else changes.

A write is refused for null and undefined, and for the length of an array if the value is none;
then the heap stays as it was.  So it does if the target is another primitive, if the string in
a wrapper answers the key, or if what is stored under the key is read-only.  Otherwise the value
is read again, and for the length of an array the number that it stands for.  The other
properties of the object stay, but for the elements behind the end of an array that is cut; and
so do all other objects. -/
theorem written_is_read (s : Heap) (target v : Value) (key : Key) :
    (target.isNullish = true → setProperty target key v s =
      (.error (.wrongType ("Cannot set property '" ++ key.toText ++ "' of " ++ target.toText)), s)) ∧
    (target.isNullish = false → target.isPrimitive = true →
      setProperty target key v s = (.ok (), s)) ∧
    ∀ id o, target = .object id → s.object? id = some o →
      (∃ n, o.kind = .array n ∧ key = .length ∧ Double.toIndex? (s.toNumber v) = none ∧
        setProperty target key v s = (.error .invalidArrayLength, s)) ∨
      ∃ s', setProperty target key v s = (.ok (), s') ∧
        (o.Ignores key → s' = s) ∧
        (∀ n, o.kind = .array n → key = .length → ∃ m, Double.toIndex? (s.toNumber v) = some m ∧
          s'.getProperty target key = .ok (.ofNat m)) ∧
        (¬o.Ignores key → (∀ n, o.kind = .array n → key ≠ .length) →
          s'.getProperty target key = .ok v) ∧
        (∃ o', s'.object? id = some o' ∧ o.WrittenAt key o') ∧
        ∀ j, j ≠ id → s'.object? j = s.object? j := by
  refine ⟨fun hnullish => ?_, fun hnullish hprimitive => ?_, ?_⟩
  · apply setProperty_of_error
    cases target <;> first | rfl | cases hnullish
  · refine setProperty_of_ok (show s.planWrite target key v = .ok .ignored from ?_)
    cases target <;> first | cases hnullish; done | cases hprimitive; done | rfl
  · rintro id o rfl ho
    rcases setProperty_object_cases ho key v with hrefused | ⟨s', hrun, hwrote⟩
    · exact .inl hrefused
    · exact .inr ⟨s', hrun, hwrote.eq_of_ignores, fun n => hwrote.getProperty_length ho,
        hwrote.getProperty_self ho, hwrote.exists_writtenAt ho, fun j => hwrote.object?_of_ne⟩

/-- A host may store a read-only property under the name of the length of an array. -/
private theorem exists_fixed_length {roots : List ObjectId} {e : Evaluator}
    (he : Evaluator.HostedFairly roots e) : ∃ e', Evaluator.HostedFairly roots e' ∧ ∃ id o p,
      e'.store.toHeap.object? id = some o ∧ o.kind = .array 1 ∧
        o.properties.get? .length = some p ∧ p.readonly = true := by
  obtain ⟨e₁, id, he₁, hnew⟩ :=
    he.exists_array (show ∀ v ∈ [Value.null], v.isPrimitive = true from List.forall_mem_singleton.mpr rfl)
  obtain ⟨e₂, he₂, hdefined, -⟩ := he₁.exists_defined hnew .length (p := ⟨.number 7, true, false⟩)
    (Heap.knows_of_isPrimitive rfl)
  exact ⟨e₂, he₂, id, _, _, hdefined, rfl, rfl, rfl⟩

/-- A write sets the length of an array even where a host has stored a read-only property under
its name. -/
theorem fixed_length_is_written_over : ∃ e, Evaluator.HostedFairly [] e ∧ ∃ id p s',
    e.store.toHeap.own? id .length = some p ∧ p.readonly = true ∧
      setProperty (.object id) .length (.number 0) e.store.toHeap = (.ok (), s') ∧
      s' ≠ e.store.toHeap := by
  obtain ⟨e, he, id, o, p, ho, hkind, hp, hreadonly⟩ := exists_fixed_length (.realm {} none 0 1)
  have hzero : Double.toIndex? (e.store.toHeap.toNumber (.number 0)) = some 0 := by
    show Double.toIndex? 0 = some 0
    decide
  refine ⟨e, he, id, p, ?_⟩
  rcases setProperty_object_cases ho .length (.number 0) with ⟨n, -, -, hnone, -⟩ | ⟨s', hrun, hwrote⟩
  · rw [hzero] at hnone
    cases hnone
  · refine ⟨s', (Heap.own?_of_object? ho _).trans hp, hreadonly, hrun, ?_⟩
    rintro rfl
    -- The length that is read is zero now, and was one.
    obtain ⟨m, hm, hread⟩ := hwrote.getProperty_length ho hkind rfl
    obtain rfl : 0 = m := Option.some.inj (hzero.symm.trans hm)
    have hone : e.store.toHeap.getProperty (.object id) .length = .ok (.ofNat 1) :=
      Heap.getProperty_of_answer ho (by rw [hkind]; rfl)
    have hsame : Float.ofNat 1 = Float.ofNat 0 :=
      Value.number.inj (Except.ok.inj (hone.symm.trans hread))
    have hindex : Double.toIndex? (Float.ofNat 1) = Double.toIndex? (Float.ofNat 0) := by rw [hsame]
    exact absurd hindex (by decide)

end Store

/-! ### Having what was deleted -/

/-- What can be deleted is an object that is there, and no array with its length. -/
theorem Heap.exists_of_canDelete {s : Heap} {target : Value} {key : Key}
    (h : s.canDelete target key = true) :
    ∃ id o, target = .object id ∧ s.object? id = some o ∧ ∀ n, o.kind = .array n → key ≠ .length := by
  unfold canDelete at h
  split at h
  · cases h
  · rename_i o hobject
    obtain ⟨id, hid, ho⟩ := Option.bind_eq_some_iff.mp hobject
    have htarget : target = .object id := by
      cases target <;> cases hid
      rfl
    refine ⟨id, o, htarget, ho, fun n hkind hkey => ?_⟩
    have harray : o.isArray = true := by
      unfold Object.isArray Object.arrayLength?
      rw [hkind]
      rfl
    rw [hkey, harray] at h
    cases h

namespace Store

theorem deleteProperty_of_canDelete {s : Heap} {id : ObjectId} {key : Key}
    (h : s.canDelete (.object id) key = true) :
    deleteProperty (.object id) key s = (.ok true, s.change id fun o => o.erase key) := by
  unfold deleteProperty
  rw [bind_of_ok (show Edit.ask _ s = (.ok true, s) by rw [Edit.ask, h])]
  rfl

theorem deleteProperty_of_not_canDelete {s : Heap} {target : Value} {key : Key}
    (h : s.canDelete target key = false) : deleteProperty target key s = (.ok false, s) := by
  unfold deleteProperty
  rw [bind_of_ok (show Edit.ask _ s = (.ok false, s) by rw [Edit.ask, h])]
  rfl

/-- **What was deleted is gone**, if no string answers it, and nothing else changes.

A deletion never fails.  If it says no, the heap stays as it was.  If it says yes, the object does
not own the key any more: it has it only if the string in a wrapper answers the key, or if an
object that comes later in the chain owns it.  The parent and the kind of the object stay, and
its other properties, and all other objects. -/
theorem deleted_is_gone (s : Heap) (target : Value) (key : Key) :
    ∃ gone s', deleteProperty target key s = (.ok gone, s') ∧
      (gone = false → s' = s) ∧
      (gone = true → ∃ id o o', target = .object id ∧ s.object? id = some o ∧
        s'.object? id = some o' ∧ o'.parent = o.parent ∧ o'.kind = o.kind ∧
        (∀ key', o'.properties.get? key' = if key = key' then none else o.properties.get? key') ∧
        (∀ j, j ≠ id → s'.object? j = s.object? j) ∧
        (s'.hasProperty target key = .ok true ↔
          (∃ text, o.kind = .wrapper (.string text) ∧ Heap.stringOwns text key = true) ∨
            ∃ j ∈ (s'.chain target).tail, (s'.own? j key).isSome = true)) := by
  by_cases hcan : s.canDelete target key = true
  · obtain ⟨id, o, rfl, ho, hlength⟩ := Heap.exists_of_canDelete hcan
    have ho' := Heap.object?_change_self ho fun o => o.erase key
    refine ⟨true, _, deleteProperty_of_canDelete hcan, fun h => absurd h (by decide), fun _ => ⟨id, o,
      o.erase key, rfl, ho, ho', rfl, rfl, Properties.get?_erase _ _,
      fun j hne => Heap.object?_change_of_ne hne _, ?_⟩⟩
    have herased : ((o.erase key).properties.get? key).isSome = false := by
      rw [Object.erase, Properties.get?_erase, if_pos rfl]
      rfl
    have hanswer : (o.kind.answer? key).isSome = true ↔
        ∃ text, o.kind = .wrapper (.string text) ∧ Heap.stringOwns text key = true := by
      rw [Kind.answer?_isSome]
      refine or_iff_left ?_
      rintro ⟨n, hkind, hkey⟩
      exact hlength n hkind hkey
    have hhas : ∀ t : Heap, t.hasProperty (.object id) key = .ok true ↔ t.hasOf id key = true :=
      fun t => ⟨Except.ok.inj, congrArg Except.ok⟩
    rw [hhas, Heap.hasOf_object_iff ho', herased, show (o.erase key).kind = o.kind from rfl, hanswer]
    simp
  · have hcan : s.canDelete target key = false := by simpa using hcan
    exact ⟨false, s, deleteProperty_of_not_canDelete hcan, fun _ => rfl, fun h => absurd h (by decide)⟩

/-- A library function makes a wrapper of a string, and stores nothing under any key. -/
private theorem exists_wrapper {roots : List ObjectId} {e : Evaluator}
    (he : Evaluator.HostedFairly roots e) {key : Key}
    (hfree : e.store.toHeap.Every fun o => o.properties.get? key = none) (text : String) :
    ∃ e', Evaluator.HostedFairly roots e' ∧ ∃ id o, e'.store.toHeap.object? id = some o ∧
      o.kind = .wrapper (.string text) ∧
        e'.store.toHeap.Every fun o => o.properties.get? key = none := by
  obtain ⟨e', id, o, he', ho, hkind, hempty, hother⟩ :=
    he.exists_wrapper rfl
      (show Wrapping.object .undefined [.string text] = Wrapping.wrap Intrinsic.string (.string text) from rfl)
  refine ⟨e', he', id, o, ho, hkind, fun j x hx => ?_⟩
  by_cases hj : j = id
  · subst hj
    cases ho.symm.trans hx
    exact hempty key
  · rw [hother j hj] at hx
    exact hfree j x hx

/-- A character of a wrapper is deleted, and it is still there, though nothing is stored under its
index anywhere. -/
theorem deleted_character_is_still_there : ∃ e, Evaluator.HostedFairly [] e ∧ ∃ id s',
    deleteProperty (.object id) (.index 0) e.store.toHeap = (.ok true, s') ∧
      s'.hasProperty (.object id) (.index 0) = .ok true ∧ ∀ j, s'.own? j (.index 0) = none := by
  have hfree : (create {} none 0 1).toHeap.Every fun o => o.properties.get? (.index 0) = none := by
    intro id o ho
    rw [Option.eq_none_iff_forall_ne_some]
    intro p hp
    obtain ⟨name, hkey, hname, -⟩ := create_stocked {} none 0 1 id o ho _ p hp
    exact Library.ofText_ne_index hname 0 hkey.symm
  obtain ⟨e, he, id, o, ho, hkind, hfree⟩ := exists_wrapper (.realm {} none 0 1) hfree "a"
  have hcan : e.store.toHeap.canDelete (.object id) (.index 0) = true := by
    have hobject : e.store.toHeap.objectOf? (.object id) = some o := ho
    have hnone : o.properties.get? (.index 0) = none := hfree id o ho
    unfold Heap.canDelete
    rw [hobject]
    simp [hnone, show Key.index 0 ≠ Key.length by decide]
  have hfree' := Heap.Every.change hfree id (f := fun o => o.erase (.index 0)) fun o ho => by
    rw [Object.erase, Properties.get?_erase, if_pos rfl]
  refine ⟨e, he, id, _, deleteProperty_of_canDelete hcan, congrArg Except.ok ?_, fun j => ?_⟩
  · rw [Heap.hasOf_object_iff (Heap.object?_change_self ho _)]
    exact .inl ((Kind.answer?_isSome _ _).mpr (.inl ⟨"a", hkind, by decide⟩))
  · rw [Heap.own?, Option.bind_eq_none_iff]
    exact hfree' j

end Store

end Stepwise
