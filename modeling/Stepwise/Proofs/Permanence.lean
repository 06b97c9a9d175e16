/-
What is fixed stays fixed.

No object goes away, and a place once taken is never given to another object.  The parent
of an object does not change, nor does the scope around a scope, nor what a function does
when called.  And a property that is read-only stays as it is, with one exception: an
element of an array is gone when the length has been set to its index or below.

Each move keeps to this on its own, so it only has to be said once for all that scripts,
library functions and hosts do.  The exception asks for more care.  The length that cut
the element off can be told from the heap only as long as nothing is stored behind it
again; that is why it matters that an edit sets a length last.
-/
import Stepwise.Proofs.History

namespace Stepwise

/-! ### Objects -/

/-- What is fixed about an object is as it was, but for read-only properties under lost keys. -/
structure Object.Keeps (lost : Key → Prop) (o o' : Object) : Prop where
  parent : o'.parent = o.parent
  scope : ∀ outer, o.kind = .scope outer → o'.kind = .scope outer
  function : ∀ f, o.kind = .function f → o'.kind = .function f
  readonly : ∀ key p, o.properties.get? key = some p → p.readonly = true →
    o'.properties.get? key = some p ∨ lost key

/-- The object is an array, and the key an index that does not lie within it. -/
def Object.IsTooShort (o : Object) (key : Key) : Prop :=
  ∃ i n, o.kind = .array n ∧ key = .index i ∧ n ≤ i

namespace Object

variable {lost lost' : Key → Prop} {o o' o'' : Object} {key : Key}

namespace Keeps

theorem refl (lost : Key → Prop) (o : Object) : o.Keeps lost o :=
  ⟨rfl, fun _ h => h, fun _ h => h, fun _ _ h _ => .inl h⟩

theorem mono (h : o.Keeps lost o') (hlost : ∀ key, lost key → lost' key) : o.Keeps lost' o' :=
  ⟨h.parent, h.scope, h.function, fun key p hp hr => (h.readonly key p hp hr).imp_right (hlost key)⟩

theorem trans (h : o.Keeps lost o') (h' : o'.Keeps lost' o'') :
    o.Keeps (fun key => lost key ∨ lost' key) o'' where
  parent := h'.parent.trans h.parent
  scope := fun outer hkind => h'.scope outer (h.scope outer hkind)
  function := fun f hkind => h'.function f (h.function f hkind)
  readonly := fun key p hp hr => by
    rcases h.readonly key p hp hr with hp' | hlost
    · exact (h'.readonly key p hp' hr).imp_right .inr
    · exact .inr (.inl hlost)

/-- Only an array changes its kind when a property is added. -/
theorem kindWith (o : Object) (key : Key) :
    (∀ outer, o.kind = .scope outer → o.kindWith key = .scope outer) ∧
      ∀ f, o.kind = .function f → o.kindWith key = .function f := by
  rcases o with ⟨parent, properties, kind⟩
  refine ⟨fun outer h => ?_, fun f h => ?_⟩
  · obtain rfl : kind = .scope outer := h
    rfl
  · obtain rfl : kind = .function f := h
    rfl

/-- A property stored where there is none that is read-only. -/
theorem insert (p : Property) {kind : Kind}
    (hfree : ∀ q, o.properties.get? key = some q → q.readonly = false)
    (hscope : ∀ outer, o.kind = .scope outer → kind = .scope outer)
    (hfunction : ∀ f, o.kind = .function f → kind = .function f) :
    o.Keeps lost { o with properties := o.properties.insert key p, kind } := by
  refine ⟨rfl, hscope, hfunction, fun key' q hq hreadonly => .inl ?_⟩
  show (o.properties.insert key p).get? key' = some q
  rw [Properties.get?_insert]
  split
  · rename_i heq
    rw [hfree q (by rw [heq]; exact hq)] at hreadonly
    cases hreadonly
  · exact hq

theorem add (p : Property) (hnone : o.properties.get? key = none) : o.Keeps lost (o.add key p) := by
  refine insert p (fun q hq => ?_) (kindWith o key).1 (kindWith o key).2
  rw [hnone] at hq
  cases hq

theorem put (o : Object) (key : Key) (v : Value) : o.Keeps lost (o.put key v) := by
  unfold Object.put
  split
  · rename_i p hp
    split
    · exact .refl lost o
    · rename_i hwritable
      refine insert _ (fun q hq => ?_) (fun _ h => h) fun _ h => h
      rw [hp] at hq
      cases hq
      exact Bool.eq_false_iff.mpr hwritable
  · exact add _ ‹_›

theorem define (o : Object) (key : Key) (p : Property) : o.Keeps lost (o.define key p) := by
  unfold Object.define
  split
  · rename_i old hold
    dsimp only
    split
    · exact .refl lost o
    · rename_i hwritable
      refine insert _ (fun q hq => ?_) (fun _ h => h) fun _ h => h
      rw [hold] at hq
      cases hq
      exact Bool.eq_false_iff.mpr hwritable
  · exact add _ ‹_›

theorem erase (h : ∀ p, o.properties.get? key = some p → p.readonly = false) :
    o.Keeps lost (o.erase key) := by
  refine ⟨rfl, fun _ h => h, fun _ h => h, fun key' p hp hreadonly => .inl ?_⟩
  show (o.properties.erase key).get? key' = some p
  rw [Properties.get?_erase]
  split
  · rename_i heq
    rw [h p (by rw [heq]; exact hp)] at hreadonly
    cases hreadonly
  · exact hp

/-- A length that is set takes the elements behind it. -/
theorem resize (o : Object) (length : Nat) : o.Keeps (o.resize length).IsTooShort (o.resize length) := by
  rcases o with ⟨parent, properties, kind⟩
  cases kind with
  | array n =>
      refine ⟨rfl, nofun, nofun, fun key p hp hreadonly => ?_⟩
      by_cases hkept : ∃ i, key = .index i ∧ length ≤ i
      · obtain ⟨i, rfl, hi⟩ := hkept
        exact .inr ⟨i, length, rfl, rfl, hi⟩
      · refine .inl ?_
        show (if length < n then properties.truncate length else properties).get? key = some p
        split
        · cases key with
          | index i =>
              have hi : i < length := Nat.lt_of_not_le fun hi => hkept ⟨i, rfl, hi⟩
              rw [Properties.get?_truncate_index, if_pos hi]
              exact hp
          | name s => exact hp
        · exact hp
  | _ => exact .refl _ _

theorem withKind (h : o.kind.isConvertible = true) (kind : Kind) : o.Keeps lost { o with kind } := by
  refine ⟨rfl, fun outer hkind => ?_, fun f hkind => ?_, fun _ _ hp _ => .inl hp⟩
  · rw [hkind] at h
    cases h
  · rw [hkind] at h
    cases h

/-- No move loses anything of an object, unless it sets a length. -/
theorem admits (lost : Key → Prop) : Object.Admits (Object.Keeps lost) where
  refl := refl lost
  define := define
  put := put
  erase _ _ h := erase h
  withKind _ kind h _ := withKind h kind

end Keeps

end Object

/-! ### Heaps -/

namespace Heap

/-- What is fixed in a heap is as it was, but for read-only properties that are lost. -/
def Keeps (lost : ObjectId → Key → Prop) : Heap → Heap → Prop :=
  Objectwise fun id => Object.Keeps (lost id)

/-- At the place there is an array, and the key is an index that does not lie within it. -/
def IsTooShort (s : Heap) (id : ObjectId) (key : Key) : Prop :=
  ∃ o, s.object? id = some o ∧ o.IsTooShort key

variable {lost lost' : ObjectId → Key → Prop} {s s' s'' : Heap}

namespace Keeps

theorem refl (lost : ObjectId → Key → Prop) (s : Heap) : s.Keeps lost s :=
  fun _ o ho => ⟨o, ho, .refl _ o⟩

theorem mono (h : s.Keeps lost s') (hlost : ∀ id key, lost id key → lost' id key) :
    s.Keeps lost' s' := by
  intro id o ho
  obtain ⟨o', ho', hkeeps⟩ := h id o ho
  exact ⟨o', ho', hkeeps.mono (hlost id)⟩

theorem trans (h : s.Keeps lost s') (h' : s'.Keeps lost' s'') :
    s.Keeps (fun id key => lost id key ∨ lost' id key) s'' := by
  intro id o ho
  obtain ⟨o', ho', hkeeps⟩ := h id o ho
  obtain ⟨o'', ho'', hkeeps'⟩ := h' id o' ho'
  exact ⟨o'', ho'', hkeeps.trans hkeeps'⟩

end Keeps

variable {l : Licence}

/-- No move but the setting of a length loses anything. -/
theorem Move.keeps (h : Move l.firm s s') : s.Keeps lost s' :=
  .of_move (fun id => Object.Keeps.admits (lost id)) h

theorem Moves.keeps_all (h : Moves l.firm s s') : s.Keeps (fun _ _ => False) s' := by
  induction h with
  | refl => exact .refl _ s
  | tail _ hlast ih =>
      exact (ih.trans hlast.keeps).mono fun _ _ h => h.elim id id

theorem Cut.keeps (h : s.Cut s') : s.Keeps s'.IsTooShort s' := by
  obtain ⟨id, length, rfl⟩ := h
  intro id' o ho
  by_cases hid : id' = id
  · subst hid
    have ho' : (s.change id' fun o => o.resize length).object? id' = some (o.resize length) := by
      rw [object?_change, if_pos rfl, ho]
      rfl
    exact ⟨_, ho', (Object.Keeps.resize o length).mono fun key h => ⟨_, ho', h⟩⟩
  · refine ⟨o, ?_, .refl _ o⟩
    rw [object?_change, if_neg hid, ho]

/-- **What moves that set a length last lose lies behind that length.** -/
theorem MovesThenCut.keeps (h : s.MovesThenCut l s') : s.Keeps s'.IsTooShort s' := by
  obtain ⟨t, u, hfirm, hcut, hadded⟩ := h
  have hlast : t.Keeps u.IsTooShort u := by
    cases hcut with
    | refl => exact .refl _ t
    | single hcut => exact hcut.keeps
  have hboth : s.Keeps u.IsTooShort u :=
    (hfirm.keeps_all.trans hlast).mono fun _ _ h => h.elim False.elim fun h => h
  intro id o ho
  obtain ⟨o', ho', hkeeps⟩ := hboth id o ho
  refine ⟨o', hadded.object? ho', hkeeps.mono fun key ⟨o'', ho'', hshort⟩ => ?_⟩
  exact ⟨o'', hadded.object? ho'', hshort⟩

theorem Changes.keeps (h : s.Changes l s') : s.Keeps s'.IsTooShort s' := by
  rcases h with h | ⟨reader, rfl⟩
  · exact h.keeps
  · exact .of_objects_eq (fun _ => .refl _) rfl

end Heap

/-! ### Histories -/

namespace Evaluator

/-- From one heap of a list to a later one, all is kept that is not lost in between. -/
theorem keeps_of_isChain {heaps : List Heap}
    (hchain : heaps.IsChain fun s s' => s.Keeps s'.IsTooShort s') {i : Nat} {s : Heap}
    (hs : heaps[i]? = some s) :
    ∀ (d : Nat) (t : Heap), heaps[i + d]? = some t →
      s.Keeps (fun id key => ∃ k u, i < k ∧ k ≤ i + d ∧ heaps[k]? = some u ∧ u.IsTooShort id key) t := by
  intro d
  induction d with
  | zero =>
      intro t ht
      rw [Nat.add_zero, hs] at ht
      cases ht
      exact .refl _ s
  | succ d ih =>
      intro t ht
      obtain ⟨hlt, hget⟩ := List.getElem?_eq_some_iff.mp ht
      have hbefore : heaps[i + d]? = some heaps[i + d] := List.getElem?_eq_getElem (by omega)
      have hstep : heaps[i + d].Keeps t.IsTooShort t := by
        have hnext := List.isChain_iff_getElem.mp hchain (i + d) (by omega)
        rw [← hget]
        exact hnext
      refine ((ih _ hbefore).trans hstep).mono fun id key hlost => ?_
      rcases hlost with ⟨k, u, hik, hkd, hu, hshort⟩ | hshort
      · exact ⟨k, u, hik, by omega, hu, hshort⟩
      · exact ⟨i + (d + 1), t, by omega, Nat.le_refl _, ht, hshort⟩

/-- **What is fixed stays fixed**, from one heap that there is to see to any later one.  Objects
stay, with their parents, the scopes around them and what they do when called.  A read-only
property stays with its value and its flags, unless it is an element of an array whose length is
at or below its index in some heap in between.  And a new object takes a place that no object had
before. -/
theorem fixed_stays_fixed (e : Evaluator) (events : List Event) {i j : Nat} (hij : i ≤ j)
    {s t : Heap} (hs : (e.heaps events)[i]? = some s) (ht : (e.heaps events)[j]? = some t) :
    s.Keeps (fun id key => ∃ k u, i < k ∧ k ≤ j ∧ (e.heaps events)[k]? = some u ∧
        u.IsTooShort id key) t ∧
      ∀ o id, (Store.alloc o t).1 = .ok id → s.object? id = none := by
  have hchain : (e.heaps events).IsChain fun s s' => s.Keeps s'.IsTooShort s' := by
    have hchanges := heaps_isChain (l := .of fun _ => True) (fun _ => trivial) events
      (fun event _ => event.keyedBy_any) e fun f _ => f.keyedBy_any
    exact hchanges.imp fun _ _ h => h.keeps
  obtain ⟨d, rfl⟩ := Nat.exists_eq_add_of_le hij
  have hkeeps := keeps_of_isChain hchain hs d t ht
  refine ⟨hkeeps, fun o id hid => ?_⟩
  cases hold : s.object? id with
  | none => rfl
  | some old =>
      obtain ⟨o', ho', -⟩ := hkeeps id old hold
      obtain rfl : (⟨t.objects.size⟩ : ObjectId) = id := Except.ok.inj hid
      have hnone : t.object? ⟨t.objects.size⟩ = none := Array.getElem?_eq_none (Nat.le_refl _)
      rw [hnone] at ho'
      cases ho'

/-- A read-only variable is neither deleted nor assigned to. -/
theorem fixed_stays_fixed_variable :
    let p : Property := ⟨.boolean true, true, false⟩
    let scope : Object := (Object.new none (.scope none)).define (.name "x") p
    let e : Evaluator := ⟨.holding #[scope], .idle⟩
    let events : List Event :=
      [.operate (.delete (.object ⟨0⟩) (.name "x")), .operate (.assign ⟨0⟩ "x" .null)]
    ∃ t o, (e.heaps events)[2]? = some t ∧ t.object? ⟨0⟩ = some o ∧ o.kind = .scope none ∧
      o.properties.get? (.name "x") = some p := by
  intro p scope e events
  let t : Heap := (e.handle (.operate (.delete (.object ⟨0⟩) (.name "x")))).handle
    (.operate (.assign ⟨0⟩ "x" .null)) |>.store.toHeap
  have ht : (e.heaps events)[2]? = some t := rfl
  obtain ⟨hkeeps, -⟩ := e.fixed_stays_fixed events (Nat.zero_le 2) (s := e.store.toHeap) rfl ht
  obtain ⟨o, ho, hobject⟩ := hkeeps ⟨0⟩ scope rfl
  refine ⟨t, o, ht, ho, hobject.scope none rfl, ?_⟩
  rcases hobject.readonly (.name "x") p rfl rfl with hx | ⟨_, _, _, _, _, _, _, _, _, _, hkey, _⟩
  · exact hx
  · cases hkey

end Evaluator

end Stepwise
