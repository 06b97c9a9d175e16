/-
What holds an arena together.

Objects refer to one another by their places, and nobody looks whether there is an object at
a place: a read from where there is none gives nothing, and a write there does nothing.  An
intact heap gives no occasion for that.  Every reference in it leads to an object, a
function of a script closes over a scope, a wrapper holds a primitive, and a scope is
younger than the scope around it, so that there is no ring of scopes.

Scopes have no scope around them only if they are the global one, or among the `roots` that
the host has made so.

A heap grows: objects stay where they are, and scopes stay in the scopes they were made in.
What is known of a heap is still known when it has grown, and so what an intact heap says of
itself can be carried along.
-/
import Mathlib.Logic.Relation
import Stepwise.Proofs.Moves
import Stepwise.Store.Operate

namespace Stepwise

theorem ObjectId.eq_of_index {a b : ObjectId} (h : a.index = b.index) : a = b := by
  cases a
  cases b
  cases h
  rfl

/-! ### Known values -/

/-- The link of a scope to the one around it. -/
def Kind.link? : Kind → Option (Option ObjectId)
  | .scope outer => some outer
  | _ => none

namespace Heap

/-- There is an object at the place. -/
def Has (s : Heap) (id : ObjectId) : Prop := id.index < s.objects.size

/-- The value is a primitive, or an object of the heap. -/
def Knows (s : Heap) (v : Value) : Prop := ∀ id, v = .object id → s.Has id

/-- The link of the scope at a place to the one around it. -/
def link? (s : Heap) (id : ObjectId) : Option (Option ObjectId) :=
  (s.object? id).bind fun o => o.kind.link?

/-- There is a scope at the place. -/
def IsScope (s : Heap) (id : ObjectId) : Prop := ∃ outer, s.link? id = some outer

/-- A later heap: objects stay, and scopes stay where they are. -/
structure Grows (s s' : Heap) : Prop where
  size : s.objects.size ≤ s'.objects.size
  link : ∀ id outer, s.link? id = some outer → s'.link? id = some outer

variable {s s' s'' : Heap} {id : ObjectId} {v : Value}

theorem has_of_object? {o : Object} (h : s.object? id = some o) : s.Has id :=
  (Array.getElem?_eq_some_iff.mp h).1

theorem knows_object : s.Knows (.object id) ↔ s.Has id := by
  constructor
  · intro h
    exact h id rfl
  · intro h id' heq
    cases heq
    exact h

/-- Primitives refer to nothing. -/
theorem knows_of_isPrimitive (h : v.isPrimitive = true) : s.Knows v := by
  intro id heq
  rw [heq] at h
  cases h

theorem IsScope.has (h : s.IsScope id) : s.Has id := by
  obtain ⟨outer, hlink⟩ := h
  obtain ⟨o, ho, -⟩ := Option.bind_eq_some_iff.mp hlink
  exact has_of_object? ho

namespace Grows

theorem refl (s : Heap) : s.Grows s := ⟨Nat.le_refl _, fun _ _ h => h⟩

theorem trans (h : s.Grows s') (h' : s'.Grows s'') : s.Grows s'' where
  size := Nat.le_trans h.size h'.size
  link := fun id outer hlink => h'.link id outer (h.link id outer hlink)

theorem has (h : s.Grows s') (hid : s.Has id) : s'.Has id := Nat.lt_of_lt_of_le hid h.size

theorem knows (h : s.Grows s') (hv : s.Knows v) : s'.Knows v := fun id heq => h.has (hv id heq)

theorem isScope (h : s.Grows s') (hid : s.IsScope id) : s'.IsScope id := by
  obtain ⟨outer, hlink⟩ := hid
  exact ⟨outer, h.link id outer hlink⟩

end Grows

end Heap

/-! ### Properties -/

/-- Every value in the properties is of a kind. -/
structure Properties.All (P : Value → Prop) (ps : Properties) : Prop where
  elements : ∀ (i : Nat) p, ps.elements[i]? = some p → P p.value
  named : ∀ q ∈ ps.named, P q.2.value

namespace Properties.All

variable {P Q : Value → Prop} {ps : Properties}

theorem empty : Properties.All P .empty where
  elements := fun i p h => by
    rw [Properties.empty, Std.TreeMap.getElem?_emptyc] at h
    cases h
  named := fun q h => by cases h

theorem mono (h : ps.All P) (hPQ : ∀ v, P v → Q v) : ps.All Q where
  elements := fun i p hp => hPQ _ (h.elements i p hp)
  named := fun q hq => hPQ _ (h.named q hq)

theorem get? (h : ps.All P) {key : Key} {p : Property} (hp : ps.get? key = some p) : P p.value := by
  cases key with
  | index i => exact h.elements i p hp
  | name s =>
      obtain ⟨before, after, heq, -⟩ := List.lookup_eq_some_iff.mp hp
      refine h.named (s, p) ?_
      rw [heq]
      exact List.mem_append_right _ (List.mem_cons_self ..)

private theorem insertNamed {named : List (String × Property)} (h : ∀ q ∈ named, P q.2.value)
    (s : String) {p : Property} (hp : P p.value) :
    ∀ q ∈ Properties.insertNamed s p named, P q.2.value := by
  induction named with
  | nil =>
      intro q hq
      rw [List.mem_singleton.mp hq]
      exact hp
  | cons first rest ih =>
      obtain ⟨hfirst, hrest⟩ := List.forall_mem_cons.mp h
      intro q hq
      unfold Properties.insertNamed at hq
      split at hq
      · rcases List.mem_cons.mp hq with rfl | hq
        · exact hp
        · exact hrest q hq
      · rcases List.mem_cons.mp hq with rfl | hq
        · exact hfirst
        · exact ih hrest q hq

theorem insert (h : ps.All P) (key : Key) {p : Property} (hp : P p.value) :
    (ps.insert key p).All P := by
  cases key with
  | index i =>
      refine ⟨fun j q hq => ?_, h.named⟩
      have hget : (ps.elements.insert i p)[j]? = some q := hq
      rw [Std.TreeMap.getElem?_insert] at hget
      split at hget
      · cases hget
        exact hp
      · exact h.elements j q hget
  | name s => exact ⟨h.elements, insertNamed h.named s hp⟩

theorem erase (h : ps.All P) (key : Key) : (ps.erase key).All P := by
  cases key with
  | index i =>
      refine ⟨fun j q hq => ?_, h.named⟩
      have hget : (ps.elements.erase i)[j]? = some q := hq
      rw [Std.TreeMap.getElem?_erase] at hget
      split at hget
      · cases hget
      · exact h.elements j q hget
  | name s => exact ⟨h.elements, fun q hq => h.named q (List.mem_filter.mp hq).1⟩

theorem truncate (h : ps.All P) (n : Nat) : (ps.truncate n).All P := by
  refine ⟨fun j q hq => ?_, h.named⟩
  have hget : (ps.elements.filter fun i _ => decide (i < n))[j]? = some q := hq
  rw [Std.TreeMap.getElem?_filter] at hget
  obtain ⟨hsome, -⟩ := Option.pfilter_eq_some_iff.mp hget
  exact h.elements j q hsome

end Properties.All

/-! ### Intact objects -/

/-- A kind that is in order at a place. -/
def Kind.IsIntact (roots : List ObjectId) (s : Heap) (id : ObjectId) : Kind → Prop
  | .function (.script _ closure) => s.IsScope closure
  | .scope none => id = Intrinsic.globalScope ∨ id ∈ roots
  | .scope (some outer) => s.IsScope outer ∧ outer.index < id.index
  | .wrapper payload => payload.isPrimitive = true
  | _ => True

/-- An object that is in order at a place. -/
structure Object.IsIntact (roots : List ObjectId) (s : Heap) (id : ObjectId) (o : Object) : Prop where
  parent : ∀ p, o.parent = some p → s.Has p
  properties : o.properties.All s.Knows
  kind : o.kind.IsIntact roots s id

/-- A heap in which every reference leads to where it should. -/
structure Heap.Intact (roots : List ObjectId) (s : Heap) : Prop where
  objects : ∀ id o, s.object? id = some o → o.IsIntact roots s id
  /-- The objects at the fixed places are there. -/
  fixed : 15 ≤ s.objects.size
  globalScope : s.IsScope Intrinsic.globalScope

variable {roots : List ObjectId}

theorem Kind.IsIntact.mono {s s' : Heap} {id : ObjectId} {kind : Kind} (h : kind.IsIntact roots s id)
    (hgrows : s.Grows s') : kind.IsIntact roots s' id := by
  cases kind with
  | function f =>
      cases f with
      | script code closure => exact hgrows.isScope h
      | _ => trivial
  | scope outer =>
      cases outer with
      | none => exact h
      | some outer => exact ⟨hgrows.isScope h.1, h.2⟩
  | wrapper payload => exact h
  | _ => trivial

/-- It does no harm to count more scopes among the roots. -/
theorem Kind.IsIntact.moreRoots {roots' : List ObjectId} {s : Heap} {id : ObjectId} {kind : Kind}
    (h : kind.IsIntact roots s id) (hroots : roots ⊆ roots') : kind.IsIntact roots' s id := by
  cases kind with
  | function callable => cases callable <;> exact h
  | scope outer =>
      cases outer with
      | none => exact h.imp_right fun hroot => hroots hroot
      | some outer => exact h
  | _ => exact h

theorem Heap.Intact.moreRoots {roots' : List ObjectId} {s : Heap} (hs : s.Intact roots)
    (hroots : roots ⊆ roots') : s.Intact roots' where
  fixed := hs.fixed
  globalScope := hs.globalScope
  objects := fun id o ho =>
    have hobject := hs.objects id o ho
    ⟨hobject.parent, hobject.properties, hobject.kind.moreRoots hroots⟩

namespace Object.IsIntact

variable {s s' : Heap} {id : ObjectId} {o : Object}

theorem mono (h : o.IsIntact roots s id) (hgrows : s.Grows s') : o.IsIntact roots s' id where
  parent := fun p hp => hgrows.has (h.parent p hp)
  properties := h.properties.mono fun _ hv => hgrows.knows hv
  kind := h.kind.mono hgrows

/-- A new object of a known parent. -/
theorem new {parent : Option ObjectId} {kind : Kind} (hparent : ∀ p, parent = some p → s.Has p)
    (hkind : kind.IsIntact roots s id) : (Object.new parent kind).IsIntact roots s id :=
  ⟨hparent, .empty, hkind⟩

/-- An array of another length is as much in order. -/
theorem kindWith (h : o.IsIntact roots s id) (key : Key) : (o.kindWith key).IsIntact roots s id := by
  have hkind := h.kind
  unfold Object.kindWith
  split
  · trivial
  · exact hkind

theorem add (h : o.IsIntact roots s id) (key : Key) {p : Property} (hp : s.Knows p.value) :
    (o.add key p).IsIntact roots s id :=
  ⟨h.parent, h.properties.insert key hp, h.kindWith key⟩

theorem put (h : o.IsIntact roots s id) (key : Key) {v : Value} (hv : s.Knows v) :
    (o.put key v).IsIntact roots s id := by
  unfold Object.put
  split
  · split
    · exact h
    · exact ⟨h.parent, h.properties.insert key hv, h.kind⟩
  · exact h.add key hv

theorem define (h : o.IsIntact roots s id) (key : Key) {p : Property} (hp : s.Knows p.value) :
    (o.define key p).IsIntact roots s id := by
  unfold Object.define
  split
  · dsimp only
    split
    · exact h
    · exact ⟨h.parent, h.properties.insert key hp, h.kind⟩
  · exact h.add key hp

theorem erase (h : o.IsIntact roots s id) (key : Key) : (o.erase key).IsIntact roots s id :=
  ⟨h.parent, h.properties.erase key, h.kind⟩

theorem resize (h : o.IsIntact roots s id) (length : Nat) :
    (o.resize length).IsIntact roots s id := by
  unfold Object.resize
  split
  · refine ⟨h.parent, ?_, trivial⟩
    dsimp only
    split
    · exact h.properties.truncate length
    · exact h.properties
  · exact h

end Object.IsIntact

/-! ### Links stay -/

namespace Object

variable (o : Object) (key : Key)

theorem link?_kindWith : (o.kindWith key).link? = o.kind.link? := by
  unfold kindWith
  split
  · rename_i hkind
    rw [hkind]
    rfl
  · rfl

theorem link?_put (v : Value) : (o.put key v).kind.link? = o.kind.link? := by
  unfold put
  split
  · split <;> rfl
  · exact o.link?_kindWith key

theorem link?_define (p : Property) : (o.define key p).kind.link? = o.kind.link? := by
  unfold define
  split
  · dsimp only
    split <;> rfl
  · exact o.link?_kindWith key

theorem link?_resize (length : Nat) : (o.resize length).kind.link? = o.kind.link? := by
  unfold resize
  split
  · rename_i hkind
    rw [hkind]
    rfl
  · rfl

end Object

/-! ### Changes -/

/-- A relation that there is between an object and whatever a move makes of it, as long as the
move sets no length. -/
structure Object.Admits (r : Object → Object → Prop) : Prop where
  refl : ∀ o, r o o
  define : ∀ o key p, r o (o.define key p)
  put : ∀ o key v, r o (o.put key v)
  erase : ∀ o key, (∀ p, o.properties.get? key = some p → p.readonly = false) → r o (o.erase key)
  withKind : ∀ o kind, o.kind.isConvertible = true → kind.isBoxed = true → r o { o with kind }

namespace Heap

variable {s : Heap} {id : ObjectId}

theorem object?_change (s : Heap) (id : ObjectId) (f : Object → Object) (j : ObjectId) :
    (s.change id f).object? j = if j = id then (s.object? j).map f else s.object? j := by
  have hget : (s.change id f).object? j =
      if id.index = j.index then (s.object? j).map f else s.object? j := Array.getElem?_modify
  rw [hget]
  by_cases heq : j = id
  · rw [heq, if_pos rfl, if_pos rfl]
  · rw [if_neg heq, if_neg fun hindex => heq (ObjectId.eq_of_index hindex.symm)]

theorem object?_change_self {o : Object} (ho : s.object? id = some o) (f : Object → Object) :
    (s.change id f).object? id = some (f o) := by
  rw [object?_change, if_pos rfl, ho, Option.map_some]

theorem object?_change_of_ne {j : ObjectId} (hne : j ≠ id) (f : Object → Object) :
    (s.change id f).object? j = s.object? j := by
  rw [object?_change, if_neg hne]

/-- An object that is there is not one that is made later. -/
theorem ne_of_object? {j : ObjectId} {o : Object} (hid : s.object? id = some o) (hj : s.object? j = none) :
    id ≠ j := by
  rintro rfl
  rw [hid] at hj
  cases hj

theorem object?_push (s : Heap) (o : Object) (j : ObjectId) :
    ({ s with objects := s.objects.push o } : Heap).object? j =
      if j = ⟨s.objects.size⟩ then some o else s.object? j := by
  have hget : ({ s with objects := s.objects.push o } : Heap).object? j =
      if j.index = s.objects.size then some o else s.object? j := Array.getElem?_push
  rw [hget]
  by_cases heq : j = ⟨s.objects.size⟩
  · rw [heq, if_pos rfl, if_pos rfl]
  · rw [if_neg heq, if_neg fun hindex => heq (ObjectId.eq_of_index hindex)]

/-- A new object leaves the others where they are. -/
theorem object?_push_of_eq_some {o : Object} (h : s.object? id = some o)
    (new : Object) : Heap.object? { s with objects := s.objects.push new } id = some o := by
  rw [object?_push, if_neg, h]
  rintro rfl
  have hnone : s.object? ⟨s.objects.size⟩ = none := Array.getElem?_eq_none (Nat.le_refl _)
  rw [hnone] at h
  cases h

/-- All objects have a property. -/
def Every (P : Object → Prop) (s : Heap) : Prop := ∀ id o, s.object? id = some o → P o

namespace Every

variable {P : Object → Prop}

theorem change (h : s.Every P) (id : ObjectId) {f : Object → Object} (hf : ∀ o, P o → P (f o)) :
    (s.change id f).Every P := by
  intro id' o ho
  rw [object?_change] at ho
  split at ho
  · obtain ⟨old, hold, rfl⟩ := Option.map_eq_some_iff.mp ho
    exact hf old (h id' old hold)
  · exact h id' o ho

theorem push (h : s.Every P) {o : Object} (ho : P o) :
    Heap.Every P { s with objects := s.objects.push o } := by
  intro id o' ho'
  rw [object?_push] at ho'
  split at ho'
  · cases ho'
    exact ho
  · exact h id o' ho'

end Every

theorem Additions.object? {s' : Heap} (h : s.Additions s') {o : Object}
    (ho : s.object? id = some o) : s'.object? id = some o := by
  induction h with
  | refl => exact ho
  | tail _ hlast ih =>
      obtain ⟨new, -, -, -, -, rfl⟩ := hlast
      exact object?_push_of_eq_some ih new

/-- Every object of a heap is still there in another one, and related to what it was. -/
def Objectwise (r : ObjectId → Object → Object → Prop) (s s' : Heap) : Prop :=
  ∀ id o, s.object? id = some o → ∃ o', s'.object? id = some o' ∧ r id o o'

namespace Objectwise

variable {r : ObjectId → Object → Object → Prop} {s' : Heap}

theorem of_objects_eq (hr : ∀ id o, r id o o) (h : s'.objects = s.objects) : s.Objectwise r s' := by
  intro id o ho
  refine ⟨o, ?_, hr id o⟩
  rw [object?, h]
  exact ho

/-- It has to be shown of the one object that changes. -/
theorem change (hr : ∀ id o, r id o o) (s : Heap) (id : ObjectId) {f : Object → Object}
    (hf : ∀ o, s.object? id = some o → r id o (f o)) : s.Objectwise r (s.change id f) := by
  intro id' o ho
  by_cases hid : id' = id
  · subst hid
    refine ⟨f o, ?_, hf o ho⟩
    rw [object?_change, if_pos rfl, ho]
    rfl
  · refine ⟨o, ?_, hr id' o⟩
    rw [object?_change, if_neg hid, ho]

/-- What holds of an object and all that moves make of it holds of all objects of a heap. -/
theorem of_move {l : Licence} (hr : ∀ id, Object.Admits (r id)) (h : Move l.firm s s') :
    s.Objectwise r s' := by
  have hrefl := fun id => (hr id).refl
  cases h with
  | alloc o _ _ _ _ => exact fun id o' ho' => ⟨o', object?_push_of_eq_some ho' o, hrefl id o'⟩
  | define id key p _ => exact change hrefl s id fun o _ => (hr id).define o key p
  | put id key v _ => exact change hrefl s id fun o _ => (hr id).put o key v
  | erase id key h => exact change hrefl s id fun o ho => (hr id).erase o key fun p hp => h o p ho hp
  | resize id length h => exact h.elim
  | setKind id kind hkind h =>
      exact change hrefl s id fun o ho => (hr id).withKind o kind (h o ho) hkind
  | reseed seed => exact of_objects_eq hrefl rfl
  | record row => exact of_objects_eq hrefl rfl

end Objectwise

/-- A change that keeps the object in order, and the link if it is a scope, keeps the heap
intact. -/
theorem Intact.change (hs : s.Intact roots) {f : Object → Object}
    (h : ∀ o, s.object? id = some o → o.IsIntact roots s id →
      (f o).IsIntact roots s id ∧ ∀ outer, o.kind.link? = some outer → (f o).kind.link? = some outer) :
    (s.change id f).Intact roots ∧ s.Grows (s.change id f) := by
  have hsize : (s.change id f).objects.size = s.objects.size := Array.size_modify
  have hgrows : s.Grows (s.change id f) := by
    refine ⟨Nat.le_of_eq hsize.symm, fun j outer hlink => ?_⟩
    obtain ⟨o, ho, hkind⟩ := Option.bind_eq_some_iff.mp hlink
    unfold link?
    rw [object?_change]
    split
    · rename_i heq
      rw [heq] at ho
      rw [heq, ho]
      exact (h o ho (hs.objects id o ho)).2 outer hkind
    · exact hlink
  refine ⟨⟨fun j o hj => ?_, ?_, hgrows.isScope hs.globalScope⟩, hgrows⟩
  · rw [object?_change] at hj
    split at hj
    · rename_i heq
      obtain ⟨before, hbefore, rfl⟩ := Option.map_eq_some_iff.mp hj
      rw [heq] at hbefore ⊢
      exact (h before hbefore (hs.objects id before hbefore)).1.mono hgrows
    · exact (hs.objects j o hj).mono hgrows
  · rw [hsize]
    exact hs.fixed

/-- Nothing but the objects counts. -/
theorem Intact.of_objects_eq {s' : Heap} (hs : s.Intact roots) (h : s'.objects = s.objects) :
    s'.Intact roots ∧ s.Grows s' := by
  have hobject : ∀ j, s'.object? j = s.object? j := fun j => by rw [object?, h, object?]
  have hgrows : s.Grows s' := by
    refine ⟨Nat.le_of_eq (by rw [h]), fun j outer hlink => ?_⟩
    rw [link?, hobject]
    exact hlink
  refine ⟨⟨fun j o hj => ?_, ?_, hgrows.isScope hs.globalScope⟩, hgrows⟩
  · rw [hobject] at hj
    exact (hs.objects j o hj).mono hgrows
  · rw [h]
    exact hs.fixed

/-- A new object that is in order at its place keeps the heap intact. -/
theorem Intact.push (hs : s.Intact roots) {o : Object}
    (ho : o.IsIntact roots s ⟨s.objects.size⟩) :
    ({ s with objects := s.objects.push o } : Heap).Intact roots ∧
      s.Grows { s with objects := s.objects.push o } := by
  have hsize : ({ s with objects := s.objects.push o } : Heap).objects.size = s.objects.size + 1 :=
    Array.size_push _
  have hgrows : s.Grows { s with objects := s.objects.push o } := by
    refine ⟨by omega, fun j outer hlink => ?_⟩
    have hj : j ≠ ⟨s.objects.size⟩ := by
      intro heq
      have hhas := IsScope.has ⟨outer, hlink⟩
      rw [heq] at hhas
      exact Nat.lt_irrefl _ hhas
    unfold link?
    rw [object?_push, if_neg hj]
    exact hlink
  refine ⟨⟨fun j o' hj => ?_, ?_, hgrows.isScope hs.globalScope⟩, hgrows⟩
  · rw [object?_push] at hj
    split at hj
    · rename_i heq
      cases hj
      rw [heq]
      exact ho.mono hgrows
    · exact (hs.objects j o' hj).mono hgrows
  · have hfixed := hs.fixed
    omega

/-! ### What is read -/

/-- A constructor at its fixed place. -/
theorem Intact.has_fixed (hs : s.Intact roots) (h : id.index < 15) : s.Has id :=
  Nat.lt_of_lt_of_le h hs.fixed

theorem findFrom_knows (hs : s.Intact roots) {key : Key} {p : Property} :
    ∀ {fuel : Nat} {visited : List ObjectId} {id : ObjectId},
      s.findFrom key fuel visited id = some p → s.Knows p.value := by
  intro fuel
  induction fuel with
  | zero =>
      intro visited id h
      cases h
  | succ fuel ih =>
      intro visited id h
      unfold findFrom at h
      split at h
      · cases h
      · split at h
        · cases h
        · rename_i o ho
          split at h
          · rename_i p' hget
            cases h
            exact (hs.objects id o ho).properties.get? hget
          · split at h
            · exact ih h
            · cases h

/-- Whatever is read, from whatever value, is known. -/
theorem property_knows (hs : s.Intact roots) (v : Value) (key : Key) :
    s.Knows (s.property v key) := by
  unfold property
  split
  · rename_i value hown
    obtain ⟨text, -, htext⟩ := Option.bind_eq_some_iff.mp hown
    refine knows_of_isPrimitive ?_
    unfold stringProperty? at htext
    split at htext
    · obtain ⟨c, -, rfl⟩ := Option.map_eq_some_iff.mp htext
      rfl
    · split at htext
      · cases htext
        rfl
      · cases htext
  · split
    · rename_i value hlength
      refine knows_of_isPrimitive ?_
      unfold arrayProperty? at hlength
      split at hlength
      · obtain ⟨n, -, rfl⟩ := Option.map_eq_some_iff.mp hlength
        rfl
      · cases hlength
    · split
      · rename_i p hfound
        obtain ⟨id, -, hfound⟩ := Option.bind_eq_some_iff.mp hfound
        exact findFrom_knows hs hfound
      · exact knows_of_isPrimitive rfl

theorem getProperty_knows (hs : s.Intact roots) {v r : Value} {key : Key}
    (h : s.getProperty v key = .ok r) : s.Knows r := by
  unfold getProperty at h
  split at h
  · cases h
  · cases h
    exact property_knows hs v key

theorem elements_knows (hs : s.Intact roots) {v : Value} {vs : List Value}
    (h : s.elements v = .ok vs) : ∀ x ∈ vs, s.Knows x := by
  unfold elements at h
  dsimp only at h
  split at h
  · cases h
  · cases h
    intro x hx
    obtain ⟨i, -, rfl⟩ := List.mem_map.mp hx
    exact property_knows hs v _

theorem prototypeOf?_has (hs : s.Intact roots) {constructor : ObjectId}
    (h : s.prototypeOf? constructor = some id) : s.Has id := by
  obtain ⟨o, ho, h⟩ := Option.bind_eq_some_iff.mp h
  obtain ⟨p, hp, h⟩ := Option.bind_eq_some_iff.mp h
  refine (hs.objects constructor o ho).properties.get? hp id ?_
  cases hv : p.value <;> rw [hv] at h <;> cases h
  rfl

theorem chainFrom_has (hs : s.Intact roots) :
    ∀ {fuel : Nat} {visited : List ObjectId} {id : ObjectId}, s.Has id →
      ∀ j ∈ s.chainFrom fuel visited id, s.Has j := by
  intro fuel
  induction fuel with
  | zero =>
      intro visited id _ j hj
      cases hj
  | succ fuel ih =>
      intro visited id hid j hj
      unfold chainFrom at hj
      split at hj
      · cases hj
      · rcases List.mem_cons.mp hj with rfl | hj
        · exact hid
        · split at hj
          · rename_i next hnext
            obtain ⟨o, -, hnext⟩ := Option.bind_eq_some_iff.mp hnext
            obtain ⟨parent, -, hnext⟩ := Option.bind_eq_some_iff.mp hnext
            exact ih (prototypeOf?_has hs hnext) j hj
          · cases hj

theorem chain_has (hs : s.Intact roots) {v : Value} (hv : s.Knows v) : ∀ j ∈ s.chain v, s.Has j := by
  intro j hj
  unfold chain at hj
  split at hj
  · rename_i id hstart
    refine chainFrom_has hs ?_ j hj
    unfold start? at hstart
    split at hstart
    · cases hstart
      exact knows_object.mp hv
    · obtain ⟨parent, -, hproto⟩ := Option.bind_eq_some_iff.mp hstart
      exact prototypeOf?_has hs hproto
  · cases hj

/-! ### Primitives -/

theorem scalar_isPrimitive (hs : s.Intact roots) (v : Value) (hint : Hint) :
    (s.scalar v hint).isPrimitive = true := by
  unfold scalar
  split
  · rename_i id
    split
    · rfl
    · rename_i payload hkind
      obtain ⟨o, ho, hkind⟩ := Option.map_eq_some_iff.mp hkind
      have hintact := (hs.objects id o ho).kind
      rw [hkind] at hintact
      exact hintact
    · split <;> rfl
    · rfl
    · rfl
  · rename_i hnot
    cases v with
    | object id => exact absurd rfl (hnot id)
    | _ => rfl

/-- The primitive of a value is one. -/
theorem toPrimitive?_isPrimitive (hs : s.Intact roots) {v r : Value} {hint : Hint}
    (h : s.toPrimitive? v hint = .ok r) : r.isPrimitive = true := by
  unfold toPrimitive? at h
  split at h
  · split at h
    · obtain ⟨text, -, rfl⟩ := exists_of_map_eq_ok h
      rfl
    · cases h
      exact scalar_isPrimitive hs _ hint
  · rename_i hnot
    cases h
    cases v with
    | object id => exact absurd rfl (hnot id)
    | _ => rfl

/-- Operators compute primitives. -/
theorem binary_isPrimitive {op : BinaryOp} {a b r : Value} (h : s.binary op a b = .ok r) :
    r.isPrimitive = true := by
  cases op with
  | add =>
      obtain ⟨x, -, h⟩ := exists_of_bind_eq_ok h
      obtain ⟨y, -, h⟩ := exists_of_bind_eq_ok h
      split at h <;> cases h <;> rfl
  | isIn =>
      obtain ⟨there, -, h⟩ := exists_of_bind_eq_ok h
      cases h
      rfl
  | instanceOf =>
      unfold binary at h
      dsimp only at h
      split at h
      · split at h
        · cases h
          rfl
        · cases h
      · cases h
  | unknown token => cases h
  | _ =>
      cases h
      rfl

theorem unary_isPrimitive {op : UnaryOp} {v r : Value} (h : s.unary op v = .ok r) :
    r.isPrimitive = true := by
  cases op <;> cases h <;> rfl

/-! ### Chains of scopes -/

/-- The one scope is made in the other. -/
def LinksTo (s : Heap) (inner outer : ObjectId) : Prop := s.link? inner = some (some outer)

end Heap

end Stepwise
