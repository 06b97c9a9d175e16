/-
Reading and assigning variables.

A name is resolved from a scope outward, and the scope that it is found in shows it as its
own or as something that it inherits.  An assignment always writes to the scope itself.  So
it has to be shown that what was assigned is found again, and that nothing else is.

Two facts about the heaps that there are make it so.  Scopes are in older ones, and so there
is an outermost one; and a scope within another one inherits from nothing, so that what a
write to one of them changes is found nowhere else.  The outermost scopes may inherit, from
other scopes even if a host has arranged it, and then a variable can be seen from where it
does not belong.  Where that comes in is said by `Untied` and `ShowsThrough`.
-/
import Stepwise.Proofs.Compound
import Stepwise.Proofs.Writes

namespace Stepwise

/-! ### Scopes within scopes -/

theorem Object.outerScope?_eq (o : Object) : o.outerScope? = o.kind.link?.join := by
  rcases o with ⟨parent, properties, kind⟩
  cases kind <;> rfl

/-- What keeps the parent and the scope around an object leaves it unforked. -/
theorem Object.IsUnforked.of_eq {o o' : Object} (h : o.IsUnforked) (hparent : o'.parent = o.parent)
    (hlink : o'.kind.link? = o.kind.link?) : o'.IsUnforked := by
  unfold IsUnforked at *
  rwa [outerScope?_eq, hlink, ← outerScope?_eq, hparent]

namespace Heap

variable {s s' : Heap} {l : Licence}

theorem Move.isUnforked (h : Move l s s') (hs : s.Every Object.IsUnforked) :
    s'.Every Object.IsUnforked := by
  cases h with
  | alloc o _ _ hlinks _ => exact hs.push hlinks
  | define id key p _ =>
      exact hs.change id fun o ho => ho.of_eq (o.define_parent p) (o.link?_define key p)
  | put id key v _ => exact hs.change id fun o ho => ho.of_eq (o.put_parent key v) (o.link?_put key v)
  | erase id key _ => exact hs.change id fun o ho => ho.of_eq rfl rfl
  | resize id length _ =>
      refine hs.change id fun o ho => ho.of_eq ?_ (o.link?_resize length)
      unfold Object.resize
      split <;> rfl
  | setKind id kind hkind _ =>
      -- Neither a date nor a wrapper is a scope.
      refine hs.change id fun o _ => .inl ?_
      cases kind <;> first | rfl | cases hkind
  | reseed seed => exact hs
  | record row => exact hs

theorem Changes.isUnforked (h : s.Changes (.of fun _ => True) s') (hs : s.Every Object.IsUnforked) :
    s'.Every Object.IsUnforked := by
  rcases h with h | ⟨reader, rfl⟩
  · exact (h.moves trivial).keeps (fun _ _ hmove => hmove.isUnforked) hs
  · exact hs

end Heap

theorem Store.create_isUnforked (config : Config) (reader : Option SourceReader) (clock : Float)
    (seed : UInt64) : (create config reader clock seed).toHeap.Every Object.IsUnforked := by
  refine create_every (l := .of fun _ => True) config clock seed (fun _ => trivial)
    (fun _ _ hmove => hmove.isUnforked) fun o ho => .inl ?_
  rcases List.mem_cons.mp ho with rfl | ho
  · rfl
  · obtain ⟨p, -, hp⟩ := List.mem_flatMap.mp ho
    rcases List.mem_cons.mp hp with rfl | hp
    · rfl
    · rw [List.mem_singleton.mp hp]
      rfl

/-! ### Resolving -/

namespace Heap

/-- A name is resolved to a scope if it is the first one, from the inside outward, that has it. -/
inductive Resolves (s : Heap) (key : Key) : ObjectId → ObjectId → Prop where
  | here {id : ObjectId} (h : s.hasOf id key = true) : Resolves s key id id
  | outer {id outer holder : ObjectId} (h : s.hasOf id key = false) (hlink : s.LinksTo id outer)
      (hholder : Resolves s key outer holder) : Resolves s key id holder

variable {s t : Heap} {key : Key} {id holder : ObjectId} {roots : List ObjectId}

theorem resolveFrom_succ (key : Key) (fuel : Nat) (visited : List ObjectId) (id : ObjectId) :
    s.resolveFrom key (fuel + 1) visited id =
      if id ∈ visited then none
      else if s.hasOf id key then some id
      else ((s.object? id).bind Object.outerScope?).bind (s.resolveFrom key fuel (id :: visited)) := by
  rw [resolveFrom]
  simp only [List.contains_iff_mem]
  cases (s.object? id).bind Object.outerScope? <;> rfl

theorem linksTo_iff {outer : ObjectId} :
    s.LinksTo id outer ↔ (s.object? id).bind Object.outerScope? = some outer := by
  unfold LinksTo link?
  cases s.object? id with
  | none => simp
  | some o =>
      rw [Option.bind_some, Option.bind_some, Object.outerScope?_eq]
      cases o.kind.link? <;> simp

theorem resolve?_self (h : s.hasOf id key = true) : s.resolve? id key = some id := by
  rw [resolve?, walkFuel, resolveFrom_succ, if_neg List.not_mem_nil, if_pos h]

/-! ### What a write to a scope changes -/

/-- A value is put under a key of an object. -/
def putAt (s : Heap) (id : ObjectId) (key : Key) (v : Value) : Heap :=
  s.change id fun o => o.put key v

variable {o : Object} {v : Value} {outer : Option ObjectId} {j : ObjectId} {key' : Key}

theorem own?_putAt_of_ne (h : j ≠ holder ∨ key' ≠ key) :
    (s.putAt holder key v).own? j key' = s.own? j key' := by
  unfold own? putAt
  by_cases hj : j = holder
  · subst hj
    rw [object?_change, if_pos rfl]
    cases s.object? j with
    | none => rfl
    | some o => exact Object.put_of_ne (h.resolve_left fun hne => hne rfl) v
  · rw [object?_change_of_ne hj]

theorem own?_putAt_self (ho : s.object? holder = some o)
    (hwritable : ∀ p, s.own? holder key = some p → p.readonly = false) :
    ∃ p, (s.putAt holder key v).own? holder key = some p ∧ p.value = v := by
  have hput : ∀ p, o.properties.get? key = some p → p.readonly = false :=
    fun p hp => hwritable p ((own?_of_object? ho key).trans hp)
  obtain ⟨p, hp, hv⟩ := Object.put_self hput v
  exact ⟨p, (own?_of_object? (object?_change_self ho _) key).trans hp, hv⟩

theorem parentAt?_putAt : (s.putAt holder key v).parentAt? j = s.parentAt? j := by
  unfold parentAt? putAt
  rw [object?_change]
  by_cases hj : j = holder
  · rw [if_pos hj]
    cases s.object? j with
    | none => rfl
    | some o => exact o.put_parent key v
  · rw [if_neg hj]

theorem prototypeOf?_eq (s : Heap) (id : ObjectId) :
    s.prototypeOf? id = (s.own? id .prototype).bind fun p => p.value.objectId? := by
  unfold prototypeOf? own?
  cases s.object? id <;> rfl

theorem next?_eq (s : Heap) (id : ObjectId) : s.next? id = (s.parentAt? id).bind s.prototypeOf? := by
  unfold next? parentAt?
  cases s.object? id <;> rfl

/-- A write changes what comes after an object only if it is a new prototype for its parent. -/
theorem next?_putAt (h : key = .prototype → s.parentAt? j ≠ some holder) :
    (s.putAt holder key v).next? j = s.next? j := by
  rw [next?_eq, next?_eq, parentAt?_putAt]
  cases hparent : s.parentAt? j with
  | none => rfl
  | some parent =>
      rw [Option.bind_some, Option.bind_some, prototypeOf?_eq, prototypeOf?_eq, own?_putAt_of_ne]
      by_cases hkey : Key.prototype = key
      · exact .inl fun heq => h hkey.symm (by rw [hparent, heq])
      · exact .inr hkey

theorem chainFrom_congr {fuel : Nat} {visited : List ObjectId}
    (h : ∀ j ∈ s.chainFrom fuel visited id, t.next? j = s.next? j) :
    t.chainFrom fuel visited id = s.chainFrom fuel visited id := by
  induction fuel generalizing visited id with
  | zero => rfl
  | succ fuel ih =>
      rw [chainFrom_succ] at h
      rw [chainFrom_succ, chainFrom_succ]
      by_cases hseen : id ∈ visited
      · rw [if_pos hseen, if_pos hseen]
      rw [if_neg hseen] at h
      obtain ⟨hid, hrest⟩ := List.forall_mem_cons.mp h
      rw [if_neg hseen, if_neg hseen, hid]
      cases hnext : s.next? id with
      | none => rfl
      | some next =>
          rw [hnext] at hrest
          exact congrArg _ (ih hrest)

theorem chain_putAt (h : ∀ j ∈ s.chain (.object id), key = .prototype → s.parentAt? j ≠ some holder) :
    (s.putAt holder key v).chain (.object id) = s.chain (.object id) := by
  have hsize : (s.putAt holder key v).walkFuel = s.walkFuel :=
    congrArg (· + 1) (Array.size_modify : (s.objects.modify holder.index _).size = s.objects.size)
  show (s.putAt holder key v).chainFrom _ [] id = s.chainFrom s.walkFuel [] id
  rw [hsize]
  exact chainFrom_congr fun j hj => next?_putAt (h j hj)

/-- An object comes later in a chain than one that it comes after. -/
theorem mem_chain_trans {v : Value} (hmid : id ∈ s.chain v) (hlast : j ∈ s.chain (.object id))
    (ho : s.object? j = some o) : j ∈ s.chain v := by
  unfold chain at hmid ⊢
  cases hstart : s.start? v with
  | none =>
      rw [hstart] at hmid
      cases hmid
  | some start =>
      rw [hstart] at hmid
      refine (mem_chainFrom (by unfold walkFuel; omega) ho).mpr ?_
      exact (reaches_of_mem_chainFrom hmid).trans (reaches_of_mem_chainFrom hlast)

/-- The next object after another one stands behind it in the chain. -/
theorem chain_of_next (hsize : 2 ≤ s.objects.size) (hnext : s.next? id = some j) (hne : j ≠ id) :
    ∃ fuel, s.chain (.object id) = id :: j :: (s.next? j).elim [] (s.chainFrom (fuel + 1) [j, id]) := by
  obtain ⟨fuel, hfuel⟩ := Nat.exists_eq_add_of_le hsize
  refine ⟨fuel, ?_⟩
  show s.chainFrom (s.objects.size + 1) [] id = _
  rw [show s.objects.size + 1 = fuel + 1 + 1 + 1 by omega, chainFrom_succ, if_neg List.not_mem_nil, hnext,
    Option.elim_some, chainFrom_succ, if_neg (by simpa using hne)]

/-- A scope is of the same kind when something was put in it. -/
theorem object?_putAt (ho : s.object? holder = some o) (hkind : o.kind = .scope outer) (key : Key)
    (v : Value) :
    (s.putAt holder key v).object? holder = some (o.put key v) ∧ (o.put key v).kind = o.kind := by
  refine ⟨object?_change_self ho _, ?_⟩
  rcases o.put_kind key v with h | ⟨-, h⟩
  · exact h
  · rw [h]
    unfold Object.kindWith
    rw [hkind]

theorem ownAnswer?_of_missing (h : s.object? id = none) (key : Key) :
    s.ownAnswer? (.object id) key = none := by
  have hobject : s.objectOf? (.object id) = none := h
  simp [ownAnswer?, arrayProperty?, stringData?, hobject, h]

/-- What objects answer by themselves does not depend on what is put in a scope. -/
theorem ownAnswer?_putAt (ho : s.object? holder = some o) (hkind : o.kind = .scope outer)
    (id : ObjectId) (key' : Key) :
    (s.putAt holder key v).ownAnswer? (.object id) key' = s.ownAnswer? (.object id) key' := by
  by_cases hid : id = holder
  · subst hid
    obtain ⟨hput, hsame⟩ := object?_putAt ho hkind key v
    rw [ownAnswer?_object hput, ownAnswer?_object ho, hsame]
  · have hother : (s.putAt holder key v).object? id = s.object? id := object?_change_of_ne hid _
    cases hobject : s.object? id with
    | none => rw [ownAnswer?_of_missing hobject, ownAnswer?_of_missing (hother.trans hobject)]
    | some o' => rw [ownAnswer?_object hobject, ownAnswer?_object (hother.trans hobject)]

/-- **An object has the same keys as before** when a value was put where its key was found, as long
as the objects in its chain are the same. -/
theorem hasOf_putAt (ho : s.object? holder = some o) (hkind : o.kind = .scope outer)
    (hhas : s.hasOf holder key = true)
    (hwritable : ∀ p, s.own? holder key = some p → p.readonly = false)
    (hchain : ∀ j ∈ s.chain (.object id), key = .prototype → s.parentAt? j ≠ some holder) (key' : Key) :
    (s.putAt holder key v).hasOf id key' = s.hasOf id key' := by
  rw [Bool.eq_iff_iff, hasOf_iff, hasOf_iff, ownAnswer?_putAt ho hkind, chain_putAt hchain]
  refine or_congr_right ⟨?_, ?_⟩
  · rintro ⟨j, hj, hown⟩
    by_cases hsame : j = holder ∧ key' = key
    · -- The key was found from the holder on already.
      obtain ⟨rfl, rfl⟩ := hsame
      have hnone : o.kind.answer? key' = none := by rw [hkind, Kind.answer?_scope]
      rcases (hasOf_object_iff ho key').mp hhas with hanswer | hself | ⟨i, hi, hown⟩
      · rw [hnone] at hanswer
        cases hanswer
      · exact ⟨j, hj, by rwa [own?_of_object? ho]⟩
      · obtain ⟨p, hp⟩ := Option.isSome_iff_exists.mp hown
        obtain ⟨o', ho', -⟩ := Option.bind_eq_some_iff.mp hp
        have hi : i ∈ s.chain (.object j) := by
          rw [chain_object]
          exact List.mem_cons_of_mem _ hi
        exact ⟨i, mem_chain_trans hj hi ho', hown⟩
    · rw [own?_putAt_of_ne (not_and_or.mp hsame)] at hown
      exact ⟨j, hj, hown⟩
  · rintro ⟨j, hj, hown⟩
    refine ⟨j, hj, ?_⟩
    by_cases hsame : j = holder ∧ key' = key
    · obtain ⟨rfl, rfl⟩ := hsame
      obtain ⟨p, hp, -⟩ := own?_putAt_self (v := v) ho hwritable
      rw [hp]
      rfl
    · rwa [own?_putAt_of_ne (not_and_or.mp hsame)]

theorem linksTo_putAt {inner : ObjectId} :
    (s.putAt holder key v).LinksTo id inner ↔ s.LinksTo id inner := by
  unfold LinksTo link? putAt
  rw [object?_change]
  by_cases hid : id = holder
  · rw [if_pos hid]
    cases s.object? id with
    | none => simp
    | some o => simp [o.link?_put]
  · rw [if_neg hid]

/-! ### Resolving after a write -/

/-- A name is resolved as before if the scopes on the way have it as before. -/
theorem Resolves.congr (hlinks : ∀ i i', t.LinksTo i i' ↔ s.LinksTo i i')
    (hhas : ∀ i, Relation.ReflTransGen s.LinksTo id i → t.hasOf i key = s.hasOf i key)
    (h : s.Resolves key id holder) : t.Resolves key id holder := by
  induction h with
  | here h => exact .here ((hhas _ .refl).trans h)
  | outer h hlink _ ih =>
      refine .outer ((hhas _ .refl).trans h) ((hlinks _ _).mpr hlink) (ih fun i hi => ?_)
      exact hhas i (.head hlink hi)

/-- A scope within another one has what it owns, and nothing else. -/
theorem chain_of_linksTo (hs : s.Every Object.IsUnforked) {inner : ObjectId}
    (h : s.LinksTo id inner) : s.parentAt? id = none ∧ s.chain (.object id) = [id] := by
  obtain ⟨o, ho, houter⟩ := Option.bind_eq_some_iff.mp (linksTo_iff.mp h)
  have hparent : s.parentAt? id = none := by
    rw [parentAt?, ho]
    refine (hs id o ho).resolve_left fun hnone => ?_
    rw [hnone] at houter
    cases houter
  refine ⟨hparent, ?_⟩
  show s.chainFrom s.walkFuel [] id = [id]
  rw [walkFuel, chainFrom_succ, if_neg List.not_mem_nil, next?_eq, hparent]
  rfl

/-- **What was put where a name is resolved to is where it is resolved to**, from every scope. -/
theorem Resolves.putAt (hs : s.Every Object.IsUnforked) (ho : s.object? holder = some o)
    (hkind : o.kind = .scope outer) (hhas : s.hasOf holder key = true)
    (hwritable : ∀ p, s.own? holder key = some p → p.readonly = false)
    (h : s.Resolves key id holder) : (s.putAt holder key v).Resolves key id holder := by
  induction h with
  | here h =>
      obtain ⟨p, hp, -⟩ := own?_putAt_self (v := v) ho hwritable
      exact .here (hasOf_of_own hp)
  | outer h hlink _ ih =>
      refine .outer ?_ (linksTo_putAt.mpr hlink) (ih ho hhas hwritable)
      -- The scopes before it inherit from nothing.
      obtain ⟨hparent, hchain⟩ := chain_of_linksTo hs hlink
      rw [hasOf_putAt ho hkind hhas hwritable fun j hj _ => ?_]
      · exact h
      · rw [hchain, List.mem_singleton] at hj
        rw [hj, hparent]
        exact nofun

/-! ### Reading after a write -/

theorem lookup_of_resolve? {scope : ObjectId} {name : String}
    (h : s.resolve? scope (.ofText name) = some holder) :
    s.lookup scope name = s.getProperty (.object holder) (.ofText name) := by
  unfold lookup
  rw [h]

theorem lookup_of_none {scope : ObjectId} {name : String}
    (h : s.resolve? scope (.ofText name) = none) :
    s.lookup scope name = .error (.undefinedName name) := by
  unfold lookup
  rw [h]
  rfl

/-! ### Assigning -/

end Heap

namespace Store

variable {s : Heap} {scope holder : ObjectId} {name : String} {roots : List ObjectId}

theorem assign_of_some (h : s.resolve? scope (.ofText name) = some holder) (v : Value) :
    assign scope name v s = setProperty (.object holder) (.ofText name) v s := by
  unfold assign
  rw [bind_of_ok (show Edit.ask _ s = (.ok (some holder), s) by rw [Edit.ask, h])]

/-- An assignment puts the value in the scope that the name is resolved to. -/
theorem assign_eq_putAt (h : s.resolve? scope (.ofText name) = some holder) {o : Object}
    (ho : s.object? holder = some o) {outer : Option ObjectId} (hkind : o.kind = .scope outer) (v : Value) :
    assign scope name v s = (.ok (), s.putAt holder (.ofText name) v) := by
  have hnone : o.kind.answer? (.ofText name) = none := by rw [hkind, Kind.answer?_scope]
  rw [assign_of_some h, setProperty_of_ok (Heap.planWrite_of_not_answered ho hnone v)]
  rfl

end Store

/-! ### What was assigned is looked up -/

namespace Evaluator

variable {roots : List ObjectId} {e : Evaluator}

/-- No scope within another one inherits, wherever a fair host comes to. -/
theorem HostedFairly.isUnforked (he : HostedFairly roots e) (fuel : Nat) :
    ∀ p ∈ e.instant :: e.instants fuel, p.store.toHeap.Every Object.IsUnforked :=
  he.heaps_keep (fun _ _ h => h.isUnforked) Store.create_isUnforked fuel

end Evaluator

/-! ### A global variable -/

open Intrinsic

/-- A constructor that was given another prototype has it. -/
private theorem Heap.prototypeOf?_of_define {s : Heap} {c id : ObjectId} {o : Object}
    (hc : s.object? c = some (o.define .prototype (.plain (.object id))))
    (hwritable : ∀ p, o.properties.get? .prototype = some p → p.readonly = false) :
    s.prototypeOf? c = some id := by
  obtain ⟨p, hp, hvalue, -⟩ := Object.define_self hwritable (.object id)
  rw [prototypeOf?_eq, own?_of_object? hc, hp, Option.bind_some, hvalue]
  rfl

/-- The global scope inherits from a scope that has a variable, and does not have it itself. -/
structure Heap.ShowsScope (s : Heap) (id : ObjectId) : Prop where
  size : 2 ≤ s.objects.size
  ne : id ≠ globalScope
  scope : ∃ o p, s.object? id = some o ∧ o.kind = .scope (some globalScope) ∧
    s.own? id (.ofText "n") = some p ∧ p.value = .null ∧ p.readonly = false
  outermost : ∃ g, s.object? globalScope = some g ∧ g.kind = .scope none
  next : s.next? globalScope = some id
  missing : s.own? globalScope (.ofText "n") = none

/-- A host makes a scope within the global one, with a variable, and then makes that scope the
prototype of `Object`. -/
private theorem Evaluator.exists_showsScope {e : Evaluator} (he : HostedFairly [] e)
    (h : e.store.toHeap.IsUntouched) :
    ∃ e', HostedFairly [] e' ∧ ∃ id, e'.store.toHeap.ShowsScope id := by
  obtain ⟨g, hg, hparent, hkind⟩ := h.globalScope
  obtain ⟨c, hc⟩ := h.constructor
  -- The scope is made,
  obtain ⟨e₁, id, he₁, hfresh, hnew, hkept⟩ := he.exists_pushed (.newScope (some globalScope))
    (fun _ heq => by cases heq; exact h.intact.globalScope) rfl rfl
  have hglobal := Heap.ne_of_object? hg hfresh
  -- the variable is declared in it,
  obtain ⟨e₂, he₂, hvariable, hothers₂⟩ := he₁.exists_defined hnew (.ofText "n") (p := .plain .null)
    (Heap.knows_of_isPrimitive rfl)
  have hc₂ := (hothers₂ _ (Heap.ne_of_object? hc hfresh)).trans (hkept _ c hc)
  -- and then `Object` gets it as its prototype.
  obtain ⟨e₃, he₃, hprototype, hothers₃⟩ := he₂.exists_defined hc₂ .prototype (p := .plain (.object id))
    (Heap.knows_object.mpr (Heap.has_of_object? hvariable))
  have hid₃ := (hothers₃ _ (Heap.ne_of_object? hc hfresh).symm).trans hvariable
  have hg₃ := (hothers₃ _ (by decide)).trans ((hothers₂ _ hglobal).trans (hkept _ g hg))
  have hown : e₃.store.own? id (.ofText "n") = some (.plain .null) := by
    rw [Heap.own?_of_object? hid₃, Object.define_self_of_none (Properties.get?_empty _)]
  exact ⟨e₃, he₃, id, {
    size := Nat.le_trans (by decide) he₃.isIntact.heap.fixed
    ne := hglobal.symm
    scope := ⟨_, _, hid₃, Object.define_kind_of_scope rfl _, hown, rfl, rfl⟩
    outermost := ⟨g, hg₃, hkind⟩
    next := by
      rw [Heap.next?_of_eq_some hg₃, hparent, Option.bind_some,
        Heap.prototypeOf?_of_define hprototype (h.stocked _ c hc).prototype_writable]
    missing := by
      rw [Heap.own?_of_object? hg₃]
      exact (h.stocked _ g hg).get?_eq_none (by decide) }⟩

namespace Heap

variable {s : Heap} {id : ObjectId}

/-- A variable is read from the next object, if the global scope does not own it. -/
private theorem lookup_of_next {g : Object} (hsize : 2 ≤ s.objects.size)
    (hg : s.object? globalScope = some g) (hkind : g.kind = .scope none) {name : String}
    (hnext : s.next? globalScope = some id) (hne : id ≠ globalScope) {p : Property}
    (hnone : s.own? globalScope (.ofText name) = none) (hp : s.own? id (.ofText name) = some p) :
    s.resolve? globalScope (.ofText name) = some globalScope ∧
      s.lookup globalScope name = .ok p.value := by
  have hanswer : g.kind.answer? (.ofText name) = none := by rw [hkind, Kind.answer?_scope]
  obtain ⟨fuel, hchain⟩ := chain_of_next hsize hnext hne
  have hhas : s.hasOf globalScope (.ofText name) = true := by
    rw [hasOf_object_iff hg, hchain]
    exact .inr (.inr ⟨id, List.mem_cons_self, by rw [hp]; rfl⟩)
  refine ⟨resolve?_self hhas, ?_⟩
  rw [lookup_of_resolve? (resolve?_self hhas), getProperty_eq rfl, ownAnswer?_object hg, hanswer, hchain,
    List.findSome?_cons, hnone, List.findSome?_cons, hp]
  rfl

/-- What is assigned in the scope shows in the global one, which has the name by itself. -/
private theorem ShowsScope.assigned (h : s.ShowsScope id) :
    s.resolve? id (.ofText "n") = some id ∧
      s.resolve? globalScope (.ofText "n") = some globalScope ∧ s.lookup globalScope "n" = .ok .null ∧
      ∃ s', Store.assign id "n" (.boolean true) s = (.ok (), s') ∧
        s'.lookup globalScope "n" = .ok (.boolean true) := by
  obtain ⟨hsize, hne, ⟨o, p, ho, hkind, hp, hvalue, hwritable⟩, ⟨g, hg, hscope⟩, hnext, hnone⟩ := h
  have hhas : s.hasOf id (.ofText "n") = true := hasOf_of_own hp
  obtain ⟨hresolve, hlookup⟩ := lookup_of_next hsize hg hscope hnext hne hnone hp
  refine ⟨resolve?_self hhas, hresolve, by rw [hlookup, hvalue], _,
    Store.assign_eq_putAt (resolve?_self hhas) ho hkind _, ?_⟩
  -- The global scope still inherits from the scope, and finds the new value there.
  obtain ⟨q, hq, hqvalue⟩ := own?_putAt_self (v := .boolean true) ho fun q hq => by
    rw [hp] at hq
    cases hq
    exact hwritable
  have hkey : Key.ofText "n" ≠ .prototype := by decide
  have hnext' : (s.putAt id (.ofText "n") (.boolean true)).next? globalScope = some id :=
    (next?_putAt fun heq => absurd heq hkey).trans hnext
  have hsize' : 2 ≤ (s.putAt id (.ofText "n") (.boolean true)).objects.size :=
    Nat.le_trans hsize (Nat.le_of_eq Array.size_modify.symm)
  obtain ⟨-, hlookup'⟩ := lookup_of_next hsize' ((object?_change_of_ne hne.symm _).trans hg) hscope
    hnext' hne ((own?_putAt_of_ne (.inl hne.symm)).trans hnone) hq
  rw [hlookup', hqvalue]

end Heap

/-- A variable is assigned to in a scope, and the global scope shows another value of its own: a
host has made that scope the prototype of `Object`. -/
theorem Evaluator.assigned_shows_elsewhere : ∃ e, HostedFairly [] e ∧ ∃ id, id ≠ globalScope ∧
    e.store.resolve? id (.ofText "n") = some id ∧
    e.store.resolve? globalScope (.ofText "n") = some globalScope ∧
    e.store.lookup globalScope "n" = .ok .null ∧
    ∃ s', Store.assign id "n" (.boolean true) e.store.toHeap = (.ok (), s') ∧
      s'.lookup globalScope "n" = .ok (.boolean true) := by
  obtain ⟨e, he, id, h⟩ := exists_showsScope (.realm {} none 0 1) (Heap.create_isUntouched {} none 0 1)
  exact ⟨e, he, id, h.ne, h.assigned⟩

/-- The global scope inherits from an object that has the global scope for its parent, and so from
what the global scope has for a prototype. -/
structure Heap.ShowsInstance (s : Heap) (id last : ObjectId) : Prop where
  size : 2 ≤ s.objects.size
  outermost : ∃ g p, s.object? globalScope = some g ∧ g.parent = some Intrinsic.object ∧
    g.kind = .scope none ∧ s.own? globalScope .prototype = some p ∧ p.value = .object last ∧
      p.readonly = false
  first : s.next? globalScope = some id
  second : s.parentAt? id = some globalScope
  distinct : id ≠ globalScope ∧ last ≠ globalScope ∧ last ≠ id
  missing : s.own? globalScope (.ofText "n") = none ∧ s.own? id (.ofText "n") = none
  found : ∃ p, s.own? last (.ofText "n") = some p ∧ p.value = .null

namespace Heap

variable {s : Heap} {id last : ObjectId}

/-- What is assigned to the variable `prototype` of the global scope takes another variable away. -/
private theorem ShowsInstance.assigned (h : s.ShowsInstance id last) :
    s.resolve? globalScope .prototype = some globalScope ∧ s.lookup globalScope "n" = .ok .null ∧
      ∃ s', Store.assign globalScope "prototype" (.boolean true) s = (.ok (), s') ∧
        s'.lookup globalScope "n" = .error (.undefinedName "n") := by
  obtain ⟨hsize, ⟨g, p, hg, hparent, hkind, hp, hvalue, hwritable⟩, hfirst, hsecond,
    ⟨hne, hlast, hlast'⟩, ⟨hmissing, hmissing'⟩, q, hq, hqvalue⟩ := h
  have hanswer (key : Key) : g.kind.answer? key = none := by rw [hkind, Kind.answer?_scope]
  have hkey : Key.ofText "n" ≠ .prototype := by decide
  have hresolve : s.resolve? globalScope .prototype = some globalScope := resolve?_self (hasOf_of_own hp)
  refine ⟨hresolve, ?_, _, Store.assign_eq_putAt hresolve hg hkind _, ?_⟩
  · have hnext : s.next? id = some last := by
      rw [next?_eq, hsecond, Option.bind_some, prototypeOf?_eq, hp, Option.bind_some, hvalue]
      rfl
    obtain ⟨fuel, hchain⟩ := chain_of_next hsize hfirst hne
    rw [hnext, Option.elim_some, chainFrom_succ, if_neg (by simp [hlast, hlast'])] at hchain
    have hhas : s.hasOf globalScope (.ofText "n") = true := by
      rw [hasOf_object_iff hg, hchain]
      exact .inr (.inr ⟨last, by simp, by rw [hq]; rfl⟩)
    rw [lookup_of_resolve? (resolve?_self hhas), getProperty_eq rfl, ownAnswer?_object hg, hanswer, hchain,
      List.findSome?_cons, hmissing, List.findSome?_cons, hmissing', List.findSome?_cons, hq, ← hqvalue]
    rfl
  · -- The prototype of the instance is no object any more, and so the chain ends there.
    let s' : Heap := s.putAt globalScope .prototype (.boolean true)
    obtain ⟨hg', hkind'⟩ := object?_putAt hg hkind .prototype (.boolean true)
    obtain ⟨r, hr, hrvalue⟩ := own?_putAt_self (v := .boolean true) hg fun r hr => by
      rw [hp] at hr
      cases hr
      exact hwritable
    have hloop : s.parentAt? globalScope ≠ some globalScope := by
      rw [parentAt?, hg, Option.bind_some, hparent]
      decide
    have hfirst' : s'.next? globalScope = some id := (next?_putAt fun _ => hloop).trans hfirst
    have hnext : s'.next? id = none := by
      rw [next?_eq, parentAt?_putAt, hsecond, Option.bind_some, prototypeOf?_eq, hr, Option.bind_some,
        hrvalue]
      rfl
    have hsize' : 2 ≤ s'.objects.size := Nat.le_trans hsize (Nat.le_of_eq Array.size_modify.symm)
    obtain ⟨fuel, hchain⟩ := chain_of_next hsize' hfirst' hne
    rw [hnext, Option.elim_none] at hchain
    have hhas : ¬s'.hasOf globalScope (.ofText "n") = true := by
      rw [hasOf_object_iff hg', hkind', hanswer, hchain, ← own?_of_object? hg',
        own?_putAt_of_ne (.inr hkey), hmissing]
      simp [own?_putAt_of_ne (.inr hkey), hmissing']
    have houter : (s'.object? globalScope).bind Object.outerScope? = none := by
      rw [hg', Option.bind_some, Object.outerScope?_eq, hkind', hkind]
      rfl
    refine lookup_of_none ?_
    show s'.resolve? globalScope (.ofText "n") = none
    rw [resolve?, walkFuel, resolveFrom_succ, if_neg List.not_mem_nil, if_neg hhas, houter]
    rfl

end Heap

/-- A host makes an object, and an instance of the global scope that inherits from it, and then
makes that the prototype of `Object`. -/
private theorem Evaluator.exists_showsInstance {e : Evaluator} (he : HostedFairly [] e)
    (h : e.store.toHeap.IsUntouched) :
    ∃ e', HostedFairly [] e' ∧ ∃ id last, e'.store.toHeap.ShowsInstance id last := by
  obtain ⟨g, hg, hparent, hkind⟩ := h.globalScope
  obtain ⟨c, hc⟩ := h.constructor
  -- The object is made, with a property,
  obtain ⟨e₁, last, he₁, hfresh₁, hnew₁, hkept₁⟩ := he.exists_pushed (.newObject none) nofun rfl rfl
  have hglobal := Heap.ne_of_object? hg hfresh₁
  have hobject := Heap.ne_of_object? hc hfresh₁
  obtain ⟨e₂, he₂, hlast₂, hothers₂⟩ := he₁.exists_defined hnew₁ (.ofText "n") (p := .plain .null)
    (Heap.knows_of_isPrimitive rfl)
  have hg₂ := (hothers₂ _ hglobal).trans (hkept₁ _ g hg)
  have hc₂ := (hothers₂ _ hobject).trans (hkept₁ _ c hc)
  -- then the instance,
  obtain ⟨e₃, id, he₃, hfresh₃, hid₃, hkept₃⟩ := he₂.exists_pushed (.newObject (some globalScope))
    (fun _ heq => by cases heq; exact Heap.has_of_object? hg₂) rfl rfl
  have hlast₃ := hkept₃ _ _ hlast₂
  -- and then both links are set.
  obtain ⟨e₄, he₄, hg₄, hothers₄⟩ := he₃.exists_defined (hkept₃ _ g hg₂) .prototype (p := .plain (.object last))
    (Heap.knows_object.mpr (Heap.has_of_object? hlast₃))
  have hid₄ := (hothers₄ _ (Heap.ne_of_object? hg₂ hfresh₃).symm).trans hid₃
  have hc₄ := (hothers₄ Intrinsic.object (by decide)).trans (hkept₃ _ c hc₂)
  obtain ⟨e₅, he₅, hprototype, hothers₅⟩ := he₄.exists_defined hc₄ .prototype (p := .plain (.object id))
    (Heap.knows_object.mpr (Heap.has_of_object? hid₄))
  have hg₅ := (hothers₅ _ (by decide)).trans hg₄
  have hid₅ := (hothers₅ _ (Heap.ne_of_object? hc₂ hfresh₃).symm).trans hid₄
  have hlast₅ := (hothers₅ _ hobject.symm).trans ((hothers₄ _ hglobal.symm).trans hlast₃)
  obtain ⟨p, hp, hvalue, hwritable, -⟩ :=
    Object.define_self (h.stocked _ g hg).prototype_writable (.object last)
  have hparent₅ : (g.define .prototype (.plain (.object last))).parent = some Intrinsic.object :=
    (g.define_parent _).trans hparent
  have hown : e₅.store.own? last (.ofText "n") = some (.plain .null) := by
    rw [Heap.own?_of_object? hlast₅, Object.define_self_of_none (Properties.get?_empty _)]
  exact ⟨e₅, he₅, id, last, {
    size := Nat.le_trans (by decide) he₅.isIntact.heap.fixed
    outermost := ⟨_, p, hg₅, hparent₅, (Object.define_kind_of_scope hkind _).trans hkind,
      (Heap.own?_of_object? hg₅ _).trans hp, hvalue, hwritable⟩
    first := by
      rw [Heap.next?_of_eq_some hg₅, hparent₅, Option.bind_some,
        Heap.prototypeOf?_of_define hprototype (h.stocked _ c hc).prototype_writable]
    second := by
      rw [Heap.parentAt?, hid₅]
      rfl
    distinct := ⟨(Heap.ne_of_object? hg₂ hfresh₃).symm, hglobal.symm, Heap.ne_of_object? hlast₂ hfresh₃⟩
    missing := by
      rw [Heap.own?_of_object? hg₅, Object.define_of_ne (by decide), Heap.own?_of_object? hid₅]
      exact ⟨(h.stocked _ g hg).get?_eq_none (by decide), Properties.get?_empty _⟩
    found := ⟨_, hown, rfl⟩ }⟩

/-- The variable `prototype` of the global scope is assigned to, and another variable is gone: a host
has made an instance of the global scope the prototype of `Object`. -/
theorem Evaluator.assigned_takes_away : ∃ e, HostedFairly [] e ∧
    e.store.resolve? globalScope .prototype = some globalScope ∧
    e.store.lookup globalScope "n" = .ok .null ∧
    ∃ s', Store.assign globalScope "prototype" (.boolean true) e.store.toHeap = (.ok (), s') ∧
      s'.lookup globalScope "n" = .error (.undefinedName "n") := by
  obtain ⟨e, he, id, last, h⟩ :=
    exists_showsInstance (.realm {} none 0 1) (Heap.create_isUntouched {} none 0 1)
  exact ⟨e, he, h.assigned⟩

end Stepwise
