/-
What a new store holds.

The library stores everything under names that are written down in it, and only the
lengths of functions and the constants are read-only.  So what a script or a host stores
under any other name is new, and the links between constructors and prototypes are there
to be changed.  And since making objects leaves the parents of others alone, the global
scope inherits from `Object` still when the library is in.
-/
import Stepwise.Proofs.Hoisting
import Stepwise.Proofs.Permanence
import Stepwise.Proofs.Start

namespace Stepwise

namespace Library

/-- All functions of the library that are stored under their names. -/
def allFunctions : List LibraryFunction :=
  functionMethods ++ objectMethods ++ arrayMethods ++ numberMethods ++ stringMethods ++ booleanMethods ++
    dateStatics ++ dateMethods ++ mathFunctions ++ globalFunctions

/-- The names of what cannot be written. -/
def fixedNames : List String :=
  ["length", "Infinity", "NaN", "undefined"] ++ (numberConstants ++ mathConstants).map Prod.fst

/-- The names of all that the library stores. -/
def names : List String :=
  ["prototype", "constructor", "apply", "call", "Math", "self", "eval"] ++ pairs.map Pair.name ++
    allFunctions.map LibraryFunction.name ++ fixedNames

/-- The library has a place for the property under the name. -/
def Stocks (name : String) (p : Property) : Prop :=
  name ∈ names ∧ (p.readonly = true → name ∈ fixedNames)

/-- No name of the library is an index. -/
theorem ofText_ne_index {name : String} (h : name ∈ names) (i : Nat) : Key.ofText name ≠ .index i := by
  have hnames : (names.all fun name => (Key.readIndex? name.toList).isNone) = true := by decide
  have hnone := Option.isNone_iff_eq_none.mp (List.all_eq_true.mp hnames name h)
  unfold Key.ofText
  rw [hnone]
  exact nofun

theorem stocks_of_writable {name : String} (h : name ∈ names) {p : Property}
    (hwritable : p.readonly = false) : Stocks name p :=
  ⟨h, fun hreadonly => by rw [hwritable] at hreadonly; cases hreadonly⟩

theorem stocks_of_fixed {name : String} (h : name ∈ fixedNames) (p : Property) : Stocks name p :=
  ⟨List.mem_append_right _ h, fun _ => h⟩

end Library

/-- Everything that the object owns is as the library stores it. -/
def Object.IsStocked (o : Object) : Prop :=
  ∀ key p, o.properties.get? key = some p → ∃ name, key = .ofText name ∧ Library.Stocks name p

namespace Object.IsStocked

theorem new (parent : Option ObjectId) (kind : Kind) : (Object.new parent kind).IsStocked := by
  intro key p hp
  have hnone : (Object.new parent kind).properties.get? key = none := Properties.get?_empty key
  rw [hnone] at hp
  cases hp

theorem define {o : Object} (h : o.IsStocked) {name : String} {p : Property}
    (hp : Library.Stocks name p) : (o.define (.ofText name) p).IsStocked := by
  have hinsert (q : Property) (hq : q.readonly = p.readonly) (key : Key) (p' : Property)
      (hp' : (o.properties.insert (.ofText name) q).get? key = some p') :
      ∃ name, key = .ofText name ∧ Library.Stocks name p' := by
    rw [Properties.get?_insert] at hp'
    split at hp'
    · rename_i hkey
      cases hp'
      exact ⟨name, hkey.symm, hp.1, fun hreadonly => hp.2 (hq ▸ hreadonly)⟩
    · exact h key p' hp'
  intro key p' hp'
  cases hold : o.properties.get? (.ofText name) with
  | none =>
      rw [Object.define_of_none hold] at hp'
      exact hinsert p rfl key p' hp'
  | some old =>
      by_cases hreadonly : old.readonly = true
      · rw [Object.define_of_readonly hold hreadonly] at hp'
        exact h key p' hp'
      · rw [Object.define_of_writable hold (by simpa using hreadonly)] at hp'
        exact hinsert ⟨p.value, p.readonly, old.enumerable && p.enumerable⟩ rfl key p' hp'

variable {o : Object}

/-- Every object of a new store takes another prototype. -/
theorem prototype_writable (h : o.IsStocked) (p : Property)
    (hp : o.properties.get? .prototype = some p) : p.readonly = false := by
  obtain ⟨name, hname, -, hfixed⟩ := h _ p hp
  obtain rfl : "prototype" = name := Key.ofText_injective hname
  rw [← Bool.not_eq_true]
  exact fun hreadonly => absurd (hfixed hreadonly) (by decide)

/-- No object of a new store has a property that the library has no name for. -/
theorem get?_eq_none (h : o.IsStocked) {name : String}
    (hname : name ∉ Library.names) : o.properties.get? (.ofText name) = none := by
  rw [Option.eq_none_iff_forall_ne_some]
  intro p hp
  obtain ⟨name', heq, hlisted, -⟩ := h _ p hp
  exact hname (Key.ofText_injective heq ▸ hlisted)

end Object.IsStocked

/-! ### Installing -/

/-- An edit that stores only what the library stores. -/
def Edit.Stocks {α : Type} (act : Edit α) : Prop :=
  ∀ s : Heap, s.Every Object.IsStocked → (act s).2.Every Object.IsStocked

/-- The same on a store. -/
def Run.Stocks {α : Type} (act : Run α) : Prop :=
  ∀ s : Store, s.toHeap.Every Object.IsStocked → (act s).2.toHeap.Every Object.IsStocked

namespace Edit.Stocks

variable {α β : Type}

theorem pure (x : α) : Edit.Stocks (Pure.pure x : Edit α) := fun _ hs => hs

theorem bind {act : Edit α} {next : α → Edit β} (hact : Edit.Stocks act)
    (hnext : ∀ x, Edit.Stocks (next x)) : Edit.Stocks (act >>= next) := by
  intro s hs
  exact snd_bind (hact s hs) fun x => hnext x _ (hact s hs)

theorem forM {f : α → Edit PUnit} (xs : List α) (hf : ∀ x ∈ xs, Edit.Stocks (f x)) :
    Edit.Stocks (xs.forM f) := by
  induction xs with
  | nil => exact pure _
  | cons x rest ih =>
      obtain ⟨hx, hrest⟩ := List.forall_mem_cons.mp hf
      exact hx.bind fun _ => ih hrest

end Edit.Stocks

namespace Run.Stocks

variable {α β : Type}

theorem edit {act : Edit α} (hact : act.Stocks) : Run.Stocks (liftM act : Run α) :=
  fun s hs => hact s.toHeap hs

theorem bind {act : Run α} {next : α → Run β} (hact : Run.Stocks act)
    (hnext : ∀ x, Run.Stocks (next x)) : Run.Stocks (act >>= next) := by
  intro s hs
  exact snd_bind (P := fun t : Store => t.toHeap.Every Object.IsStocked) (hact s hs) fun x =>
    hnext x _ (hact s hs)

end Run.Stocks

namespace Library

open Store

theorem alloc_stocks (parent : Option ObjectId) (kind : Kind) :
    Edit.Stocks (alloc (.new parent kind)) := fun _ hs => hs.push (.new parent kind)

theorem define_stocks (id : ObjectId) {name : String} {p : Property} (h : Stocks name p) :
    Edit.Stocks (define id (.ofText name) p) := fun _ hs => hs.change id fun _ ho => ho.define h

theorem defineHidden_stocks (id : ObjectId) {name : String} (h : name ∈ names) (v : Value) :
    Edit.Stocks (defineHidden id name v) := define_stocks id (stocks_of_writable h rfl)

theorem defineFixed_stocks (id : ObjectId) {name : String} (h : name ∈ fixedNames) (v : Value) :
    Edit.Stocks (defineFixed id name v) := define_stocks id (stocks_of_fixed h _)

theorem allocFunction_stocks (callable : Callable) (arity : Nat) :
    Edit.Stocks (allocFunction callable arity) := by
  refine .bind (alloc_stocks _ _) fun f => .bind (alloc_stocks _ _) fun proto => ?_
  refine .bind (defineHidden_stocks _ (by decide) _) fun _ => ?_
  refine .bind (defineHidden_stocks _ (by decide) _) fun _ => ?_
  exact .bind (defineFixed_stocks _ (by decide) _) fun _ => .pure f

theorem installFunctions_stocks (target : ObjectId) {fs : List LibraryFunction}
    (h : ∀ f ∈ fs, f ∈ allFunctions) : Edit.Stocks (installFunctions target fs) := by
  refine .forM fs fun f hf => .bind (allocFunction_stocks _ _) fun id => defineHidden_stocks _ ?_ _
  have hname : f.name ∈ allFunctions.map LibraryFunction.name := List.mem_map_of_mem (h f hf)
  unfold names
  simp only [List.mem_append]
  exact .inl (.inr hname)

theorem installConstants_stocks (target : ObjectId) {constants : List (String × Float)}
    (h : ∀ c ∈ constants, c ∈ numberConstants ++ mathConstants) :
    Edit.Stocks (installConstants target constants) := by
  refine .forM constants fun c hc => defineFixed_stocks _ ?_ _
  exact List.mem_append_right _ (List.mem_map_of_mem (h c hc))

theorem installCallers_stocks : Edit.Stocks installCallers := by
  refine .bind (allocFunction_stocks _ _) fun apply => .bind (allocFunction_stocks _ _) fun call => ?_
  exact .bind (defineHidden_stocks _ (by decide) _) fun _ => defineHidden_stocks _ (by decide) _

theorem allocPlain_stocks : Edit.Stocks allocPlain := fun _ hs => hs.push (.new _ _)

theorem installMath_stocks : Edit.Stocks installMath := by
  refine .bind allocPlain_stocks fun math => .bind (defineHidden_stocks _ (by decide) _) fun _ => ?_
  refine .bind (installConstants_stocks _ fun c hc => List.mem_append_right _ hc) fun _ => ?_
  exact installFunctions_stocks _ fun f hf => by simp [allFunctions, hf]

theorem installGlobalValues_stocks : Edit.Stocks installGlobalValues := by
  refine .bind (defineFixed_stocks _ (by decide) _) fun _ => ?_
  refine .bind (defineFixed_stocks _ (by decide) _) fun _ => ?_
  exact .bind (defineFixed_stocks _ (by decide) _) fun _ => defineHidden_stocks _ (by decide) _

theorem installEval_stocks : Run.Stocks installEval := by
  refine .bind (fun _ hs => hs) fun allowed => ?_
  by_cases hallowed : allowed = true
  · rw [if_pos hallowed]
    refine .bind (.edit (allocFunction_stocks _ _)) fun eval => ?_
    exact .edit (defineHidden_stocks _ (by decide) _)
  · rw [if_neg hallowed]
    exact fun _ hs => hs

theorem installPairs_stocks {ps : List Pair} (h : ∀ p ∈ ps, p ∈ pairs) : Run.Stocks
    (ps.forM fun p => (defineHidden Intrinsic.globalScope p.name (.object p.constructor) : Run Unit)) := by
  induction ps with
  | nil => exact fun _ hs => hs
  | cons p rest ih =>
      obtain ⟨hp, hrest⟩ := List.forall_mem_cons.mp h
      refine .bind (.edit (defineHidden_stocks _ ?_ _)) fun _ => ih hrest
      have hname : p.name ∈ pairs.map Pair.name := List.mem_map_of_mem hp
      simp [names, hname]

/-- Installing the library stores what the library has a place for. -/
theorem install_stocks : Run.Stocks install := by
  have hfunctions (target : ObjectId) {fs : List LibraryFunction} (h : ∀ f ∈ fs, f ∈ allFunctions) :
      Run.Stocks (liftM (installFunctions target fs) : Run Unit) :=
    .edit (installFunctions_stocks target h)
  refine .bind (installPairs_stocks fun _ hp => hp) fun _ => .bind (.edit installCallers_stocks) fun _ => ?_
  refine .bind (hfunctions _ fun f hf => by simp [allFunctions, hf]) fun _ => ?_
  refine .bind (hfunctions _ fun f hf => by simp [allFunctions, hf]) fun _ => ?_
  refine .bind (hfunctions _ fun f hf => by simp [allFunctions, hf]) fun _ => ?_
  refine .bind (.edit (installConstants_stocks _ fun c hc => List.mem_append_left _ hc)) fun _ => ?_
  refine .bind (hfunctions _ fun f hf => by simp [allFunctions, hf]) fun _ => ?_
  refine .bind (hfunctions _ fun f hf => by simp [allFunctions, hf]) fun _ => ?_
  refine .bind (hfunctions _ fun f hf => by simp [allFunctions, hf]) fun _ => ?_
  refine .bind (hfunctions _ fun f hf => by simp [allFunctions, hf]) fun _ => ?_
  refine .bind (hfunctions _ fun f hf => by simp [allFunctions, hf]) fun _ => ?_
  refine .bind (.edit installMath_stocks) fun _ => .bind (.edit installGlobalValues_stocks) fun _ => ?_
  refine .bind (hfunctions _ fun f hf => by simp [allFunctions, hf]) fun _ => installEval_stocks

theorem fixedObjects_stocked {o : Object} (h : o ∈ fixedObjects) : o.IsStocked := by
  rcases List.mem_cons.mp h with rfl | h
  · exact .new _ _
  · obtain ⟨p, -, hp⟩ := List.mem_flatMap.mp h
    have hprototype : Stocks "prototype" ⟨.object p.prototype, false, false⟩ :=
      stocks_of_writable (by decide) rfl
    have hlength : Stocks "length" ⟨.ofNat p.arity, true, false⟩ := stocks_of_fixed (by decide) _
    have hconstructor : Stocks "constructor" ⟨.object p.constructor, false, false⟩ :=
      stocks_of_writable (by decide) rfl
    rcases List.mem_cons.mp hp with rfl | hp
    · exact ((Object.IsStocked.new _ _).define hprototype).define hlength
    · rw [List.mem_singleton.mp hp]
      exact (Object.IsStocked.new _ _).define hconstructor

end Library

namespace Store

variable (config : Config) (reader : Option SourceReader) (clock : Float) (seed : UInt64)

/-- **A new store holds what the library stores, and nothing else.**  All of it stands under names
of the library, and only lengths and constants are read-only. -/
theorem create_stocked : (create config reader clock seed).toHeap.Every Object.IsStocked := by
  unfold create
  refine Library.install_stocks _ fun id o ho => ?_
  have hget : Library.fixedObjects.toArray[id.index]? = some o := ho
  rw [List.getElem?_toArray] at hget
  exact Library.fixedObjects_stocked (List.mem_of_getElem? hget)

/-- Nothing in a new store has elements. -/
theorem create_lacks_elements :
    (create config reader clock seed).toHeap.Every fun o => ∀ i, o.properties.get? (.index i) = none := by
  intro id o ho i
  rw [Option.eq_none_iff_forall_ne_some]
  intro p hp
  obtain ⟨name, hkey, hname, -⟩ := create_stocked config reader clock seed id o ho _ p hp
  exact Library.ofText_ne_index hname i hkey.symm

/-- The objects at fixed places keep their parents, and the scope among them stays a scope. -/
theorem create_keeps : (bare config reader clock seed).toHeap.Keeps (fun _ _ => False)
    (create config reader clock seed).toHeap := by
  unfold create
  have hmoves : (bare config reader clock seed).toHeap.Moves (Licence.of fun _ => True).firm
      (Library.install (bare config reader clock seed)).2.toHeap :=
    Library.install_moves _ fun _ _ _ _ _ => trivial
  exact hmoves.keeps_all

end Store

namespace Heap

/-- What a new store has, and a host finds there: the global scope inherits from `Object`, whose
prototype it may replace. -/
structure IsUntouched (s : Heap) : Prop where
  intact : s.Intact []
  stocked : s.Every Object.IsStocked
  globalScope : ∃ o, s.object? Intrinsic.globalScope = some o ∧ o.parent = some Intrinsic.object ∧
    o.kind = .scope none

theorem create_isUntouched (config : Config) (reader : Option SourceReader) (clock : Float)
    (seed : UInt64) : (Store.create config reader clock seed).toHeap.IsUntouched where
  intact := Store.create_intact config reader clock seed
  stocked := Store.create_stocked config reader clock seed
  globalScope := by
    obtain ⟨o, ho, hkeeps⟩ := Store.create_keeps config reader clock seed Intrinsic.globalScope _ rfl
    exact ⟨o, ho, hkeeps.parent, hkeeps.scope none rfl⟩

theorem IsUntouched.constructor {s : Heap} (h : s.IsUntouched) : ∃ o, s.object? Intrinsic.object = some o :=
  ⟨_, Array.getElem?_eq_getElem (h.intact.has_fixed (by decide : Intrinsic.object.index < 15))⟩

end Heap

/-! ### An array of holes -/

theorem Object.resize_lacks_elements {o : Object} (h : ∀ i, o.properties.get? (.index i) = none) (length i : Nat) :
    (o.resize length).properties.get? (.index i) = none := by
  unfold resize
  split
  · dsimp only
    split
    · rw [Properties.get?_truncate_index, h i, ite_self]
    · exact h i
  · exact h i

/-- A host makes an array of so many holes, where no other object has elements. -/
theorem Evaluator.HostedFairly.exists_holes {roots : List ObjectId} {e : Evaluator} (he : HostedFairly roots e)
    (hempty : e.store.toHeap.Every fun o => ∀ i, o.properties.get? (.index i) = none) (length : Nat) :
    ∃ e', HostedFairly roots e' ∧ ∃ id, e'.store.object? id = some ((Store.arrayOf []).resize length) ∧
      e'.store.toHeap.Every fun o => ∀ i, o.properties.get? (.index i) = none := by
  rcases e with ⟨⟨s, config, evalDepth, outerFrames⟩, machine⟩
  have hmade := he.operate (.newArray []) nofun
  have hnew := Heap.object?_push s (Store.arrayOf []) ⟨s.objects.size⟩
  rw [if_pos rfl] at hnew
  refine ⟨_, hmade.operate (.setLength ⟨s.objects.size⟩ length) (Heap.has_of_object? hnew), _,
    Heap.object?_change_self hnew fun o => o.resize length, ?_⟩
  exact (Heap.Every.push hempty fun i => Properties.get?_empty _).change _ fun o ho => o.resize_lacks_elements ho length

end Stepwise
