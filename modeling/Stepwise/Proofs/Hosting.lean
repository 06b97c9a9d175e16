/-
What a host finds.

A host makes a store with the library in it, makes objects of its own, calls library
functions, starts programs and steps them, in any order.  It says where things are by
their places, and so it can break a heap by naming a place where there is nothing.  A fair
host does not: it passes on what the heap knows, and a scope where a scope is called for.
That is no hardship, since all that an operation returns is known.

Whatever a fair host does, the heap is intact, and so is what is in progress: the machine
that runs, at every step, and the machines that wait for it while it evaluates source
text.  The library is installed on a heap that is intact from the start, the operations of
the host and the turns of frames keep it so.

A host may make a scope with no scope around it.  These are collected on the way, since a
chain of scopes may end in one of them.  Where there are none, all chains end in the
global scope.
-/
import Stepwise.Evaluator
import Stepwise.Proofs.Referring

namespace Stepwise

/-! ### The store that a script starts with -/

namespace Library

variable {roots : List ObjectId} {s : Heap}

/-- A constructor stands at a fixed place, and its prototype behind it. -/
theorem pair_fixed : ∀ p ∈ pairs, p.constructor.index < 15 ∧ p.prototype.index < 15 := by decide

theorem constructorObject_isIntact (hsize : 15 ≤ s.objects.size) {p : Pair} (hp : p ∈ pairs)
    (id : ObjectId) : p.constructorObject.IsIntact roots s id := by
  have hnew : (Object.new (some Intrinsic.function)
      (.function (.native ⟨p.name, .builtin p.code, p.arity⟩))).IsIntact roots s id := by
    refine .new (fun parent hparent => ?_) trivial
    cases hparent
    exact Nat.lt_of_lt_of_le (by decide) hsize
  have hprototype : s.Has p.prototype := Nat.lt_of_lt_of_le (pair_fixed p hp).2 hsize
  exact (hnew.define _ (Heap.knows_object.mpr hprototype)).define _ (Heap.knows_of_isPrimitive rfl)

theorem prototypeObject_isIntact (hsize : 15 ≤ s.objects.size) {p : Pair} (hp : p ∈ pairs)
    (id : ObjectId) : p.prototypeObject.IsIntact roots s id := by
  have hconstructor : s.Has p.constructor := Nat.lt_of_lt_of_le (pair_fixed p hp).1 hsize
  have hkind : Kind.ordinary.IsIntact roots s id := trivial
  unfold Pair.prototypeObject
  refine (Object.IsIntact.new (fun parent hparent => ?_) hkind).define
    (p := ⟨.object p.constructor, false, false⟩) _ (Heap.knows_object.mpr hconstructor)
  split at hparent <;> cases hparent
  exact Nat.lt_of_lt_of_le (by decide) hsize

/-- The fixed objects refer to each other only. -/
theorem fixedObjects_isIntact (hsize : 15 ≤ s.objects.size) {i : Nat} {o : Object}
    (h : fixedObjects[i]? = some o) : o.IsIntact roots s ⟨i⟩ := by
  cases i with
  | zero =>
      cases h
      refine .new (fun parent hparent => ?_) (.inl rfl)
      cases hparent
      exact Nat.lt_of_lt_of_le (by decide) hsize
  | succ i =>
      have ho : o ∈ pairs.flatMap fun p => [p.constructorObject, p.prototypeObject] :=
        List.mem_of_getElem? h
      obtain ⟨p, hp, ho⟩ := List.mem_flatMap.mp ho
      rcases List.mem_cons.mp ho with rfl | ho
      · exact constructorObject_isIntact hsize hp _
      · rw [List.mem_singleton.mp ho]
        exact prototypeObject_isIntact hsize hp _

/-! ### Installing -/

theorem defineHidden_keeps (id : ObjectId) (name : String) {v : Value} (hv : s.Knows v) :
    (Store.defineHidden id name v).Keeps roots s Heap.Anything := Store.define_keeps _ _ hv

theorem installFunctions_keeps (target : ObjectId) (fs : List LibraryFunction) :
    (installFunctions target fs).Keeps roots s Heap.Anything := by
  refine .forM fs fun f _ s₁ _ => ?_
  refine .bind (Store.allocNative_keeps _ _ _) fun id s₂ _ hid => ?_
  exact defineHidden_keeps _ _ (Heap.knows_object.mpr hid)

theorem installConstants_keeps (target : ObjectId) (constants : List (String × Float)) :
    (installConstants target constants).Keeps roots s Heap.Anything :=
  .forM constants fun _ _ _ _ => Store.define_keeps _ _ (Heap.knows_of_isPrimitive rfl)

theorem installCallers_keeps : installCallers.Keeps roots s Heap.Anything := by
  refine .bind (Store.allocFunction_keeps _ nofun) fun apply s₁ _ happly => ?_
  refine .bind (Store.allocFunction_keeps _ nofun) fun call s₂ hgrows₂ hcall => ?_
  have happly := Heap.knows_object.mpr (hgrows₂.has happly)
  refine .bind (defineHidden_keeps _ _ happly) fun _ s₃ hgrows₃ _ => ?_
  exact defineHidden_keeps _ _ (Heap.knows_object.mpr (hgrows₃.has hcall))

theorem installMath_keeps : installMath.Keeps roots s Heap.Anything := by
  refine .bind Store.allocPlain_keeps fun math s₁ _ hmath => ?_
  refine .bind (defineHidden_keeps _ _ (Heap.knows_object.mpr hmath)) fun _ s₂ _ _ => ?_
  exact .bind (installConstants_keeps _ _) fun _ s₃ _ _ => installFunctions_keeps _ _

theorem installGlobalValues_keeps (hglobal : s.Has Intrinsic.globalScope) :
    installGlobalValues.Keeps roots s Heap.Anything := by
  have hprimitive {v : Value} (hv : v.isPrimitive = true) (s : Heap) (name : String) :
      (Store.defineFixed Intrinsic.globalScope name v).Keeps roots s Heap.Anything :=
    Store.define_keeps _ _ (Heap.knows_of_isPrimitive hv)
  refine .bind (hprimitive rfl _ _) fun _ s₁ hgrows₁ _ => ?_
  refine .bind (hprimitive rfl _ _) fun _ s₂ hgrows₂ _ => ?_
  refine .bind (hprimitive rfl _ _) fun _ s₃ hgrows₃ _ => ?_
  have hglobal := hgrows₃.has (hgrows₂.has (hgrows₁.has hglobal))
  exact defineHidden_keeps _ _ (Heap.knows_object.mpr hglobal)

theorem installEval_keeps {s : Store} : installEval.Keeps roots s Heap.Anything := by
  have hallowed : (Run.ask fun s => s.config.allowEval).Keeps roots s Heap.Anything :=
    .query fun _ _ => trivial
  refine .bind hallowed fun allowed s₁ _ _ => ?_
  cases allowed with
  | true =>
      refine .bind (.edit (Store.allocFunction_keeps _ nofun)) fun eval s₂ _ heval => ?_
      exact .edit (defineHidden_keeps _ _ (Heap.knows_object.mpr heval))
  | false => exact .pure trivial

theorem installPairs_keeps {s : Store} {ps : List Pair} (hps : ps ⊆ pairs) :
    Run.Keeps roots s Heap.Anything (ps.forM fun p =>
      (Store.defineHidden Intrinsic.globalScope p.name (.object p.constructor) : Run Unit)) := by
  induction ps generalizing s with
  | nil => exact .pure trivial
  | cons p rest ih =>
      obtain ⟨hp, hrest⟩ := List.cons_subset.mp hps
      refine .bind (P := Heap.Anything) (.of_intact fun hs => ?_) fun _ s' _ _ => ih hrest
      have hconstructor := hs.has_fixed (pair_fixed p hp).1
      exact .edit (defineHidden_keeps _ _ (Heap.knows_object.mpr hconstructor))

/-- Installing the library keeps the heap intact. -/
theorem install_keeps (s : Store) : install.Keeps roots s Heap.Anything := by
  refine .bind (installPairs_keeps (List.Subset.refl pairs)) fun _ s₁ _ _ => ?_
  refine .bind (.edit installCallers_keeps) fun _ s₂ _ _ => ?_
  refine .bind (.edit (installFunctions_keeps _ _)) fun _ s₃ _ _ => ?_
  refine .bind (.edit (installFunctions_keeps _ _)) fun _ s₄ _ _ => ?_
  refine .bind (.edit (installFunctions_keeps _ _)) fun _ s₅ _ _ => ?_
  refine .bind (.edit (installConstants_keeps _ _)) fun _ s₆ _ _ => ?_
  refine .bind (.edit (installFunctions_keeps _ _)) fun _ s₇ _ _ => ?_
  refine .bind (.edit (installFunctions_keeps _ _)) fun _ s₈ _ _ => ?_
  refine .bind (.edit (installFunctions_keeps _ _)) fun _ s₉ _ _ => ?_
  refine .bind (.edit (installFunctions_keeps _ _)) fun _ s₁₀ _ _ => ?_
  refine .bind (.edit (installFunctions_keeps _ _)) fun _ s₁₁ _ _ => ?_
  refine .bind (.edit installMath_keeps) fun _ s₁₂ _ _ => .of_intact fun hs => ?_
  refine .bind (.edit (installGlobalValues_keeps hs.globalScope.has)) fun _ s₁₃ _ _ => ?_
  exact .bind (.edit (installFunctions_keeps _ _)) fun _ s₁₄ _ _ => installEval_keeps

end Library

namespace Store

variable {roots : List ObjectId} (config : Config) (reader : Option SourceReader) (clock : Float)
  (seed : UInt64)

theorem bare_intact : (bare config reader clock seed).toHeap.Intact roots where
  objects := fun id o ho => by
    have hget : Library.fixedObjects.toArray[id.index]? = some o := ho
    rw [List.getElem?_toArray] at hget
    have hsize : 15 ≤ (bare config reader clock seed).objects.size := Nat.le_refl 15
    exact Library.fixedObjects_isIntact hsize hget
  fixed := Nat.le_refl 15
  globalScope := ⟨none, rfl⟩

/-- The store that a script starts with is intact. -/
theorem create_intact : (create config reader clock seed).toHeap.Intact roots := by
  unfold create
  exact (Library.install_keeps _ (bare_intact config reader clock seed)).1

end Store

/-! ### Hosts -/

/-- What a host does to a heap, apart from running a script over it. -/
inductive HostOperation where
  | newObject (parent : Option ObjectId)
  | newArray (elements : List Value)
  | newScope (outer : Option ObjectId)
  | newFunction (code : FunctionCode) (closure : ObjectId)
  | newNative (name : String) (code : NativeCode) (arity : Nat)
  | define (id : ObjectId) (key : Key) (p : Property)
  | write (target : Value) (key : Key) (v : Value)
  | delete (target : Value) (key : Key)
  | setLength (id : ObjectId) (length : Nat)
  | assign (scope : ObjectId) (name : String) (v : Value)
  | hoist (body : List Node) (scope : ObjectId)
  | call (code : NativeCode) (receiver : Value) (args : List Value)
  | setReader (reader : SourceReader)

namespace HostOperation

/-- Carry the operation out, and return what there is to return. -/
def perform : HostOperation → Edit Value
  | newObject parent => return .object (← Store.allocInstance parent)
  | newArray elements => return .object (← Store.allocArray elements)
  | newScope outer => return .object (← Store.allocScope outer)
  | newFunction code closure => return .object (← Store.allocScript code closure)
  | newNative name code arity => return .object (← Store.allocNative name code arity)
  | define id key p => do
    Store.define id key p
    return .undefined
  | write target key v => do
    Store.setProperty target key v
    return .undefined
  | delete target key => return .boolean (← Store.deleteProperty target key)
  | setLength id length => do
    Store.setLength id length
    return .undefined
  | assign scope name v => do
    Store.assign scope name v
    return .undefined
  | hoist body scope => do
    Store.hoist body scope
    return .undefined
  | call code receiver args => code.call receiver args
  | setReader reader => do
    Edit.commit fun s => { s with reader := some reader }
    return .undefined

/-- A host is fair if it passes known values, and scopes where scopes are called for. -/
def IsFair (s : Heap) : HostOperation → Prop
  | newObject parent => ∀ id, parent = some id → s.Has id
  | newArray elements => s.KnowsAll elements
  | newScope outer => ∀ id, outer = some id → s.IsScope id
  | newFunction _ closure => s.IsScope closure
  | define id _ p => s.Has id ∧ s.Knows p.value
  | write target _ v => s.Knows target ∧ s.Knows v
  | delete target _ => s.Knows target
  | setLength id _ => s.Has id
  | assign scope _ v => s.IsScope scope ∧ s.Knows v
  | hoist _ scope => s.IsScope scope
  | call _ receiver args => s.Knows receiver ∧ s.KnowsAll args
  | newNative _ _ _ | setReader _ => True

/-- The scopes that an operation makes with no scope around them. -/
def rootsIn (s : Heap) : HostOperation → List ObjectId
  | newScope none => [⟨s.objects.size⟩]
  | _ => []

variable {roots : List ObjectId} {s : Heap}

private theorem newScope_keeps {outer : Option ObjectId} (h : (newScope outer).IsFair s)
    (hroots : (newScope outer).rootsIn s ⊆ roots) :
    (Store.allocScope outer).Keeps roots s Heap.Has := by
  cases outer with
  | some outer => exact (Store.allocScope_keeps (h outer rfl)).weaken fun _ _ hid => hid.has
  | none =>
      have hroot : Kind.IsIntact roots s ⟨s.objects.size⟩ (.scope none) :=
        .inr (hroots (List.mem_singleton_self _))
      have hnew : (Object.new none (.scope none)).IsIntact roots s ⟨s.objects.size⟩ :=
        .new (fun p hp => by cases hp) hroot
      exact (Store.alloc_keeps fun _ => hnew).weaken fun _ _ hid => hid.1

/-- **A fair operation keeps the heap intact**, and what it returns is known. -/
theorem perform_keeps {op : HostOperation} (h : op.IsFair s) (hroots : op.rootsIn s ⊆ roots) :
    op.perform.Keeps roots s Heap.Knows := by
  have hmade {s' : Heap} {id : ObjectId} (hid : s'.Has id) :
      (Pure.pure (.object id) : Edit Value).Keeps roots s' Heap.Knows :=
    .pure (Heap.knows_object.mpr hid)
  have hdone (s' : Heap) {v : Value} (hv : v.isPrimitive = true) :
      (Pure.pure v : Edit Value).Keeps roots s' Heap.Knows :=
    .pure (Heap.knows_of_isPrimitive hv)
  cases op with
  | newObject parent =>
      refine .bind (Store.allocInstance_keeps fun _ => h) fun id s' _ hid => hmade hid.1
  | newArray elements => exact .bind (Store.allocArray_keeps h) fun _ _ _ hid => hmade hid
  | newScope outer => exact .bind (newScope_keeps h hroots) fun _ _ _ hid => hmade hid
  | newFunction code closure =>
      exact .bind (Store.allocScript_keeps code h) fun _ _ _ hid => hmade hid
  | newNative name code arity =>
      exact .bind (Store.allocNative_keeps _ _ _) fun _ _ _ hid => hmade hid
  | define id key p => exact .bind (Store.define_keeps _ _ h.2) fun _ _ _ _ => hdone _ rfl
  | write target key v =>
      exact .bind (Store.setProperty_keeps _ _ h.2) fun _ _ _ _ => hdone _ rfl
  | delete target key => exact .bind (Store.deleteProperty_keeps _ _) fun _ _ _ _ => hdone _ rfl
  | setLength id length => exact .bind (Store.setLength_keeps _ _) fun _ _ _ _ => hdone _ rfl
  | assign scope name v => exact .bind (Store.assign_keeps _ _ h.2) fun _ _ _ _ => hdone _ rfl
  | hoist body scope => exact .bind (Store.hoist_keeps _ h) fun _ _ _ _ => hdone _ rfl
  | call code receiver args => exact code.call_keeps h.1 h.2
  | setReader reader =>
      exact .bind (.commit fun hs => hs.of_objects_eq rfl) fun _ _ _ _ => hdone _ rfl

end HostOperation

/-! ### What is in progress -/

/-- The heap is intact, and the machine that runs and those that wait refer to what is in it. -/
structure Instant.IsIntact (roots : List ObjectId) (p : Instant) : Prop where
  heap : p.store.toHeap.Intact roots
  running : p.machine.Known p.store.toHeap
  waiting : ∀ m ∈ p.waiting, m.Known p.store.toHeap

namespace Machine

variable {roots : List ObjectId}

end Machine

/-! ### What a fair host comes to -/

namespace Evaluator

/-- What a fair host comes to, with the scopes that it has made with no scope around them.  A
realm without a program is an evaluator that has nothing to do. -/
inductive HostedFairly : List ObjectId → Evaluator → Prop where
  | realm (config : Config) (reader : Option SourceReader) (clock : Float) (seed : UInt64) :
      HostedFairly [] ⟨Store.create config reader clock seed, .idle⟩
  | start (p : Program) {roots : List ObjectId} {e : Evaluator} (he : HostedFairly roots e) :
      HostedFairly roots (start p e.store (pure ()))
  | operate (op : HostOperation) {roots : List ObjectId} {e : Evaluator}
      (he : HostedFairly roots e) (hfair : op.IsFair e.store.toHeap) :
      HostedFairly (op.rootsIn e.store.toHeap ++ roots)
        { e with store := (Run.edit op.perform e.store).2 }
  | step (fuel : Nat) {roots : List ObjectId} {e : Evaluator} (he : HostedFairly roots e) :
      HostedFairly roots (e.step fuel).2

/-- What is to see of an evaluator between two steps. -/
def instant (e : Evaluator) : Instant := ⟨e.machine, [], e.store⟩

variable {roots : List ObjectId} {e : Evaluator}

/-- No machine waits between two steps. -/
theorem instant_isIntact (hs : e.store.toHeap.Intact roots) (hm : e.machine.Known e.store.toHeap) :
    e.instant.IsIntact roots :=
  ⟨hs, hm, fun _ hw => absurd hw List.not_mem_nil⟩

theorem step_isIntact (he : e.instant.IsIntact roots) (fuel : Nat) :
    (e.step fuel).2.instant.IsIntact roots := by
  rcases e with ⟨s, m⟩
  have hm : m.Known s.toHeap := he.running
  obtain ⟨hs', hgrows, hnext⟩ :=
    Machine.step_keeps (Machine.runNested_keeps fuel) fuel hm he.heap
  rw [step]
  split
  all_goals
    rename_i heq
    rw [heq] at hs' hgrows hnext
  · exact instant_isIntact hs' (hnext _ rfl _ rfl)
  · exact instant_isIntact hs' (hm.mono hgrows)
  · -- the frames of a script that has failed are gone
    refine instant_isIntact hs' ⟨fun _ hf => ?_, hgrows.knows hm.completion⟩
    exact absurd hf List.not_mem_nil

theorem operate_isIntact (he : e.instant.IsIntact roots) {op : HostOperation}
    (hfair : op.IsFair e.store.toHeap) :
    Instant.IsIntact (op.rootsIn e.store.toHeap ++ roots)
      (instant { e with store := (Run.edit op.perform e.store).2 }) := by
  have hkeeps := Run.Keeps.edit (HostOperation.perform_keeps hfair (List.subset_append_left _ roots))
  obtain ⟨hs', hgrows, -⟩ := hkeeps (he.heap.moreRoots (List.subset_append_right _ _))
  exact instant_isIntact hs' (he.running.mono hgrows)

theorem start_isIntact (he : e.instant.IsIntact roots) (p : Program) :
    (start p e.store (pure ())).instant.IsIntact roots := by
  have hglobal := he.heap.globalScope
  have hhoist : (Run.edit (Store.hoist p.body Intrinsic.globalScope)).Keeps roots e.store
      Heap.Anything := .edit (Store.hoist_keeps _ hglobal)
  obtain ⟨hs', hgrows, -⟩ := hhoist he.heap
  have hglobal' := hgrows.isScope hglobal
  refine instant_isIntact hs' ⟨fun f hf => ?_, Heap.knows_of_isPrimitive rfl⟩
  rw [List.mem_singleton.mp hf]
  exact Frame.opening_known _ hglobal' (Heap.knows_object.mpr hglobal'.has)

/-- **A fair host keeps everything intact.** -/
theorem HostedFairly.isIntact (he : HostedFairly roots e) : e.instant.IsIntact roots := by
  induction he with
  | realm config reader clock seed =>
      exact instant_isIntact (Store.create_intact config reader clock seed) Machine.idle_known
  | start p _ ih => exact start_isIntact ih p
  | operate op _ hfair ih => exact operate_isIntact ih hfair
  | step fuel _ ih => exact step_isIntact ih fuel

/-- What a host makes is new, and everything else is still there. -/
theorem HostedFairly.exists_pushed (he : HostedFairly roots e) (op : HostOperation)
    (hfair : op.IsFair e.store.toHeap) (hroots : op.rootsIn e.store.toHeap = []) {o : Object}
    (hpush : (op.perform e.store.toHeap).2 =
      { e.store.toHeap with objects := e.store.objects.push o }) :
    ∃ e' id, HostedFairly roots e' ∧ e.store.object? id = none ∧ e'.store.object? id = some o ∧
      ∀ j x, e.store.object? j = some x → e'.store.object? j = some x := by
  have he' := he.operate op hfair
  rw [hroots] at he'
  have hheap : (Run.edit op.perform e.store).2.toHeap =
      { e.store.toHeap with objects := e.store.objects.push o } := hpush
  refine ⟨_, ⟨e.store.objects.size⟩, he', Array.getElem?_eq_none (Nat.le_refl _), ?_, fun j x hx => ?_⟩
  · show (Run.edit op.perform e.store).2.toHeap.object? _ = _
    rw [hheap, Heap.object?_push, if_pos rfl]
  · show (Run.edit op.perform e.store).2.toHeap.object? j = _
    rw [hheap, Heap.object?_push_of_eq_some hx]

/-- A host makes an array of primitives. -/
theorem HostedFairly.exists_array (he : HostedFairly roots e) {values : List Value}
    (hvalues : ∀ v ∈ values, v.isPrimitive = true) :
    ∃ e' id, HostedFairly roots e' ∧ e'.store.object? id = some (Store.arrayOf values) := by
  obtain ⟨e', id, he', -, ho, -⟩ := he.exists_pushed (.newArray values)
    (fun v hv => Heap.knows_of_isPrimitive (hvalues v hv)) rfl rfl
  exact ⟨e', id, he', ho⟩

/-- A host stores a property in an object. -/
theorem HostedFairly.exists_defined (he : HostedFairly roots e) {id : ObjectId} {o : Object}
    (ho : e.store.object? id = some o) (key : Key) {p : Property} (hp : e.store.Knows p.value) :
    ∃ e', HostedFairly roots e' ∧ e'.store.object? id = some (o.define key p) ∧
      ∀ j, j ≠ id → e'.store.object? j = e.store.object? j :=
  ⟨_, he.operate (.define id key p) ⟨Heap.has_of_object? ho, hp⟩,
    Heap.object?_change_self ho fun o => o.define key p,
    fun _ hj => Heap.object?_change_of_ne hj fun o => o.define key p⟩

/-- A library function makes a wrapper of a primitive, and leaves every other object. -/
theorem HostedFairly.exists_wrapper (he : HostedFairly roots e) {constructor : ObjectId} {payload : Value}
    (hprimitive : payload.isPrimitive = true)
    (hwrap : Wrapping.object .undefined [payload] = Wrapping.wrap constructor payload) :
    ∃ e' id o, HostedFairly roots e' ∧ e'.store.object? id = some o ∧ o.kind = .wrapper payload ∧
      (∀ key, o.properties.get? key = none) ∧ ∀ j, j ≠ id → e'.store.object? j = e.store.object? j := by
  rcases e with ⟨⟨s, config, evalDepth, outerFrames⟩, machine⟩
  have hcalled := he.operate (.call (.builtin .objectConstructor) .undefined [payload])
    ⟨Heap.knows_of_isPrimitive rfl, fun v hv => by
      rw [List.mem_singleton.mp hv]
      exact Heap.knows_of_isPrimitive hprimitive⟩
  let o : Object := .new (some constructor) (s.instanceKind (some constructor))
  have hnew := Heap.object?_push s o ⟨s.objects.size⟩
  rw [if_pos rfl] at hnew
  refine ⟨_, ⟨s.objects.size⟩, { o with kind := .wrapper payload }, hcalled, ?_, rfl, Properties.get?_empty, ?_⟩
  · show (Wrapping.object .undefined [payload] s).2.object? _ = _
    rw [hwrap]
    exact Heap.object?_change_self hnew fun o => { o with kind := .wrapper payload }
  · intro j hj
    show (Wrapping.object .undefined [payload] s).2.object? j = s.object? j
    rw [hwrap]
    refine (Heap.object?_change_of_ne hj fun o => { o with kind := .wrapper payload }).trans ?_
    rw [Heap.object?_push, if_neg hj]

end Evaluator

end Stepwise
