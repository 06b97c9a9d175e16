/-
Where a script starts.

What is said of the runs of well-formed programs is said for heaps that are grammatical.
The store that an evaluator is made with is one: the library has no function that is
written in the language, and what installs it edits the heap as scripts do.  So all that
an evaluator of a well-formed program comes to is reached, in the sense of those runs,
whatever the host does to the store between two steps that keeps it grammatical.
-/
import Stepwise.Evaluator
import Stepwise.Proofs.Arena
import Stepwise.Proofs.Discipline

namespace Stepwise

namespace Library

/-- No object at a fixed place is a function of a script. -/
theorem fixedObjects_callable {o : Object} (h : o ∈ fixedObjects) (code : FunctionCode)
    (closure : ObjectId) : o.callable? ≠ some (.script code closure) := by
  intro hcode
  rcases List.mem_cons.mp h with rfl | h
  · cases hcode
  · obtain ⟨p, -, hp⟩ := List.mem_flatMap.mp h
    rcases List.mem_cons.mp hp with rfl | hp
    · simp only [Pair.constructorObject, Object.callable?_define] at hcode
      cases hcode
    · rw [List.mem_singleton.mp hp, Pair.prototypeObject, Object.callable?_define] at hcode
      cases hcode

/-- The objects at fixed places are new ones that properties are stored in under canonical keys. -/
theorem fixedObjects_induction {P : Object → Prop} (hnew : ∀ parent kind, P (.new parent kind))
    (hdefine : ∀ (o : Object) key p, key.IsCanonical → P o → P (o.define key p)) {o : Object}
    (h : o ∈ fixedObjects) : P o := by
  have hprototype : Key.prototype.IsCanonical := rfl
  have hconstructor : (Key.name "constructor").IsCanonical := rfl
  rcases List.mem_cons.mp h with rfl | h
  · exact hnew _ _
  · obtain ⟨p, -, hp⟩ := List.mem_flatMap.mp h
    rcases List.mem_cons.mp hp with rfl | hp
    · exact hdefine _ _ _ Key.length_isCanonical (hdefine _ _ _ hprototype (hnew _ _))
    · rw [List.mem_singleton.mp hp]
      exact hdefine _ _ _ hconstructor (hnew _ _)

/-! ### Installing -/

variable {l : Licence}

theorem defineHidden_moves (id : ObjectId) (name : String) (v : Value) :
    Edit.Moves l (Store.defineHidden id name v) := Store.defineText_moves _ _ _

theorem allocNative_moves (name : String) (code : NativeCode) (arity : Nat) :
    Edit.Moves l (Store.allocNative name code arity) :=
  Store.allocFunction_moves _ fun _ _ heq => by cases heq

theorem installFunctions_moves (target : ObjectId) (fs : List LibraryFunction) :
    Edit.Moves l (installFunctions target fs) :=
  .forM (fun _ => .bind (allocNative_moves _ _ _) fun _ => defineHidden_moves _ _ _) fs

theorem installConstants_moves (target : ObjectId) (constants : List (String × Float)) :
    Edit.Moves l (installConstants target constants) :=
  .forM (fun _ => Store.defineText_moves _ _ _) constants

theorem installCallers_moves : Edit.Moves l installCallers := by
  refine .bind (Store.allocFunction_moves _ fun _ _ heq => by cases heq) fun apply => ?_
  refine .bind (Store.allocFunction_moves _ fun _ _ heq => by cases heq) fun call => ?_
  exact .bind (defineHidden_moves _ _ _) fun _ => defineHidden_moves _ _ _

theorem installMath_moves : Edit.Moves l installMath :=
  .bind Store.allocPlain_moves fun math => .bind (defineHidden_moves _ _ _) fun _ =>
    .bind (installConstants_moves math _) fun _ => installFunctions_moves math _

theorem installGlobalValues_moves : Edit.Moves l installGlobalValues :=
  .bind (Store.defineText_moves _ _ _) fun _ => .bind (Store.defineText_moves _ _ _) fun _ =>
    .bind (Store.defineText_moves _ _ _) fun _ => defineHidden_moves _ _ _

theorem installEval_moves : Run.Moves l installEval := by
  refine .bind (.ask _) fun allowed => ?_
  cases allowed with
  | true =>
      refine .after_edit (Store.allocFunction_moves _ fun _ _ heq => by cases heq) fun eval => ?_
      exact .edit (defineHidden_moves _ _ _)
  | false => exact .pure _

/-- Installing the library makes moves. -/
theorem install_moves : Run.Moves l install := by
  have hpairs : Run.Moves l
      (pairs.forM fun p =>
        (Store.defineHidden Intrinsic.globalScope p.name (.object p.constructor) : Run Unit)) := by
    generalize pairs = ps
    induction ps with
    | nil => exact .pure _
    | cons p rest ih => exact .after_edit (defineHidden_moves _ _ _) fun _ => ih
  refine .bind hpairs fun _ => .after_edit installCallers_moves fun _ => ?_
  refine .after_edit (installFunctions_moves _ _) fun _ =>
    .after_edit (installFunctions_moves _ _) fun _ => ?_
  refine .after_edit (installFunctions_moves _ _) fun _ =>
    .after_edit (installConstants_moves _ _) fun _ => ?_
  refine .after_edit (installFunctions_moves _ _) fun _ =>
    .after_edit (installFunctions_moves _ _) fun _ => ?_
  refine .after_edit (installFunctions_moves _ _) fun _ =>
    .after_edit (installFunctions_moves _ _) fun _ => ?_
  refine .after_edit (installFunctions_moves _ _) fun _ => .after_edit installMath_moves fun _ => ?_
  refine .after_edit installGlobalValues_moves fun _ => ?_
  exact .after_edit (installFunctions_moves _ _) fun _ => installEval_moves

end Library

namespace Store

variable (config : Config) {reader : Option SourceReader} (clock : Float) (seed : UInt64)

/-- A reader that reads well-formed programs only. -/
def ReadsGrammatical (reader : Option SourceReader) : Prop :=
  ∀ read source p, reader = some read → read source = .ok p → p.isGrammatical = true

theorem bare_grammatical (hreader : ReadsGrammatical reader) :
    (bare config reader clock seed).Grammatical where
  functions := fun id o code closure ho hcode => by
    have hget : Library.fixedObjects.toArray[id.index]? = some o := ho
    rw [List.getElem?_toArray] at hget
    exact absurd hcode (Library.fixedObjects_callable (List.mem_of_getElem? hget) code closure)
  texts := fun source p hp => by
    cases reader with
    | none => cases hp
    | some read => exact hreader read source p rfl hp

/-- The store that a script starts with is grammatical. -/
theorem create_grammatical (hreader : ReadsGrammatical reader) :
    (create config reader clock seed).Grammatical := by
  have hbare := bare_grammatical config clock seed hreader
  have hmoves : (bare config reader clock seed).toHeap.Moves (.of Stepwise.Grammatical)
      (Library.install (bare config reader clock seed)).2.toHeap :=
    Library.install_moves _ hbare.supplies
  unfold create
  exact hmoves.grammatical hbare

/-- What the objects at fixed places have, and moves keep, all objects of a new store have. -/
theorem create_every {l : Licence} {P : Object → Prop} (hcode : ∀ code, l.code code)
    (hmove : ∀ s t : Heap, Heap.Move l s t → s.Every P → t.Every P)
    (hfixed : ∀ o ∈ Library.fixedObjects, P o) : (create config reader clock seed).toHeap.Every P := by
  have hbare : (bare config reader clock seed).toHeap.Every P := by
    intro id o ho
    have hget : Library.fixedObjects.toArray[id.index]? = some o := ho
    rw [List.getElem?_toArray] at hget
    exact hfixed o (List.mem_of_getElem? hget)
  have hmoves : (bare config reader clock seed).toHeap.Moves l
      (Library.install (bare config reader clock seed)).2.toHeap :=
    Library.install_moves _ fun _ _ code _ _ => hcode code
  unfold create
  exact hmoves.keeps hmove hbare

end Store

namespace Evaluator

/-- What an evaluator has come to is reached. -/
def IsReached (e : Evaluator) : Prop := Machine.Reached (e.machine, e.store)

/-- **An evaluator of a well-formed program starts out well**, however the host prepares its
store, as long as it puts no ill-formed function there. -/
theorem start_reached {p : Program} (hp : p.isGrammatical = true) {s : Store} (hs : s.Grammatical)
    {prepare : Run Unit} (hprepare : Run.Sound (fun _ => True) prepare) :
    (start p s prepare).IsReached := by
  have hhoist : Run.Sound (fun _ => True)
      (Run.edit (Store.hoist p.body Intrinsic.globalScope)) :=
    .edit_any (Store.hoist_moves _ _ fun name code hd => declarationsOf_grammatical p.body hp _ hd)
  exact .start hp (hprepare _ (hhoist s hs).1).1 _ _

/-- What a step leads to is reached. -/
theorem step_reached {e e' : Evaluator} {fuel : Nat} (h : e.IsReached)
    (hstep : e.step fuel = (.ok true, e')) : e'.IsReached := by
  rcases e with ⟨store, machine⟩
  rw [step] at hstep
  split at hstep
  · rename_i hnext
    cases hstep
    exact .next h (.step fuel hnext)
  · cases hstep
  · cases hstep

/-- A host may do to the store what keeps it grammatical. -/
theorem prepare_reached {e : Evaluator} (h : e.IsReached) {act : Run Unit}
    (hact : Run.Sound (fun _ => True) act) : (e.prepare act).IsReached :=
  .next h (.host (hact e.store h.sound.2).1)

theorem setGlobal_sound (name : String) (v : Value) : Run.Sound (fun _ => True) (setGlobal name v) :=
  .edit_any (Store.declare_moves _ _ _)

theorem lend_sound (f : HostFunction) : Run.Sound (fun _ => True) (lend f) :=
  .bind (.edit_any (Library.allocNative_moves _ _ _)) fun _ _ => setGlobal_sound _ _

end Evaluator

end Stepwise
