/-
Turns as moves.

What happens between one instant and the next makes moves on the heap, and sets a length
last.  For the turn of a frame this comes down to its two halves.  The frame chooses an
action, and a frame that may set a length in this does not call anything; the action then
leaves the heap alone, unless it is a call.  A call of a library function sets a length
last, and all other calls set none.
-/
import Stepwise.Proofs.Keys
import Stepwise.Proofs.Walks

namespace Stepwise

/-! ### What is left for an action -/

def Action.isCall : Action → Bool
  | .invoke _ _ => true
  | _ => false

namespace Frame

variable {f : Frame}

private theorem nextElement_calls_nothing (array : ObjectId) :
    ∀ (elements : List (Option Node)) (index : Nat),
      Edit.Yields (fun a => a.isCall = false) (f.nextElement array index elements) := by
  intro elements
  induction elements with
  | nil => exact fun index => .bind fun _ => .pure rfl
  | cons element rest ih =>
      intro index
      cases element with
      | none => exact ih (index + 1)
      | some e => exact .pure rfl

private theorem nextName_calls_nothing (c : Context) (names : Enumeration) (body : Node) :
    Edit.Yields (fun a => a.isCall = false) (f.nextName c names body) := by
  refine .bind fun next => ?_
  split
  · exact .pure rfl
  · exact .bind fun _ => .pure rfl

/-- A frame that may set a length calls nothing. -/
theorem resume_calls_nothing (c : Context) (h : f.work.mayCut = true) :
    Edit.Yields (fun a => a.isCall = false) (f.resume c) := by
  rcases f with ⟨work, value, scope, receiver, labels⟩
  cases work with
  | node n wantsReference =>
      cases n with
      | arrayLiteral elements => exact .bind fun array => nextElement_calls_nothing array elements 0
      | _ => cases h
  | initializer name => exact .bind fun _ => .pure rfl
  | forInObject target body => exact .bind fun names => nextName_calls_nothing c names body
  | forInNext names body => exact nextName_calls_nothing c names body
  | element array index rest => exact .bind fun _ => nextElement_calls_nothing array rest _
  | assignValue target current => exact .bind fun _ => .bind fun _ => .pure rfl
  | update op leading => exact .bind fun _ => .bind fun _ => .pure rfl
  | _ => cases h

end Frame

namespace Machine

variable {l : Licence} {run : NestedRun} {fuel : Nat} {m : Machine} {f g : Frame} {s s' : Store}

/-- Only a call changes the store after a frame has chosen its action. -/
theorem obey_store_eq {a : Action} (h : a.isCall = false) : (obey run fuel m a s).2 = s := by
  cases a with
  | invoke g call => cases h
  | _ => rfl

section

variable (hcode : ∀ code, l.code code)

include hcode

theorem openSource_moves (caller : Context) (source : String) :
    Run.Moves l (openSource caller source) := by
  refine .bind (.query _) fun program => ?_
  refine .after_edit (Store.allocScope_moves _) fun scope => ?_
  exact .after_edit (Store.hoist_moves _ _ fun _ code _ => hcode code) fun _ => .pure _

private theorem evaluate_moves (hrun : ∀ n, Run.Moves l (run n)) (caller : Context) (depth : Nat)
    (args : List Value) : Run.Moves l (evaluate run caller depth args) := by
  unfold evaluate
  split
  · exact .pure _
  · rw [evaluateSource_eq]
    refine .bind (openSource_moves hcode _ _) fun g s hs => ?_
    have hnested : Run.Moves l (idle.push g >>= run) := .bind (.query _) hrun
    exact hnested (s.nesting depth) hs
  · exact .pure _

private theorem invoke_cutsLast (hrun : ∀ n, Run.Moves l.firm (run n)) (call : PendingCall) :
    Run.CutsLast l (invoke run fuel m f call) := by
  refine .bind (.edit (.query _)) fun invocation => ?_
  rcases invocation with ⟨code, closure, receiver, args⟩ | ⟨native, receiver, args⟩ | args
  · refine .of_moves (.after_edit (activate_moves _ _ fun _ code _ => hcode code) fun scope => ?_)
    exact .query _
  · exact .andReturn (.edit (native.code.call_cutsLast receiver args)) _
  · dsimp only
    split
    · exact .of_moves (.query _)
    · exact .of_moves (.bind (evaluate_moves (l := l.firm) hcode hrun _ _ _) fun _ => .pure _)

private theorem obey_cutsLast (hrun : ∀ n, Run.Moves l.firm (run n)) (a : Action) :
    Run.CutsLast l (obey run fuel m a) := by
  cases a with
  | invoke g call => exact invoke_cutsLast hcode hrun call
  | await | become | breakTo | continueAt | returnWith => exact .of_moves (.query _)
  | again | deliver | leave | complete => exact .of_moves (.pure _)

/-- **A turn makes moves, and sets a length last**, if the machines nested in it make moves. -/
theorem turn_cutsLast (hrun : ∀ n, Run.Moves l.firm (run n)) (hkeys : f.KeyedBy l.key) :
    Run.CutsLast l (turn run fuel m f) := by
  cases hcut : f.work.mayCut with
  | false =>
      refine .bind (.edit ?_) fun a => obey_cutsLast hcode hrun a
      exact f.resume_moves _ hkeys (fun code _ _ => hcode code) hcut
  | true =>
      intro s hs
      have hresumed := f.resume_cutsLast m.context hkeys (fun code _ _ => hcode code) s.toHeap hs
      rcases hresume : f.resume m.context s.toHeap with ⟨e | a, heap⟩
      · rw [hresume] at hresumed
        rw [turn, bind_of_error (Run.liftM_eq hresume)]
        exact hresumed
      · have hcall := Frame.resume_calls_nothing m.context hcut _ _ _ hresume
        rw [hresume] at hresumed
        rw [turn, bind_of_ok (Run.liftM_eq hresume), obey_store_eq hcall]
        exact hresumed

/-- What a turn does before another machine begins sets no length. -/
theorem nested?_moves (hkeys : f.KeyedBy l.key) (h : nested? fuel m f s = some (g, s')) :
    s.toHeap.Moves l.firm s'.toHeap := by
  obtain ⟨s₂, hevaluated, rfl⟩ := nested?_eq_some h
  obtain ⟨action, source, s₁, hresume, hsource, hopen⟩ := evaluated_eq_some hevaluated
  obtain ⟨heap, hedit, rfl⟩ := Run.exists_of_liftM_eq_ok hresume
  have hcut : f.work.mayCut = false := by
    cases hcut : f.work.mayCut with
    | false => rfl
    | true =>
        have hcall := Frame.resume_calls_nothing m.context hcut _ _ _ hedit
        cases action with
        | invoke g call => cases hcall
        | _ => cases hsource
  have hfirst := f.resume_moves (l := l.firm) m.context hkeys (fun code _ _ => hcode code) hcut
    s.toHeap fun _ _ code _ _ => hcode code
  have hsecond := openSource_moves (l := l.firm) hcode m.context source
    { s with toHeap := heap } fun _ _ code _ _ => hcode code
  rw [hedit] at hfirst
  rw [hopen] at hsecond
  exact hfirst.trans hsecond

/-- A turn that runs no other machine makes moves. -/
theorem turn_movesThenCut (hkeys : f.KeyedBy l.key) (halone : nested? fuel m f s = none) :
    s.toHeap.MovesThenCut l (turn (runNested fuel) fuel m f s).2.toHeap := by
  have hnone : ∀ g s', evaluated fuel m f s ≠ (.ok (some g), s') := by
    intro g s' hevaluated
    rw [nested?_of_evaluated hevaluated] at halone
    cases halone
  -- no machine is run, so it does not matter that this one would leave the heap alone
  rw [turn_of_not_evaluated hnone (runNested fuel) (runNested 0)]
  exact turn_cutsLast hcode (fun _ => .query _) hkeys s fun _ _ code _ _ => hcode code

/-! What nested machines do within a turn may set lengths at any time. -/

private theorem obey_moves (hcuts : l.cuts) (hrun : ∀ n, Run.Moves l (run n)) (a : Action) :
    Run.Moves l (obey run fuel m a) := by
  cases a with
  | invoke g call =>
      refine .after_edit (.query _) fun invocation => ?_
      rcases invocation with ⟨code, closure, receiver, args⟩ | ⟨native, receiver, args⟩ | args
      · refine .after_edit (activate_moves _ _ fun _ code _ => hcode code) fun scope => ?_
        exact .query _
      · exact .after_edit ((native.code.call_cutsLast receiver args).moves hcuts) fun _ => .pure _
      · dsimp only
        split
        · exact .query _
        · exact .bind (evaluate_moves hcode hrun _ _ _) fun _ => .pure _
  | await | become | breakTo | continueAt | returnWith => exact .query _
  | again | deliver | leave | complete => exact .pure _

/-- **A step makes moves**, if the machines nested in it do. -/
theorem step_moves (hcuts : l.cuts) (hrun : ∀ n, Run.Moves l (run n)) (hkeys : m.KeyedBy l.key) :
    Run.Moves l (step run fuel m) := by
  rcases m with ⟨- | ⟨f, below⟩, completion⟩
  · exact .pure _
  · have hresume (c : Context) : Edit.Moves l (f.resume c) :=
      (f.resume_cutsLast c (hkeys f List.mem_cons_self) fun code _ _ => hcode code).moves hcuts
    have hturn : Run.Moves l (turn run fuel ⟨below, completion⟩ f) :=
      .after_edit (hresume _) fun a => obey_moves hcode hcuts hrun a
    exact .bind hturn fun _ => .pure _

end

/-- Whatever source text is run, it makes moves. -/
theorem runNested_moves : ∀ (fuel : Nat) (m : Machine),
    Run.Moves (.of fun _ => True) (runNested fuel m) := by
  intro fuel
  induction fuel with
  | zero => exact fun m => .query _
  | succ fuel ih =>
      intro m
      refine .bind (step_moves (fun _ => trivial) trivial ih fun f _ => f.keyedBy_any) fun next => ?_
      cases next with
      | none => exact .pure _
      | some m' => exact ih m'

end Machine

/-! ### Instants -/

namespace Instant

variable {p q : Instant}

/-- All machines keep keys of `P` only. -/
def KeyedBy (P : Key → Prop) (p : Instant) : Prop :=
  p.machine.KeyedBy P ∧ ∀ m ∈ p.waiting, m.KeyedBy P

theorem Next.keyedBy {P : Key → Prop} (hP : ∀ key : Key, key.IsCanonical → P key) (h : p.Next q)
    (hp : p.KeyedBy P) : q.KeyedBy P := by
  obtain ⟨hmachine, hwaiting⟩ := hp
  cases h with
  | turn halone h =>
      obtain ⟨hf, hm⟩ := List.forall_mem_cons.mp hmachine
      exact ⟨Machine.KeyedBy.turn hP hm hf h, hwaiting⟩
  | nest h =>
      obtain ⟨-, hm⟩ := List.forall_mem_cons.mp hmachine
      exact ⟨fun _ hf => absurd hf List.not_mem_nil, List.forall_mem_cons.mpr ⟨hm, hwaiting⟩⟩
  | begin body scope receiver =>
      refine ⟨fun f hf => ?_, hwaiting⟩
      rw [List.mem_singleton.mp hf]
      exact Frame.opening_keyedBy _ _ _
  | @hand m v waiting s s' hheap =>
      obtain ⟨hm, hwaiting⟩ := List.forall_mem_cons.mp hwaiting
      refine ⟨fun f hf => ?_, hwaiting⟩
      rw [Machine.deliverValue, Machine.deliver_frames] at hf
      exact handTo_keyedBy (.value v) hm f hf

variable {l : Licence} (hcode : ∀ code, l.code code)

include hcode

/-- **What comes next makes moves**, and sets a length last. -/
theorem Next.movesThenCut (h : p.Next q) (hp : p.KeyedBy l.key) :
    p.store.toHeap.MovesThenCut l q.store.toHeap := by
  cases h with
  | turn halone h =>
      have hmoves := Machine.turn_movesThenCut hcode (hp.1 _ List.mem_cons_self) halone
      rw [h] at hmoves
      exact hmoves
  | nest h =>
      have hmoves := Machine.nested?_moves hcode (hp.1 _ List.mem_cons_self) h
      exact ⟨_, _, hmoves, .refl, .refl⟩
  | begin body scope receiver => exact .refl _
  | hand hheap =>
      rw [hheap]
      exact .refl _

theorem FailsWith.movesThenCut {heap : Heap} (h : p.FailsWith heap) (hp : p.KeyedBy l.key) :
    p.store.toHeap.MovesThenCut l heap := by
  cases h with
  | turn halone h =>
      have hmoves := Machine.turn_movesThenCut hcode (hp.1 _ List.mem_cons_self) halone
      rw [h] at hmoves
      exact hmoves
  | stay => exact .refl _

end Instant

end Stepwise
