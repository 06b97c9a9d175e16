/-
Compound assignments.

`target op= rhs` reads its target, evaluates the right-hand side, and writes to the target
then.  Anything may happen in between: calls, deletions, other assignments, source text.
What the frame keeps of the target meanwhile is a base and a key for a member, and a name
for a variable.

So a member is written where it was read, whatever has happened.  A variable is looked for
a second time, and is written where it is found then: that is where it was read as long as
no scope has gained or lost the name.  If the right-hand side has taken the variable away,
no scope has it any more, and the assignment fails.
-/
import Stepwise.Proofs.Discipline
import Stepwise.Proofs.Instants

namespace Stepwise

/-! ### Addresses -/

/-- The object that has a place at the moment, and the key of the place in it. -/
def Reference.address? (s : Heap) (scope : ObjectId) : Reference → Option (Value × Key)
  | .variable name =>
    (s.resolve? scope (.ofText name)).map fun holder => (.object holder, .ofText name)
  | .property base key => some (base, key)

def Reference.isMember : Reference → Bool
  | .variable _ => false
  | .property _ _ => true

namespace Reference

variable {s : Heap} {scope : ObjectId} {target : Reference}

/-- A read that succeeds reads the property at the address. -/
theorem exists_address_of_read {v : Value} (h : target.read s scope = .ok v) :
    ∃ base key, target.address? s scope = some (base, key) ∧ s.getProperty base key = .ok v := by
  rcases target with name | ⟨base, key⟩
  · replace h : s.lookup scope name = .ok v := h
    unfold Heap.lookup at h
    rcases hholder : s.resolve? scope (.ofText name) with - | holder
    · rw [hholder] at h
      cases h
    · rw [hholder] at h
      exact ⟨.object holder, .ofText name, by rw [address?, hholder]; rfl, h⟩
  · exact ⟨base, key, rfl, h⟩

/-- A write sets the property at the address. -/
theorem write_of_address {base : Value} {key : Key} (h : target.address? s scope = some (base, key))
    (v : Value) : target.write scope v s = Store.setProperty base key v s := by
  rcases target with name | ⟨base, key⟩
  · obtain ⟨holder, hholder, heq⟩ := Option.map_eq_some_iff.mp h
    cases heq
    have hask : Edit.ask (fun s => s.resolve? scope (.ofText name)) s = (.ok (some holder), s) := by
      rw [Edit.ask, hholder]
    exact bind_of_ok hask
  · cases h
    rfl

/-- Without an address nothing is written; it is a variable then. -/
theorem write_of_no_address (h : target.address? s scope = none) (v : Value) :
    ∃ name, target = .variable name ∧ target.write scope v s = (.error (.undefinedName name), s) := by
  rcases target with name | ⟨base, key⟩
  · have hnone : s.resolve? scope (.ofText name) = none := Option.map_eq_none_iff.mp h
    have hask : Edit.ask (fun s => s.resolve? scope (.ofText name)) s = (.ok none, s) := by
      rw [Edit.ask, hnone]
    exact ⟨name, rfl, bind_of_ok hask⟩
  · cases h

end Reference

/-! ### Names that stay where they are -/

/-- No scope of a heap has gained or lost a name in another one, and none has moved. -/
structure Heap.SameName (key : Key) (s s' : Heap) : Prop where
  size : s.objects.size ≤ s'.objects.size
  outer : ∀ id, (s.object? id).isSome → (s'.object? id).bind Object.outerScope? =
    (s.object? id).bind Object.outerScope?
  has : ∀ id, (s.object? id).isSome → s'.hasOf id key = s.hasOf id key

namespace Heap

variable {s s' : Heap} {key : Key}

theorem hasOf_of_missing {id : ObjectId} (h : s.object? id = none) (key : Key) :
    s.hasOf id key = false := by
  have hfind : s.find? id key = none := by
    simp only [find?, walkFuel, findFrom, List.contains_nil, Bool.false_eq_true, if_false, h]
  simp only [hasOf, isArray, objectOf?, Value.objectId?, Option.bind_some, h, Option.any_none,
    Bool.and_false, stringData?, Option.map_none, hfind, Option.isSome_none, Bool.or_false]

/-- A search that finds a scope goes the same way where the name stays. -/
private theorem resolveFrom_eq_some (h : SameName key s s') :
    ∀ {fuel fuel' : Nat} {visited : List ObjectId} {id holder : ObjectId}, fuel ≤ fuel' →
      s.resolveFrom key fuel visited id = some holder →
      s'.resolveFrom key fuel' visited id = some holder := by
  intro fuel
  induction fuel with
  | zero => intro fuel' visited id holder _ hfound; cases hfound
  | succ fuel ih =>
      intro fuel' visited id holder hle hfound
      obtain ⟨more, rfl⟩ : ∃ more, fuel' = more + 1 := ⟨fuel' - 1, by omega⟩
      rcases ho : s.object? id with - | o
      · simp only [resolveFrom, hasOf_of_missing ho, ho, Option.bind_none, Bool.false_eq_true,
          if_false, ite_self, reduceCtorEq] at hfound
      · have hsome : (s.object? id).isSome := by rw [ho]; rfl
        simp only [resolveFrom, h.has id hsome, h.outer id hsome] at hfound ⊢
        split at hfound
        · cases hfound
        · rename_i hnew
          rw [if_neg hnew]
          split at hfound
          · rename_i hhas
            rwa [if_pos hhas]
          · rename_i hhas
            rw [if_neg hhas]
            split at hfound
            · exact ih (Nat.le_of_succ_le_succ hle) hfound
            · cases hfound

theorem SameName.resolve?_eq_some (h : SameName key s s') {scope holder : ObjectId}
    (hfound : s.resolve? scope key = some holder) : s'.resolve? scope key = some holder :=
  resolveFrom_eq_some h (Nat.succ_le_succ h.size) hfound

end Heap

/-- A place stays where it is if it is a member, or a variable whose name stays. -/
theorem Reference.address?_eq_some {s s' : Heap} {scope : ObjectId} {target : Reference}
    {base : Value} {key : Key} (h : target.address? s scope = some (base, key))
    (hkept : target.isMember = true ∨ Heap.SameName key s s') :
    target.address? s' scope = some (base, key) := by
  rcases target with name | ⟨base, key⟩
  · obtain ⟨holder, hholder, heq⟩ := Option.map_eq_some_iff.mp h
    cases heq
    rcases hkept with hmember | hname
    · cases hmember
    · rw [address?, hname.resolve?_eq_some hholder]
      rfl
  · exact h

/-! ### The two turns of a compound assignment -/

namespace Machine

variable {m : Machine} {s : Store} {f : Frame} {below : List Frame} {op : BinaryOp}

/-- What a compound assignment leaves in its frame while the right-hand side is evaluated. -/
def readyToWrite (f : Frame) (target : Reference) (op : BinaryOp) (old : Value) : Frame :=
  { f.taken with work := .assignValue target (some (op, old)) }

theorem value_of_target {f : Frame} {target : Reference} (h : f.target = .ok target) :
    f.value = some (.reference target) := by
  rcases f with ⟨work, - | v | r, scope, receiver, labels⟩ <;> cases h
  rfl

/-- The turn that reads has found the address, and asks for the right-hand side. -/
theorem exists_read_of_step {m' : Machine} {s' : Store} {run : NestedRun} {fuel : Nat} {rhs : Node}
    (hframes : m.frames = f :: below) (hwork : f.work = .assignTarget (.combine op) rhs)
    (h : step run fuel m s = (.ok (some m'), s')) :
    ∃ target base key old, f.value = some (.reference target) ∧
      target.address? s.toHeap (scope { m with frames := below }) = some (base, key) ∧
      s.getProperty base key = .ok old ∧ s' = s ∧
      m'.frames = .ofNode rhs false :: readyToWrite f target op old :: below := by
  obtain ⟨action, heap, hedit, hobey⟩ := exists_of_step_eq_ok hframes h
  simp only [Frame.resume, hwork] at hedit
  obtain ⟨target, heap₁, htarget, hnext⟩ := exists_of_run_bind_eq_ok hedit
  obtain ⟨hplace, rfl⟩ := Edit.query_eq_ok htarget
  obtain ⟨current, heap₂, hcurrent, hawait⟩ := exists_of_run_bind_eq_ok hnext
  obtain ⟨hquery, rfl⟩ := Edit.query_eq_ok hcurrent
  obtain ⟨old, hread, hcombined⟩ := exists_of_bind_eq_ok hquery
  cases hcombined
  cases hawait
  obtain ⟨base, key, haddress, hget⟩ := Reference.exists_address_of_read hread
  obtain ⟨rfl, rfl, -⟩ := push_eq_ok hobey
  exact ⟨target, base, key, old, value_of_target hplace, haddress, hget, rfl, rfl⟩

/-- How the step of a frame ends that has read `old` from a target, and in which the value `v` of
the right-hand side lies; `below` are the frames below it. -/
structure WritesBack (target : Reference) (scope : ObjectId) (op : BinaryOp) (old v : Value)
    (below : List Frame) (here : Machine × Store) : Prop where
  /-- The combined value is written where the target is now, and is handed down if it could be. -/
  found : ∀ fuel new base key, here.2.binary op old v = .ok new →
    target.address? here.2.toHeap scope = some (base, key) →
    step (runNested fuel) fuel here.1 here.2 =
      match Store.setProperty base key new here.2.toHeap with
      | (.ok _, heap) =>
        (.ok (some ({ here.1 with frames := below }.deliverValue new)), { here.2 with toHeap := heap })
      | (.error e, heap) => (.error e, { here.2 with toHeap := heap })
  /-- A variable that is nowhere any more is an error. -/
  lost : ∀ fuel new, here.2.binary op old v = .ok new → target.address? here.2.toHeap scope = none →
    ∃ name, target = .variable name ∧
      step (runNested fuel) fuel here.1 here.2 = (.error (.undefinedName name), here.2)

/-- The right-hand side of an assignment under way is an expression. -/
theorem Reached.isExpression_of_assignTarget {rhs : Node} (hreached : Reached (m, s))
    (hframes : m.frames = f :: below) (hwork : f.work = .assignTarget (.combine op) rhs) :
    rhs.isExpression = true := by
  obtain ⟨role, hplays⟩ := hreached.exists_plays hframes
  have hpermits := hplays.permits
  rw [hwork] at hpermits
  cases role with
  | expression promise => exact (Bool.and_eq_true_iff.mp hpermits).1
  | statement | body => cases hpermits

section

variable {target : Reference} {old v new : Value}

private theorem resume_assignValue (c : Context) {s : Heap} (hnew : s.binary op old v = .ok new) :
    ({ readyToWrite f target op old with value := some (.value v) } : Frame).resume c s =
      (target.write c.scope new >>= fun _ => return .deliverValue new) s := by
  have hassigned : Edit.query (fun s => assigned s (some (op, old)) v) s = (.ok new, s) := by
    simp only [Edit.query, assigned, hnew]
  exact bind_of_ok hassigned

theorem writesBack_of_frames
    (hframes : m.frames = { readyToWrite f target op old with value := some (.value v) } :: below) :
    WritesBack target (scope { m with frames := below }) op old v below (m, s) := by
  rcases m with ⟨frames, completion⟩
  obtain rfl := hframes
  constructor
  · intro fuel new base key hnew haddress
    have hwrite := Reference.write_of_address haddress new
    rcases hset : Store.setProperty base key new s.toHeap with ⟨e | u, heap⟩
    · rw [hset] at hwrite
      have hresume := (resume_assignValue (f := f) (context ⟨below, completion⟩) hnew).trans
        (bind_of_error hwrite)
      exact bind_of_error (bind_of_error (Run.liftM_eq hresume))
    · rw [hset] at hwrite
      have hresume := (resume_assignValue (f := f) (context ⟨below, completion⟩) hnew).trans
        (bind_of_ok hwrite)
      exact bind_of_ok (bind_of_ok (Run.liftM_eq hresume))
  · intro fuel new hnew haddress
    obtain ⟨name, htarget, hwrite⟩ := Reference.write_of_no_address haddress new
    have hresume := (resume_assignValue (f := f) (context ⟨below, completion⟩) hnew).trans
      (bind_of_error hwrite)
    exact ⟨name, htarget, bind_of_error (bind_of_error (Run.liftM_eq hresume))⟩

end

/-- **A compound assignment writes where its target is by then.**  When it has read its target,
from an address in the heap, its frame and the frames below it stay as they are until the
right-hand side has come to a value.  The combined value is written to the address of the
target at that time, which is the one it was read from if the target is a member, or if no
scope has gained or lost the name; where no scope has the name any more, the step fails. -/
theorem compound_writes_where_its_target_is {m₁ : Machine} {s₁ : Store} {rhs : Node} {fuel : Nat}
    (hreached : Reached (m, s)) (hframes : m.frames = f :: below)
    (hwork : f.work = .assignTarget (.combine op) rhs)
    (hstep : step (runNested fuel) fuel m s = (.ok (some m₁), s₁)) :
    ∃ target base key old, f.value = some (.reference target) ∧
      target.address? s.toHeap (scope { m with frames := below }) = some (base, key) ∧
      s.getProperty base key = .ok old ∧
      ∀ (run : Nat → Machine × Store) (n : Nat), run 0 = (m₁, s₁) →
        (∀ i < n, Next (run i) (run (i + 1))) →
        (∀ i ≤ n, StandsOn (readyToWrite f target op old :: below) (run i).1) ∨
        ∃ k ≤ n, (∀ i < k, StandsOn (readyToWrite f target op old :: below) (run i).1) ∧
          ∃ v, (run k).1.frames =
              { readyToWrite f target op old with value := some (.value v) } :: below ∧
            WritesBack target (scope { m with frames := below }) op old v below (run k) ∧
            (target.isMember = true ∨ Heap.SameName key s.toHeap (run k).2.toHeap →
              target.address? (run k).2.toHeap (scope { m with frames := below }) =
                some (base, key)) := by
  obtain ⟨target, base, key, old, hvalue, haddress, hget, rfl, hframes₁⟩ :=
    exists_read_of_step hframes hwork hstep
  refine ⟨target, base, key, old, hvalue, haddress, hget, fun run n hrun hnext => ?_⟩
  have hrhs := hreached.isExpression_of_assignTarget hframes hwork
  have hstart : (run 0).1.frames = [.ofNode rhs false] ++ readyToWrite f target op old :: below := by
    rw [hrun]
    exact hframes₁
  have hheap : (run 0).2.Grammatical := by
    rw [hrun]
    exact hreached.sound.2
  rcases run_onward rfl run (.floor (Frame.ofNode_plays_expression hrhs false)) hstart hheap n hnext with
    ⟨hstands, -⟩ | ⟨k, hk, hstands, c, hc, hgot⟩
  · exact .inl hstands
  · refine .inr ⟨k, hk, hstands, ?_⟩
    obtain ⟨v, rfl⟩ : ∃ v, c = .value v := by
      rw [show (Role.expression (rhs.promise false)).hands = .value from rhs.promise_false] at hc
      rcases c with v | name | ⟨base, key⟩
      · exact ⟨v, rfl⟩
      · cases hc
      · cases hc
    exact ⟨v, hgot, writesBack_of_frames hgot, Reference.address?_eq_some haddress⟩

/-- An evaluator of `x += rhs` in a scope with an empty text in `x`. -/
def addingToText (rhs : Node) : Evaluator where
  store := .holding #[(Object.new none (.scope none)).define (.ofText "x") (.plain (.string ""))]
  machine := .ofProgram ⟨[.expressionStatement (.assignment (.combine .add) (.identifier "x") rhs)]⟩
    ⟨0⟩ .undefined

theorem addingToText_reached (rhs : Node) (hrhs : rhs.isExpression = true) :
    Reached ((addingToText rhs).machine, (addingToText rhs).store) := by
  refine .start (by simp [Program.isGrammatical, areStatements, Node.isStatement, Node.isExpression, hrhs])
    ⟨fun id o code closure ho hcode => ?_, fun source p hp => by cases hp⟩ ⟨0⟩ .undefined
  obtain ⟨index⟩ := id
  cases index with
  | zero => cases ho; cases hcode
  | succ index => cases ho

/-- In `x += delete x` the variable is read, the right-hand side comes to a value, and the sum is
a value too; but there is nothing to write it to. -/
theorem compound_misses_a_deleted_variable :
    let x : Reference := .variable "x"
    let read := ((addingToText (.unary .delete (.identifier "x"))).run 0 4).2
    let ready := ((addingToText (.unary .delete (.identifier "x"))).run 0 8).2
    ∃ f below, read.machine.frames = f :: below ∧ f.value = some (.reference x) ∧
      f.work = .assignTarget (.combine .add) (.unary .delete (.identifier "x")) ∧
      x.address? read.store.toHeap ⟨0⟩ = some (.object ⟨0⟩, .ofText "x") ∧
      ready.machine.frames =
        { readyToWrite f x .add (.string "") with value := some (.value (.boolean true)) } :: below ∧
      ready.store.binary .add (.string "") (.boolean true) = .ok (.string "true") ∧
      (ready.step 0).1 = .error (.undefinedName "x") := by
  intro x read ready
  refine ⟨_, _, rfl, rfl, rfl, ?_, rfl, rfl, rfl⟩
  rfl

/-- `x += null` writes to the scope in which it has found `x`. -/
theorem compound_writes_where_its_target_is_text :
    let here (i : Nat) : Machine × Store :=
      let e := ((addingToText (.literal .null false)).run 0 i).2
      (e.machine, e.store)
    ∃ below, (here 4).1.frames.tail = below ∧
      WritesBack (.variable "x") ⟨0⟩ .add (.string "") .null below (here 6) ∧
      (Reference.variable "x").address? (here 6).2.toHeap ⟨0⟩ = some (.object ⟨0⟩, .ofText "x") := by
  intro here
  have hreached : Reached (here 4) :=
    .next (.next (.next (.next (addingToText_reached _ rfl) (.step 0 rfl)) (.step 0 rfl)) (.step 0 rfl))
      (.step 0 rfl)
  have hstep : step (runNested 0) 0 (here 4).1 (here 4).2 = (.ok (some (here 5).1), (here 5).2) := rfl
  obtain ⟨target, base, key, old, hvalue, haddress, hget, hruns⟩ :=
    compound_writes_where_its_target_is hreached rfl rfl hstep
  cases hvalue
  cases haddress
  cases hget
  refine ⟨_, rfl, ?_, rfl⟩
  have hnext : ∀ i < 1, Next (here (5 + i)) (here (5 + (i + 1))) := by
    intro i hi
    obtain rfl : i = 0 := by omega
    exact .step 0 rfl
  rcases hruns (fun i => here (5 + i)) 1 rfl hnext with hstands | ⟨k, hk, -, v, hgot, hback, -⟩
  · obtain ⟨above, hne, hframes⟩ := hstands 1 (Nat.le_refl 1)
    have hlength : 3 = above.length + 3 := (congrArg List.length hframes).trans List.length_append
    exact absurd (List.eq_nil_of_length_eq_zero (by omega)) hne
  · rcases Nat.le_one_iff_eq_zero_or_eq_one.mp hk with rfl | rfl
    · have hlength : 4 = 3 := congrArg List.length hgot
      cases hlength
    · have hv : v = .null := by
        have hvalue := congrArg (fun frames => frames.head?.bind Frame.value) hgot
        cases hvalue
        rfl
      rw [← hv]
      exact hback

end Machine

end Stepwise
