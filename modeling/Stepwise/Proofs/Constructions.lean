/-
Calls in the course of a run.

A call has a frame of its own.  As soon as the callee is known, `new` makes the object that it
constructs; then the arguments are evaluated, one after the other, and then the body of a script
function runs.  All the while the frame waits on the frames below it, and nothing that runs above it
touches what it keeps.  So the call that is made in the end is the one that has begun, with the values
that were passed to it (`passed`), and `new` delivers what it made in the beginning unless the function
returns another object.
-/
import Stepwise.Proofs.Activations
import Stepwise.Proofs.Iterations
import Stepwise.Proofs.Permanence

namespace Stepwise

/-! ### The object that `new` makes -/

/-- A call of `new` makes an object, and nothing else happens to the heap. -/
structure Heap.Makes (s : Heap) (call : PendingCall) (made : ObjectId) (s' : Heap) : Prop where
  callable : s.isCallable (.object call.callee) = true
  receiver : call.receiver = .object made
  constructed : call.constructed = some (.object made)
  fresh : s.object? made = none
  /-- The function is its parent, and it is an array if the function inherits from `Array` now. -/
  object : s'.object? made = some ⟨some call.callee, .empty,
    if s.inherits call.callee Intrinsic.array then .array 0 else .ordinary⟩
  kept : ∀ id o, s.object? id = some o → s'.object? id = some o

theorem isCallable_of_calledFunction {s : Heap} {scope callee : ObjectId} {constructs : Bool}
    {completion : Option Completion} {receiver : Value}
    (h : calledFunction s scope constructs completion = .ok (callee, receiver)) :
    s.isCallable (.object callee) = true := by
  obtain ⟨⟨found, receiver', name⟩, -, h⟩ := exists_of_bind_eq_ok h
  cases found with
  | object id =>
      dsimp only at h
      split at h
      · rename_i hcallable
        cases h
        exact hcallable
      · cases h
  | _ => cases h

theorem beginCall_eq_ok {s s' : Heap} {scope : ObjectId} {constructs : Bool} {completion : Option Completion}
    {call : PendingCall} (h : beginCall scope constructs completion s = (.ok call, s')) :
    call.arguments = #[] ∧ (constructs = true → ∃ made, s.Makes call made s') := by
  unfold beginCall at h
  obtain ⟨⟨callee, receiver⟩, s₁, hcalled, hbegun⟩ := exists_of_run_bind_eq_ok h
  obtain ⟨hcalled, rfl⟩ := Edit.query_eq_ok hcalled
  by_cases hconstructs : constructs = true
  · dsimp only at hbegun
    rw [if_pos hconstructs] at hbegun
    obtain ⟨made, s₂, hmade, hreturn⟩ := exists_of_run_bind_eq_ok hbegun
    cases hreturn
    cases hmade
    refine ⟨rfl, fun _ => ⟨_, isCallable_of_calledFunction hcalled, rfl, rfl, ?_, ?_, fun id o ho => ?_⟩⟩
    · exact Array.getElem?_eq_none (Nat.le_refl _)
    · rw [Heap.object?_push, if_pos rfl]
      rfl
    · exact Heap.object?_push_of_eq_some ho _
  · dsimp only at hbegun
    rw [if_neg hconstructs] at hbegun
    cases hbegun
    exact ⟨rfl, fun h => absurd h hconstructs⟩

/-- An object keeps its parent. -/
theorem Heap.Changes.parentAt? {l : Licence} {s t : Heap} (h : s.Changes l t) {id parent : ObjectId}
    (hparent : s.parentAt? id = some parent) : t.parentAt? id = some parent := by
  obtain ⟨o, ho, hparent⟩ := Option.bind_eq_some_iff.mp hparent
  obtain ⟨o', ho', hkeeps⟩ := h.keeps id o ho
  rw [Heap.parentAt?, ho', Option.bind_some, hkeeps.parent, hparent]

/-! ### The frame of a call -/

/-- One frame stands on a base. -/
theorem WorksOn.of_eq {base frames : List Frame} {g : Frame} {P : Work → Prop}
    (h : WorksOn base P frames) (above : List Frame) (hframes : frames = above ++ g :: base) : P g.work := by
  obtain ⟨above', g', rfl, hwork⟩ := h
  obtain ⟨-, hsame⟩ := List.append_inj' hframes rfl
  rw [← (List.cons.inj hsame).1]
  exact hwork

/-- The call with these values as its arguments. -/
def PendingCall.given (call : PendingCall) (values : List Value) : PendingCall :=
  { call with arguments := values.toArray }

theorem PendingCall.given_with (call : PendingCall) (values : List Value) (v : Value) :
    (call.given values).with v = call.given (values ++ [v]) := by
  simp [PendingCall.with, given]

theorem PendingCall.given_nil {call : PendingCall} (h : call.arguments = #[]) : call.given [] = call := by
  obtain ⟨callee, receiver, constructed, values⟩ := call
  obtain rfl : values = #[] := h
  rfl

/-- What is left to do for a call when some values were passed to it. -/
inductive CallWork (arguments : List Node) (call : PendingCall) (values : List Value) : Work → Prop where
  /-- The next argument is evaluated above. -/
  | argument (hmore : values.length < arguments.length) : CallWork arguments call values
      (.argument (call.given values) (arguments.drop (values.length + 1)))
  /-- All are there, and the body of a function runs above. -/
  | running (hall : values.length = arguments.length) : CallWork arguments call values (.running call.constructed)

/-- The value that a frame passes to its call when its turn comes. -/
def Frame.argument? (f : Frame) : Option Value :=
  match f.work with
  | .argument _ _ => some f.result
  | _ => none

namespace Machine

/-- A machine goes on: it takes a step, or the host does something to the heap meanwhile. -/
inductive Continues : Machine × Store → Machine × Store → Prop where
  | step {m m' : Machine} {s s' : Store} (fuel : Nat)
      (h : step (runNested fuel) fuel m s = (.ok (some m'), s')) : Continues (m, s) (m', s')
  | host (m : Machine) (s : Store) (op : HostOperation) : Continues (m, s) (m, (Run.edit op.perform s).2)

/-- The value that is passed to the call on a base between two instants, if one is: then it is the turn
of the call, and something stands on it afterwards. -/
def passed? (base : List Frame) (here there : Machine × Store) : Option Value :=
  if here.1.depth = base.length + 1 ∧ there.1.depth = base.length + 2 then
    here.1.frames.head?.bind Frame.argument?
  else none

/-- The values that were passed to the call on a base in the first steps of a run. -/
def passed (base : List Frame) (trace : Nat → Machine × Store) (n : Nat) : List Value :=
  (List.range n).filterMap fun i => passed? base (trace i) (trace (i + 1))

theorem passed_succ (base : List Frame) (trace : Nat → Machine × Store) (n : Nat) :
    passed base trace (n + 1) = passed base trace n ++ (passed? base (trace n) (trace (n + 1))).toList := by
  rw [passed, List.range_succ, List.filterMap_append]
  rfl

/-- The body of a script function begins on a base: of the one that the call has become, with what
it is called with. -/
def Enters (base : List Frame) (call : PendingCall) (s : Heap) (there : Machine × Store) : Prop :=
  ∃ n last code closure scope f, call.call.after s n = some last ∧ last.Runs s code closure ∧
    s.Activates code closure last.args scope there.2.toHeap ∧
    there.1.frames = .opening code.body scope last.receiver :: f :: base ∧
    f.work = .running call.constructed ∧ there.1.context = ⟨scope, last.receiver⟩

/-- The body of a function runs above the call on a base. -/
abbrev RunsOn (base frames : List Frame) : Prop := WorksOn base (fun work => work.isRunning = true) frames

section

variable {base : List Frame} {arguments rest : List Node} {call : PendingCall} {values : List Value}
  {run : NestedRun} {fuel : Nat} {m m' : Machine} {s s' : Store} {f : Frame} {here there : Machine × Store}

/-- If something is put on for a call, it is the body of a script function. -/
theorem invoke_enters (h : invoke run fuel m f call s = (.ok m', s')) (hdepth : m.depth < m'.depth) :
    Enters m.frames call s.toHeap (m', s') := by
  rcases exists_of_invoke_eq_ok h with
    ⟨v, rfl⟩ | ⟨code, closure, receiver, args, scope, heap, hresolve, hactivate, rfl, rfl⟩
  · rw [depth, depth, deliverValue, deliver_frames, length_handTo] at hdepth
    exact absurd hdepth (Nat.lt_irrefl _)
  · obtain ⟨n, last, -, hafter, hruns, rfl, rfl⟩ := Invocation.Call.exists_after_runs
      (show call.call.resolve s.toHeap fuel = _ from hresolve)
    obtain ⟨_, _, hactivated, hbound⟩ := activate_activates code closure last.args s.toHeap
    rw [hactivate] at hactivated
    cases hactivated
    exact ⟨n, last, code, closure, scope, _, hafter, hruns, hbound, rfl, rfl, rfl⟩

/-- A call that goes on waits for the next argument, or the body of a function begins. -/
theorem nextArgument_worksOn
    (h : obey run fuel m (f.nextArgument (call.given values)
      (arguments.drop values.length)) s = (.ok m', s'))
    (hvalues : values.length ≤ arguments.length) (hdepth : m.depth < m'.depth) :
    WorksOn m.frames (CallWork arguments call values) m'.frames ∧ m'.depth = m.depth + 2 ∧
      (∀ id o, s.object? id = some o → s'.object? id = some o) ∧
      (RunsOn m.frames m'.frames →
        Enters m.frames (call.given values) s.toHeap (m', s')) := by
  cases hrest : arguments.drop values.length with
  | nil =>
      rw [hrest] at h
      obtain ⟨n, last, code, closure, scope, g, -, -, hbound, hframes, hwork, -⟩ := invoke_enters h hdepth
      have hall : values.length = arguments.length := by
        have := List.drop_eq_nil_iff.mp hrest
        omega
      refine ⟨⟨[_], g, hframes, ?_⟩, ?_, hbound.kept, fun _ => invoke_enters h hdepth⟩
      · rw [hwork]
        exact .running hall
      · rw [depth, hframes]
        rfl
  | cons node more =>
      rw [hrest] at h
      obtain ⟨rfl, rfl, -⟩ := push_eq_ok h
      have hmore : values.length < arguments.length := by
        have := congrArg List.length hrest
        rw [List.length_drop, List.length_cons] at this
        omega
      have hdrop : more = arguments.drop (values.length + 1) := by
        rw [← List.drop_drop, hrest]
        rfl
      refine ⟨⟨[.ofNode node false], _, rfl, ?_⟩, rfl, fun _ _ ho => ho, fun hruns => ?_⟩
      · show CallWork arguments call values (.argument _ more)
        rw [hdrop]
        exact .argument hmore
      · cases hruns.of_eq [.ofNode node false] rfl

/-- The turn of a call that waits for an argument passes it. -/
theorem step_argument {g : Frame} (hframes : m.frames = g :: base)
    (hwork : g.work = .argument (call.given values) (arguments.drop (values.length + 1)))
    (hmore : values.length < arguments.length) (hstep : step run fuel m s = (.ok (some m'), s'))
    (hstands : StandsOn base m') :
    passed? base (m, s) (m', s') = some g.result ∧
      WorksOn base (CallWork arguments call (values ++ [g.result])) m'.frames ∧
      (RunsOn base m'.frames → Enters base (call.given (values ++ [g.result])) s.toHeap (m', s')) := by
  obtain ⟨a, heap, hresume, hobey⟩ := exists_of_step_eq_ok hframes hstep
  rw [Frame.resume, hwork] at hresume
  cases hresume
  rw [PendingCall.given_with, show values.length + 1 = (values ++ [g.result]).length by simp] at hobey
  have hvalues : (values ++ [g.result]).length ≤ arguments.length := by simp; omega
  obtain ⟨hworks, hdepth, -, henters⟩ := nextArgument_worksOn hobey hvalues hstands.length_lt
  refine ⟨?_, hworks, henters⟩
  rw [passed?, if_pos ⟨by rw [depth, hframes]; rfl, hdepth⟩, hframes]
  show g.argument? = _
  rw [Frame.argument?, hwork]

/-- The turn of a call whose body is over delivers what the call comes to. -/
theorem step_running {g : Frame} {constructed : Option Value} (hframes : m.frames = g :: base)
    (hwork : g.work = .running constructed) (run : NestedRun) (fuel : Nat) (s : Store) :
    step run fuel m s =
      (.ok (some { m with frames := handTo (.value (outcome constructed g.result)) base }), s) := by
  rcases m with ⟨frames, completion⟩
  obtain rfl : frames = g :: base := hframes
  have hresume : g.resume (context ⟨base, completion⟩) s.toHeap =
      (.ok (.deliverValue (outcome constructed g.result)), s.toHeap) := by
    rw [Frame.resume, hwork]
    rfl
  have hdeliver (c : Completion) : deliver ⟨base, completion⟩ c = ⟨handTo c base, completion⟩ := by
    cases base <;> rfl
  rw [← hdeliver]
  exact bind_of_ok (bind_of_ok (Run.liftM_eq hresume))

/-- **From one instant to the next a call waits, or it is passed a value**, as long as something
stands on the base. -/
theorem Continues.callWork (hnext : Continues here there)
    (h : WorksOn base (CallWork arguments call values) here.1.frames) (hstands : StandsOn base there.1) :
    WorksOn base (CallWork arguments call (values ++ (passed? base here there).toList)) there.1.frames ∧
      (¬RunsOn base here.1.frames → RunsOn base there.1.frames →
        Enters base (call.given (values ++ (passed? base here there).toList)) here.2.toHeap there) := by
  obtain ⟨above, g, hframes, hwork⟩ := h
  cases hnext with
  | host m s op =>
      have hnone : passed? base (m, s) (m, (Run.edit op.perform s).2) = none := by
        refine if_neg fun h => ?_
        dsimp only at h
        omega
      rw [hnone, Option.toList_none, List.append_nil]
      exact ⟨⟨above, g, hframes, hwork⟩, fun hnot hruns => absurd hruns hnot⟩
  | @step m m' s s' fuel hstep =>
      cases above with
      | nil =>
          generalize hg : g.work = work at hwork
          cases hwork with
          | argument hmore =>
              obtain ⟨hpassed, hworks, henters⟩ := step_argument hframes hg hmore hstep hstands
              rw [hpassed]
              exact ⟨hworks, fun _ => henters⟩
          | running hall =>
              rw [step_running hframes hg] at hstep
              cases hstep
              have hlength := hstands.length_lt
              rw [length_handTo] at hlength
              exact absurd hlength (Nat.lt_irrefl _)
      | cons f rest =>
          obtain ⟨c, a, heap, -, hleaves⟩ := exists_action_of_step hframes hstep
          have hnone : passed? base (m, s) (m', s') = none := by
            refine if_neg fun h => ?_
            have hdepth := h.1
            rw [depth, hframes] at hdepth
            simp only [List.cons_append, List.length_cons, List.length_append] at hdepth
            omega
          rw [hnone, Option.toList_none, List.append_nil]
          obtain ⟨above', g', hframes', hsame⟩ : WorksOn base (· = g.work) m'.frames :=
            .leaves ⟨rest, g, rfl, rfl⟩ hleaves hstands.length_lt
          refine ⟨⟨above', g', hframes', hsame ▸ hwork⟩, fun hnot hruns => ?_⟩
          have hrunning : g'.work.isRunning = true := hruns.of_eq above' hframes'
          rw [hsame] at hrunning
          exact absurd ⟨f :: rest, g, hframes, hrunning⟩ hnot

end

/-- What every change of a heap keeps is kept as the machine goes on. -/
theorem Continues.keeps {P : Heap → Prop} {here there : Machine × Store}
    (hP : ∀ s t : Heap, s.Changes (.of fun _ => True) t → P s → P t) (h : Continues here there)
    (hs : P here.2.toHeap) : P there.2.toHeap := by
  cases h with
  | host m s op => exact Evaluator.handle_keeps hP ⟨s, m⟩ hs (.operate op)
  | @step m m' s s' fuel hstep =>
      have hkept := Evaluator.handle_keeps hP ⟨s, m⟩ hs (.step fuel)
      rw [Evaluator.handle, Evaluator.step, hstep] at hkept
      exact hkept

/-! ### Calls -/

/-- The callee of a call on a base is known, and the call takes its turn: it begins, in a heap where
`new` has made its object, and something stands on the base afterwards. -/
structure CallBegins (base : List Frame) (constructs : Bool) (arguments : List Node) (call : PendingCall)
    (heap : Heap) (here there : Machine × Store) : Prop where
  frames : ∃ f, here.1.frames = f :: base ∧ f.work = .callee constructs arguments ∧
    beginCall (scopeOf base) constructs f.value here.2.toHeap = (.ok call, heap)
  step : ∃ fuel, Machine.step (runNested fuel) fuel here.1 here.2 = (.ok (some there.1), there.2)

/-- What becomes of a call on a base in the first steps of a run. -/
structure Calls (base : List Frame) (arguments : List Node) (call : PendingCall) (heap : Heap)
    (trace : Nat → Machine × Store) (n : Nat) : Prop where
  /-- It waits for the next argument or for the body, with the values that were passed to it. -/
  waits : ∀ i, 0 < i → i ≤ n →
    WorksOn base (CallWork arguments call (passed base trace i)) (trace i).1.frames
  /-- The body of a function begins with these values for its arguments. -/
  enters : ∀ i < n, ¬RunsOn base (trace i).1.frames → RunsOn base (trace (i + 1)).1.frames →
    Enters base (call.given (passed base trace (i + 1))) (if i = 0 then heap else (trace i).2.toHeap)
      (trace (i + 1))

section

variable {base : List Frame} {constructs : Bool} {arguments : List Node} {call : PendingCall} {heap : Heap}
  {trace : Nat → Machine × Store} {n : Nat}

theorem CallBegins.callWork {here there : Machine × Store}
    (h : CallBegins base constructs arguments call heap here there) (hstands : StandsOn base there.1) :
    passed? base here there = none ∧ ¬RunsOn base here.1.frames ∧
      WorksOn base (CallWork arguments call []) there.1.frames ∧
      (∀ id o, heap.object? id = some o → there.2.object? id = some o) ∧
      (RunsOn base there.1.frames → Enters base (call.given []) heap there) := by
  obtain ⟨f, hframes, hwork, hbegin⟩ := h.frames
  obtain ⟨fuel, hstep⟩ := h.step
  obtain ⟨a, heap₁, hresume, hobey⟩ := exists_of_step_eq_ok hframes hstep
  rw [Frame.resume, hwork] at hresume
  obtain ⟨call', heap₂, hbegin', hnext⟩ := exists_of_run_bind_eq_ok hresume
  obtain ⟨hcall, rfl⟩ := Prod.mk.inj (hbegin.symm.trans hbegin')
  obtain rfl := Except.ok.inj hcall
  cases hnext
  rw [← PendingCall.given_nil (beginCall_eq_ok hbegin).1] at hobey
  obtain ⟨hworks, -, hkept, henters⟩ := nextArgument_worksOn (show obey _ _ _
    (f.taken.nextArgument (call.given []) (arguments.drop ([] : List Value).length)) _ = _ from hobey)
    (Nat.zero_le _) hstands.length_lt
  refine ⟨?_, fun hruns => ?_, hworks, hkept, henters⟩
  · have hnone : f.argument? = none := by rw [Frame.argument?, hwork]
    rw [passed?, hframes, List.head?_cons, Option.bind_some, hnone, ite_self]
  · have hrunning := hruns.of_eq [] hframes
    rw [hwork] at hrunning
    cases hrunning

/-- **A call that has begun waits, until the body begins**, with all that was passed to it. -/
theorem calls_of_begins (hbegins : CallBegins base constructs arguments call heap (trace 0) (trace 1))
    (hnext : ∀ i < n, Continues (trace i) (trace (i + 1))) (hstands : ∀ i ≤ n, StandsOn base (trace i).1) :
    Calls base arguments call heap trace n := by
  have hwaits : ∀ i, 0 < i → i ≤ n →
      WorksOn base (CallWork arguments call (passed base trace i)) (trace i).1.frames := by
    intro i
    induction i with
    | zero => exact fun h => absurd h (Nat.lt_irrefl 0)
    | succ i ih =>
        intro _ hi
        rw [passed_succ]
        by_cases hzero : i = 0
        · subst hzero
          obtain ⟨hnone, -, hworks, -, -⟩ := hbegins.callWork (hstands 1 hi)
          rw [hnone]
          exact hworks
        · have hhere := ih (Nat.pos_of_ne_zero hzero) (Nat.le_of_succ_le hi)
          exact ((hnext i hi).callWork hhere (hstands (i + 1) hi)).1
  refine ⟨hwaits, fun i hi hnot hruns => ?_⟩
  rw [passed_succ]
  by_cases hzero : i = 0
  · subst hzero
    obtain ⟨hnone, -, -, -, henters⟩ := hbegins.callWork (hstands 1 hi)
    rw [hnone, if_pos rfl]
    exact henters hruns
  · rw [if_neg hzero]
    exact ((hnext i hi).callWork (hwaits i (Nat.pos_of_ne_zero hzero) (Nat.le_of_lt hi))
      (hstands (i + 1) hi)).2 hnot hruns

/-- What becomes of the object that `new` has made for a call on a base, in the first steps of a run. -/
structure Constructs (base : List Frame) (call : PendingCall) (heap : Heap) (trace : Nat → Machine × Store)
    (n : Nat) (made : ObjectId) : Prop where
  makes : (trace 0).2.Makes call made heap
  parent : ∀ i, 0 < i → i ≤ n → (trace i).2.parentAt? made = some call.callee
  /-- When the body is over, the object is delivered, unless the function has returned another one. -/
  delivers : ∀ g constructed, (trace n).1.frames = g :: base → g.work = .running constructed →
    ∃ v, (∀ id, g.result = .object id → v = .object id) ∧ ((∀ id, g.result ≠ .object id) → v = .object made) ∧
      ∀ run fuel, step run fuel (trace n).1 (trace n).2 =
        (.ok (some { (trace n).1 with frames := handTo (.value v) base }), (trace n).2)

theorem constructs_of_begins (hbegins : CallBegins base true arguments call heap (trace 0) (trace 1))
    (hnext : ∀ i < n, Continues (trace i) (trace (i + 1))) (hstands : ∀ i ≤ n, StandsOn base (trace i).1) :
    ∃ made, Constructs base call heap trace n made := by
  obtain ⟨f, hframes, hwork, hbegin⟩ := hbegins.frames
  obtain ⟨made, hmakes⟩ := (beginCall_eq_ok hbegin).2 rfl
  refine ⟨made, hmakes, fun i => ?_, fun g constructed hg hrunning => ?_⟩
  · induction i with
    | zero => exact fun h => absurd h (Nat.lt_irrefl 0)
    | succ i ih =>
        intro _ hi
        by_cases hzero : i = 0
        · subst hzero
          obtain ⟨-, -, -, hkept, -⟩ := hbegins.callWork (hstands 1 hi)
          rw [Heap.parentAt?, hkept made _ hmakes.object]
          rfl
        · have hhere := ih (Nat.pos_of_ne_zero hzero) (Nat.le_of_succ_le hi)
          exact (hnext i hi).keeps (fun _ _ h => h.parentAt?) hhere
  · have hpos : 0 < n := by
      refine Nat.pos_of_ne_zero fun hzero => ?_
      subst hzero
      obtain rfl := (List.cons.inj (hframes.symm.trans hg)).1
      rw [hwork] at hrunning
      cases hrunning
    have hcall := ((calls_of_begins hbegins hnext hstands).waits n hpos (Nat.le_refl n)).of_eq [] hg
    rw [hrunning] at hcall
    cases hcall
    refine ⟨outcome call.constructed g.result, fun id hid => ?_, fun hnone => ?_, fun run fuel => ?_⟩
    · rw [hid, hmakes.constructed]
      rfl
    · rw [hmakes.constructed]
      cases hresult : g.result with
      | object id => exact absurd hresult (hnone id)
      | _ => rfl
    · exact step_running hg hrunning run fuel _

end

/-- **A call of a script function binds everything in a scope of its own, and `new` delivers the object
that it has made, or the one that the function returns.**

When a call has become the call of a script function, be it at once or because `apply` and `call` have
passed it on, then the body is put on, if there is room for a frame: in a new scope within the closure,
with the receiver of that call, and with everything bound that it sees (`Heap.Activates`).  In the
course of a run, a call whose callee is known waits for its arguments and then for the body, whatever
the scripts and the host do meanwhile, and the body begins with the values that were passed to it.  If
it is a call of `new`, its object is made before that, as an instance of the function, which stays the
parent of the object; when the body is over, it is what is delivered, unless the function has returned
an object. -/
theorem script_calls_bind_and_construct :
    (∀ (run : NestedRun) (fuel n : Nat) (m : Machine) (f : Frame) (call : PendingCall) (s : Store)
      (last : Invocation.Call) (code : FunctionCode) (closure : ObjectId),
      call.call.after s.toHeap n = some last → last.Runs s.toHeap code closure → n < fuel →
      ∃ scope heap, s.Activates code closure last.args scope heap ∧
        invoke run fuel m f call s =
          (if admitsFrame s (m.depth + 1) then .ok (m.entered f call code.body scope last.receiver)
            else .error .stackExhausted, { s with toHeap := heap }) ∧
        (m.entered f call code.body scope last.receiver).context = ⟨scope, last.receiver⟩) ∧
    ∀ (base : List Frame) (constructs : Bool) (arguments : List Node) (call : PendingCall) (heap : Heap)
      (trace : Nat → Machine × Store) (n : Nat),
      CallBegins base constructs arguments call heap (trace 0) (trace 1) →
      (∀ i < n, Continues (trace i) (trace (i + 1))) → (∀ i ≤ n, StandsOn base (trace i).1) →
      Calls base arguments call heap trace n ∧
        (constructs = true → ∃ made, Constructs base call heap trace n made) := by
  refine ⟨fun run fuel n m f call s last code closure h hruns hfuel => ?_,
    fun base constructs arguments call heap trace n hbegins hnext hstands => ?_⟩
  · obtain ⟨scope, s', hbound, hinvoke⟩ := invoke_script run m f h hruns hfuel
    exact ⟨scope, s', hbound, hinvoke, rfl⟩
  · refine ⟨calls_of_begins hbegins hnext hstands, ?_⟩
    rintro rfl
    exact constructs_of_begins hbegins hnext hstands

/-- A store with a scope, a function in it with two parameters `a`, and `call`. -/
def withTwice : Store :=
  .holding #[.new none (.scope none), .new none (.function (.script ⟨some "f", ["a", "a"], .block []⟩ ⟨0⟩)),
    .new none (.function .call)]

/-- The run of `new f(null);` from the value of `f` on. -/
def runNew (i : Nat) : Machine × Store :=
  let f : Frame := { work := .callee true [.literal .null false], value := some (.value (.object ⟨1⟩)) }
  let e := (Evaluator.run 1 i ⟨withTwice, ⟨[f, { work := .expression }], .undefined⟩⟩).2
  (e.machine, e.store)

/-- With `f.call(null, true, false)` the last `a` gets `false`, and `new f(null)` delivers an instance
of `f`. -/
theorem script_calls_bind_and_construct_twice :
    let call : PendingCall := ⟨⟨2⟩, .object ⟨1⟩, none, #[.null, .boolean true, .boolean false]⟩
    let last : Invocation.Call := ⟨⟨1⟩, .object Intrinsic.globalScope, [.boolean true, .boolean false]⟩
    (call.call.after withTwice.toHeap 1 = some last ∧
      ∃ scope heap m, invoke (runNested 0) 2 idle { work := .expression } call withTwice =
          (.ok m, { withTwice with toHeap := heap }) ∧
        m.context = ⟨scope, .object Intrinsic.globalScope⟩ ∧
        heap.own? scope (.ofText "a") = some (.plain (.boolean false))) ∧
    ∃ made, (runNew 4).2.parentAt? made = some ⟨1⟩ ∧
      (runNew 5).1.frames = [{ work := .expression, value := some (.value (.object made)) }] := by
  intro call last
  have hlast : call.call.after withTwice.toHeap 1 = some last := rfl
  have hnone : ¬DeclaresFunction [.block []] "a" := by
    rintro ⟨place, code, h⟩
    exact List.not_mem_nil (mem_declarationsOf_function.mpr ⟨place, h⟩)
  refine ⟨⟨hlast, ?_⟩, ?_⟩
  · obtain ⟨scope, heap, hbound, hinvoke, hcontext⟩ := script_calls_bind_and_construct.1 (runNested 0) 2 1
      idle { work := .expression } call withTwice last _ _ hlast rfl (by decide)
    exact ⟨scope, heap, _, hinvoke, hcontext, hbound.parameters 1 "a" rfl (by decide) hnone⟩
  · have hstep : ∀ i < 5, step (runNested 1) 1 (runNew i).1 (runNew i).2 =
        (.ok (some (runNew (i + 1)).1), (runNew (i + 1)).2) := by
      intro i hi
      match i, hi with
      | 0, _ | 1, _ | 2, _ | 3, _ | 4, _ => rfl
    have hnext : ∀ i < 4, Continues (runNew i) (runNew (i + 1)) :=
      fun i hi => .step 1 (hstep i (Nat.lt_succ_of_lt hi))
    have hstands : ∀ i ≤ 4, StandsOn [{ work := .expression }] (runNew i).1 := by
      intro i hi
      match i, hi with
      | 0, _ | 2, _ | 4, _ => exact ⟨[_], List.cons_ne_nil _ _, rfl⟩
      | 1, _ | 3, _ => exact ⟨[_, _], List.cons_ne_nil _ _, rfl⟩
    have hbegins : CallBegins [{ work := .expression }] true [.literal .null false] _ _ (runNew 0) (runNew 1) :=
      ⟨⟨_, rfl, rfl, rfl⟩, 1, hstep 0 (Nat.succ_pos 4)⟩
    obtain ⟨-, hmade⟩ := script_calls_bind_and_construct.2 _ _ _ _ _ runNew 4 hbegins hnext hstands
    obtain ⟨made, hconstructs⟩ := hmade rfl
    obtain ⟨v, -, hv, hdelivered⟩ := hconstructs.delivers _ _ rfl rfl
    refine ⟨made, hconstructs.parent 4 (Nat.succ_pos 3) (Nat.le_refl 4), ?_⟩
    have hsame := (hstep 4 (Nat.lt_succ_self 4)).symm.trans (hdelivered (runNested 1) 1)
    have hmachine := Option.some.inj (Except.ok.inj (Prod.mk.inj hsame).1)
    rw [hmachine, hv nofun]
    rfl

end Machine

end Stepwise
