/-
What there is to see while a step runs.

A step that evaluates source text runs another machine to its end, within the step, and
that one may do the same.  `instants` lists what machines there are meanwhile: for each
step of a nested machine the machine, the store, and the machines that wait for it.  It
follows the run with the same fuel, so it also tells what a run came to that did not end,
or failed.

What a step does is told by `turn_cases`: either it puts a program on a machine of its own
and everything else is up to the run of that, or no other machine has a part in it.  What
one step of the running machine and the beginning of a nested one both keep is true at
every instant; that is `instants_induction`.
-/
import Mathlib.Algebra.GroupWithZero.Nat
import Stepwise.Evaluator
import Stepwise.Proofs.Moves

namespace Stepwise

/-- A store, as a nested evaluation finds it. -/
def Store.nesting (s : Store) (frames : Nat) : Store :=
  { s with evalDepth := s.evalDepth + 1, outerFrames := s.outerFrames + frames }

/-- The source text that an action evaluates, if it is the call of a function that does. -/
def Action.source? (fuel : Nat) (s : Heap) : Action → Option String
  | .invoke _ call =>
    match call.resolve fuel s, call.constructed with
    | .ok (.eval (.string source :: _)), none => some source
    | _, _ => none
  | _ => none

namespace Machine

/-- The run of a nested machine leaves the limits as they were. -/
theorem suspended_eq {α : Type} {act : Run α} {frames : Nat} {s s' : Store}
    {result : Except Failure α} (h : act (s.nesting frames) = (result, s')) :
    suspended frames act s =
      (result, { s' with evalDepth := s'.evalDepth - 1, outerFrames := s.outerFrames }) := by
  show ((act (s.nesting frames)).1, ({ (act (s.nesting frames)).2 with
    evalDepth := (act (s.nesting frames)).2.evalDepth - 1,
    outerFrames := s.outerFrames } : Store)) = _
  rw [h]

/-- A frame is put on where it is admitted, and nothing else happens. -/
theorem push_eq_ok {m m' : Machine} {f : Frame} {s s' : Store} (h : m.push f s = (.ok m', s')) :
    m' = m.putBack f ∧ s' = s ∧ admitsFrame s m.depth = true := by
  have hpush : m.push f s =
      (if admitsFrame s m.depth then .ok (m.putBack f) else .error .stackExhausted, s) := rfl
  rw [hpush] at h
  split at h
  · rename_i hadmits
    cases h
    exact ⟨rfl, rfl, hadmits⟩
  · cases h

/-- A step is what a frame chooses to do, carried out on the frames below it. -/
theorem exists_of_step_eq_ok {m m' : Machine} {f : Frame} {below : List Frame} {s s' : Store}
    {run : NestedRun} {fuel : Nat} (hframes : m.frames = f :: below)
    (h : step run fuel m s = (.ok (some m'), s')) :
    ∃ a heap, f.resume (context { m with frames := below }) s.toHeap = (.ok a, heap) ∧
      obey run fuel { m with frames := below } a { s with toHeap := heap } = (.ok m', s') := by
  rcases m with ⟨frames, completion⟩
  obtain rfl : frames = f :: below := hframes
  obtain ⟨m₁, s₁, hturn, hsome⟩ := exists_of_run_bind_eq_ok h
  cases hsome
  obtain ⟨a, s₂, hresume, hobey⟩ := exists_of_run_bind_eq_ok hturn
  obtain ⟨heap, hedit, rfl⟩ := Run.exists_of_liftM_eq_ok hresume
  exact ⟨a, heap, hedit, hobey⟩

/-- **What a call comes to.** A native function and an evaluation hand their value down within the call;
a script function has been activated, and its body stands on the frame of the call. -/
theorem exists_of_invoke_eq_ok {run : NestedRun} {fuel : Nat} {m m' : Machine} {f : Frame}
    {call : PendingCall} {s s' : Store} (h : invoke run fuel m f call s = (.ok m', s')) :
    (∃ v, m' = m.deliverValue v) ∨
      ∃ code closure receiver args scope heap,
        call.resolve fuel s.toHeap = .ok (.script code closure receiver args) ∧
        activate code closure args s.toHeap = (.ok scope, heap) ∧ s' = { s with toHeap := heap } ∧
        m' = (m.putBack { f with work := .running call.constructed }).putBack
          (.opening code.body scope receiver) := by
  obtain ⟨invocation, s₁, hfirst, hinvoke⟩ := exists_of_run_bind_eq_ok h
  obtain ⟨heap, hquery, rfl⟩ := Run.exists_of_liftM_eq_ok hfirst
  obtain ⟨hresolve, rfl⟩ := Edit.query_eq_ok hquery
  cases invocation with
  | script code closure receiver args =>
      obtain ⟨scope, s₂, hlifted, hpush⟩ := exists_of_run_bind_eq_ok hinvoke
      obtain ⟨heap, hactivate, rfl⟩ := Run.exists_of_liftM_eq_ok hlifted
      obtain ⟨rfl, rfl, -⟩ := push_eq_ok hpush
      exact .inr ⟨code, closure, receiver, args, scope, heap, hresolve, hactivate, rfl, rfl⟩
  | native function receiver args =>
      obtain ⟨result, s₂, -, hdeliver⟩ := exists_of_run_bind_eq_ok hinvoke
      cases hdeliver
      exact .inl ⟨_, rfl⟩
  | eval args =>
      dsimp only at hinvoke
      split at hinvoke
      · cases hinvoke
      · obtain ⟨result, s₂, -, hdeliver⟩ := exists_of_run_bind_eq_ok hinvoke
        cases hdeliver
        exact .inl ⟨_, rfl⟩

/-! ### Nested programs -/

/-- The frame that is to run a source text, in a new scope with what the text declares. -/
def openSource (caller : Context) (source : String) : Run Frame := do
  let program ← Run.query fun s => admitSource s source
  let scope ← Store.allocScope (some caller.scope)
  Store.hoist program.body scope
  return .opening (.program program.body) scope caller.receiver

theorem evaluateSource_eq (run : NestedRun) (caller : Context) (depth : Nat) (source : String) :
    evaluateSource run caller depth source =
      openSource caller source >>= fun g => suspended depth (idle.push g >>= run) := by
  simp only [evaluateSource, openSource, bind_assoc, pure_bind]

/-- The frame of the program that a turn evaluates, if it evaluates one. -/
def evaluated (fuel : Nat) (m : Machine) (f : Frame) : Run (Option Frame) := do
  let action ← f.resume m.context
  match ← Run.ask fun s => action.source? fuel s.toHeap with
  | some source => some <$> openSource m.context source
  | none => return none

variable {run run' : NestedRun} {fuel : Nat} {m : Machine} {f : Frame} {s : Store} {a : Action}

theorem evaluated_eq_some {g : Frame} {s' : Store}
    (h : evaluated fuel m f s = (.ok (some g), s')) :
    ∃ action source s₁, (liftM (f.resume m.context) : Run Action) s = (.ok action, s₁) ∧
      action.source? fuel s₁.toHeap = some source ∧
      openSource m.context source s₁ = (.ok g, s') := by
  obtain ⟨action, s₁, hresume, h⟩ := exists_of_run_bind_eq_ok h
  obtain ⟨found, s₂, hask, h⟩ := exists_of_run_bind_eq_ok h
  have hsource : action.source? fuel s₁.toHeap = found ∧ s₁ = s₂ := by
    cases hask
    exact ⟨rfl, rfl⟩
  obtain ⟨hsource, rfl⟩ := hsource
  cases found with
  | none => cases h
  | some source =>
      simp only [map_eq_pure_bind] at h
      obtain ⟨g', s₃, hopen, h⟩ := exists_of_run_bind_eq_ok h
      cases h
      exact ⟨action, source, s₁, hresume, hsource, hopen⟩

/-- An action that evaluates no source text does not run another machine. -/
theorem obey_of_no_source (h : a.source? fuel s.toHeap = none) (run run' : NestedRun) :
    obey run fuel m a s = obey run' fuel m a s := by
  cases a with
  | invoke f call =>
      cases hresolve : call.resolve fuel s.toHeap with
      | error e =>
          have hquery : Edit.query (call.resolve fuel) s.toHeap = (.error e, s.toHeap) := by
            rw [Edit.query, hresolve]
          simp only [obey, invoke]
          rw [bind_of_error (Run.liftM_eq hquery), bind_of_error (Run.liftM_eq hquery)]
      | ok invocation =>
          have hquery : Edit.query (call.resolve fuel) s.toHeap = (.ok invocation, s.toHeap) := by
            rw [Edit.query, hresolve]
          simp only [obey, invoke]
          rw [bind_of_ok (Run.liftM_eq hquery), bind_of_ok (Run.liftM_eq hquery)]
          cases invocation with
          | script code closure receiver args => rfl
          | native function receiver args => rfl
          | eval args =>
              cases hconstructed : call.constructed with
              | some made => rfl
              | none =>
                  simp only [Action.source?, hresolve, hconstructed] at h
                  cases args with
                  | nil => rfl
                  | cons v rest => cases v <;> first | rfl | cases h
  | _ => rfl

/-- An action that evaluates a source text delivers what that comes to. -/
theorem obey_of_source {source : String} (h : a.source? fuel s.toHeap = some source) (run : NestedRun) :
    obey run fuel m a s =
      (evaluateSource run m.context m.depth source >>= fun v => pure (m.deliverValue v)) s := by
  cases a with
  | invoke f call =>
      unfold Action.source? at h
      dsimp only at h
      split at h
      · rename_i rest hresolve hconstructed
        cases h
        have hquery : Edit.query (call.resolve fuel) s.toHeap =
            (.ok (.eval (.string source :: rest)), s.toHeap) := by
          rw [Edit.query, hresolve]
        simp only [obey, invoke]
        rw [bind_of_ok (Run.liftM_eq hquery)]
        simp only [hconstructed, Option.isSome_none, Bool.false_eq_true, if_false]
        rfl
      · cases h
  | _ => cases h

/-- **What a turn can do.**  Either it runs a program on a machine of its own and delivers what
that comes to, or it does the same whatever nested machines would do. -/
theorem turn_cases (fuel : Nat) (m : Machine) (f : Frame) (s : Store) :
    (∃ g s', evaluated fuel m f s = (.ok (some g), s') ∧
        ∀ run, turn run fuel m f s =
          (suspended m.depth (idle.push g >>= run) >>= fun v => pure (m.deliverValue v)) s') ∨
      (∀ g s', evaluated fuel m f s ≠ (.ok (some g), s')) ∧
        ∀ run run', turn run fuel m f s = turn run' fuel m f s := by
  rcases hresume : (liftM (f.resume m.context) : Run Action) s with ⟨e | a, s₁⟩
  · -- the turn fails before it comes to an action
    refine .inr ⟨fun g s' hg => ?_, fun run run' => ?_⟩
    · rw [evaluated, bind_of_error hresume] at hg
      cases hg
    · rw [turn, turn, bind_of_error hresume, bind_of_error hresume]
  · have hask : Run.ask (fun s => a.source? fuel s.toHeap) s₁ = (.ok (a.source? fuel s₁.toHeap), s₁) :=
      rfl
    have hturn : ∀ run, turn run fuel m f s = obey run fuel m a s₁ := by
      intro run
      rw [turn, bind_of_ok hresume]
    rw [evaluated, bind_of_ok hresume, bind_of_ok hask]
    cases hsource : a.source? fuel s₁.toHeap with
    | none =>
        refine .inr ⟨fun g s' hg => ?_, fun run run' => ?_⟩
        · cases hg
        · rw [hturn, hturn]
          exact obey_of_no_source hsource run run'
    | some source =>
        have hobey : ∀ run, turn run fuel m f s =
            (openSource m.context source >>= fun g =>
              suspended m.depth (idle.push g >>= run) >>= fun v => pure (m.deliverValue v)) s₁ := by
          intro run
          rw [hturn, obey_of_source hsource, evaluateSource_eq, bind_assoc]
        rcases hopen : openSource m.context source s₁ with ⟨e | g, s₂⟩
        · refine .inr ⟨fun g s' hg => ?_, fun run run' => ?_⟩
          · simp only [map_eq_pure_bind] at hg
            rw [bind_of_error hopen] at hg
            cases hg
          · rw [hobey, hobey, bind_of_error hopen, bind_of_error hopen]
        · refine .inl ⟨g, s₂, ?_, fun run => ?_⟩
          · simp only [map_eq_pure_bind]
            rw [bind_of_ok hopen]
            rfl
          · rw [hobey, bind_of_ok hopen]

theorem turn_of_evaluated {g : Frame} {s' : Store} (h : evaluated fuel m f s = (.ok (some g), s'))
    (run : NestedRun) :
    turn run fuel m f s =
      (suspended m.depth (idle.push g >>= run) >>= fun v => pure (m.deliverValue v)) s' := by
  rcases turn_cases fuel m f s with ⟨g', t, hg', hturn⟩ | ⟨hnone, -⟩
  · rw [h] at hg'
    cases hg'
    exact hturn run
  · exact absurd h (hnone g s')

theorem turn_of_not_evaluated (h : ∀ g s', evaluated fuel m f s ≠ (.ok (some g), s'))
    (run run' : NestedRun) : turn run fuel m f s = turn run' fuel m f s := by
  rcases turn_cases fuel m f s with ⟨g, t, hg, -⟩ | ⟨-, hturn⟩
  · exact absurd hg (h g t)
  · exact hturn run run'

/-- The first frame of the machine that a turn runs within it, and the store as it finds it. -/
def nested? (fuel : Nat) (m : Machine) (f : Frame) (s : Store) : Option (Frame × Store) :=
  match evaluated fuel m f s with
  | (.ok (some g), s) => some (g, s.nesting m.depth)
  | _ => none

theorem nested?_of_evaluated {g : Frame} {s' : Store}
    (h : evaluated fuel m f s = (.ok (some g), s')) :
    nested? fuel m f s = some (g, s'.nesting m.depth) := by
  rw [nested?, h]

theorem nested?_eq_some {g : Frame} {s' : Store} (h : nested? fuel m f s = some (g, s')) :
    ∃ s₁, evaluated fuel m f s = (.ok (some g), s₁) ∧ s' = s₁.nesting m.depth := by
  unfold nested? at h
  split at h
  · rename_i g' s₁ hevaluated
    cases h
    exact ⟨s₁, hevaluated, rfl⟩
  · cases h

end Machine

/-! ### Instants -/

/-- A machine that runs, the machines that wait for it, the next one first, and the store that
they share. -/
structure Instant where
  machine : Machine
  waiting : List Machine
  store : Store

namespace Instant

/-- How many frames the machines hold that wait. -/
def framesWaiting (p : Instant) : Nat := (p.waiting.map Machine.depth).sum

/-- How many frames all the machines hold together. -/
def frames (p : Instant) : Nat := p.machine.depth + p.framesWaiting

end Instant

namespace Run

variable {α : Type}

/-- What is to see after an action, if it succeeds. -/
def thereafter (act : Run α) (seen : α → Store → List Instant) (s : Store) : List Instant :=
  match act s with
  | (.ok x, s') => seen x s'
  | (.error _, _) => []

variable {act : Run α} {seen : α → Store → List Instant} {s s' : Store}

theorem thereafter_of_ok {x : α} (h : act s = (.ok x, s')) : act.thereafter seen s = seen x s' := by
  rw [thereafter, h]

theorem thereafter_of_error {e : Failure} (h : act s = (.error e, s')) :
    act.thereafter seen s = [] := by
  rw [thereafter, h]

theorem thereafter_bind {β : Type} (act : Run α) (next : α → Run β) (seen : β → Store → List Instant)
    (s : Store) :
    (act >>= next).thereafter seen s =
      act.thereafter (fun x t => (next x).thereafter seen t) s := by
  rcases hact : act s with ⟨e | x, t⟩
  · rw [thereafter_of_error hact, thereafter_of_error (bind_of_error hact)]
  · rw [thereafter_of_ok hact]
    unfold thereafter
    rw [bind_of_ok hact]

theorem mem_thereafter {q : Instant} (h : q ∈ act.thereafter seen s) :
    ∃ x t, act s = (.ok x, t) ∧ q ∈ seen x t := by
  rcases hact : act s with ⟨e | x, t⟩
  · rw [thereafter_of_error hact] at h
    cases h
  · rw [thereafter_of_ok hact] at h
    exact ⟨x, t, rfl, h⟩

end Run

namespace Machine

/-- What is to see of a machine nested in another one: before it has a frame, with its frame, and
then what is to see of its run. -/
def instantsNested (ofNested : Instant → List Instant) (m : Machine) (waiting : List Machine)
    (g : Frame) (s : Store) : List Instant :=
  ⟨idle, m :: waiting, s⟩ :: (idle.push g).thereafter
    (fun n s => ⟨n, m :: waiting, s⟩ :: ofNested ⟨n, m :: waiting, s⟩) s

/-- What is to see within a step. -/
def instantsWithin (ofNested : Instant → List Instant) (fuel : Nat) (p : Instant) : List Instant :=
  match p.machine.frames with
  | [] => []
  | f :: below =>
    let m : Machine := { p.machine with frames := below }
    match nested? fuel m f p.store with
    | some (g, s) => instantsNested ofNested m p.waiting g s
    | none => []

/-- What is to see of a step: what is to see within it, and what it comes to. -/
def instantsOfStep (ofNested : Instant → List Instant) (fuel : Nat) (p : Instant) : List Instant :=
  instantsWithin ofNested fuel p ++ (step (runNested fuel) fuel p.machine).thereafter
    (fun next s => (next.map fun m => ⟨m, p.waiting, s⟩).toList) p.store

/-- What is to see of a run to the end, with fuel as for the run. -/
def instants : (fuel : Nat) → Instant → List Instant
  | 0, _ => []
  | fuel + 1, p =>
    instantsOfStep (instants fuel) fuel p ++ (step (runNested fuel) fuel p.machine).thereafter
      (fun next s => match next with
        | some m => instants fuel ⟨m, p.waiting, s⟩
        | none => []) p.store

/-- What the steps of a machine keep, and what holds of a machine nested in a step, before and
after it is given its frame, if it holds of the one that steps. -/
structure Persists (P : Instant → Prop) : Prop where
  step : ∀ {fuel m m' waiting s s'}, P ⟨m, waiting, s⟩ →
    step (runNested fuel) fuel m s = (.ok (some m'), s') → P ⟨m', waiting, s'⟩
  nested : ∀ {fuel f g waiting s s'} {m : Machine}, P ⟨m.putBack f, waiting, s⟩ →
    nested? fuel m f s = some (g, s') → P ⟨idle, m :: waiting, s'⟩
  begins : ∀ {fuel f g n waiting s s' s''} {m : Machine}, P ⟨m.putBack f, waiting, s⟩ →
    nested? fuel m f s = some (g, s') → P ⟨idle, m :: waiting, s'⟩ →
    idle.push g s' = (.ok n, s'') → P ⟨n, m :: waiting, s''⟩

namespace Persists

variable {P : Instant → Prop} (hP : Persists P)

include hP

theorem within {ofNested : Instant → List Instant} (hnested : ∀ p, P p → ∀ q ∈ ofNested p, P q)
    (fuel : Nat) {p : Instant} (hp : P p) : ∀ q ∈ instantsWithin ofNested fuel p, P q := by
  intro q hq
  rcases p with ⟨⟨- | ⟨f, below⟩, completion⟩, waiting, s⟩
  · cases hq
  · unfold instantsWithin at hq
    dsimp only at hq
    split at hq
    · rename_i g s' hg
      have hidle : P ⟨idle, ⟨below, completion⟩ :: waiting, s'⟩ :=
        hP.nested (m := ⟨below, completion⟩) hp hg
      rcases List.mem_cons.mp hq with rfl | hq
      · exact hidle
      · obtain ⟨n, s'', hpush, hq⟩ := Run.mem_thereafter hq
        have hn := hP.begins (m := ⟨below, completion⟩) hp hg hidle hpush
        rcases List.mem_cons.mp hq with rfl | hq
        · exact hn
        · exact hnested _ hn q hq
    · cases hq

theorem ofStep {ofNested : Instant → List Instant} (hnested : ∀ p, P p → ∀ q ∈ ofNested p, P q)
    (fuel : Nat) {p : Instant} (hp : P p) : ∀ q ∈ instantsOfStep ofNested fuel p, P q := by
  intro q hq
  rcases List.mem_append.mp hq with hq | hq
  · exact hP.within hnested fuel hp q hq
  · obtain ⟨next, s', hstep, hq⟩ := Run.mem_thereafter hq
    cases next with
    | none => cases hq
    | some m =>
        rw [List.mem_singleton.mp hq]
        exact hP.step hp hstep

end Persists

/-- **What persists is true at every instant of a run**, if it is true when the run begins. -/
theorem instants_induction {P : Instant → Prop} (hP : Persists P) :
    ∀ (fuel : Nat) (p : Instant), P p → ∀ q ∈ instants fuel p, P q := by
  intro fuel
  induction fuel with
  | zero =>
      intro p hp q hq
      cases hq
  | succ fuel ih =>
      intro p hp q hq
      rw [instants] at hq
      rcases List.mem_append.mp hq with hq | hq
      · exact hP.ofStep ih fuel hp q hq
      · obtain ⟨next, s', hstep, hq⟩ := Run.mem_thereafter hq
        cases next with
        | none => cases hq
        | some m => exact ih _ (hP.step hp hstep) q hq

end Machine

namespace Evaluator

/-- What is to see of a step. -/
def instants (fuel : Nat) (e : Evaluator) : List Instant :=
  Machine.instantsOfStep (Machine.instants fuel) fuel ⟨e.machine, [], e.store⟩

/-- What persists is true at every instant of a step. -/
theorem forall_instants {P : Instant → Prop} (hP : Machine.Persists P) (fuel : Nat) {e : Evaluator}
    (he : P ⟨e.machine, [], e.store⟩) : ∀ q ∈ e.instants fuel, P q :=
  hP.ofStep (Machine.instants_induction hP fuel) fuel he

end Evaluator

end Stepwise
