/-
A function cannot see its caller.

The body of a function that has been called opens a scope and binds a receiver, so whatever
looks down the stack from above it ends its search there at the latest, and a `return` at
the frame of the call.  Two runs of one call, on stacks that have nothing in common, do the
same step for step: the same frames stand above the call, and the stores are the same.

The number of frames below is the one thing about them that can be told, and only where
the stack is limited: a nested evaluation counts the frames of the machines that wait.
That it makes no difference without a limit is shown first, for single actions and then
for whole runs.
-/
import Stepwise.Proofs.Grammar
import Stepwise.Proofs.Jumps
import Stepwise.Proofs.Library
import Stepwise.Proofs.Runs

namespace Stepwise

/-! ### Waiting frames do not count -/

/-- Without a limit to the stack, the action does not look at the number of frames that wait. -/
def Run.Indifferent {α : Type} (act : Run α) : Prop :=
  ∀ (s : Store) (n : Nat), s.config.maxStackDepth = 0 →
    act { s with outerFrames := n } = ((act s).1, { (act s).2 with outerFrames := n }) ∧
      (act s).2.config = s.config

namespace Run.Indifferent

variable {α β : Type}

theorem pure (x : α) : Run.Indifferent (Pure.pure x : Run α) := fun _ _ _ => ⟨rfl, rfl⟩

theorem edit (act : Edit α) : Run.Indifferent (liftM act : Run α) := fun _ _ _ => ⟨rfl, rfl⟩

theorem query {f : Store → Except Failure α}
    (h : ∀ (s : Store) (n : Nat), s.config.maxStackDepth = 0 → f { s with outerFrames := n } = f s) :
    Run.Indifferent (Run.query f) := fun s n hs => ⟨by simp only [Run.query, h s n hs], rfl⟩

theorem bind {act : Run α} {next : α → Run β} (hact : Run.Indifferent act)
    (hnext : ∀ x, Run.Indifferent (next x)) : Run.Indifferent (act >>= next) := by
  intro s n hs
  obtain ⟨heq, hconfig⟩ := hact s n hs
  rcases hr : act s with ⟨e | x, s'⟩
  · rw [hr] at heq hconfig
    rw [bind_of_error hr, bind_of_error heq]
    exact ⟨rfl, hconfig⟩
  · rw [hr] at heq hconfig
    rw [bind_of_ok hr, bind_of_ok heq]
    obtain ⟨heq', hconfig'⟩ := hnext x s' n (by rw [hconfig]; exact hs)
    exact ⟨heq', hconfig'.trans hconfig⟩

/-- How many frames wait makes no difference to a nested evaluation. -/
theorem suspended {act : Run α} (h : Run.Indifferent act) (frames : Nat) :
    Run.Indifferent (Machine.suspended frames act) := by
  intro s n hs
  obtain ⟨heq, hconfig⟩ := h
    { s with evalDepth := s.evalDepth + 1, outerFrames := s.outerFrames + frames }
    (n + frames) hs
  refine ⟨?_, hconfig⟩
  unfold Machine.suspended
  dsimp only at heq ⊢
  rw [heq]
  rfl

theorem suspended_eq {act : Run α} (h : Run.Indifferent act) (frames frames' : Nat) {s : Store}
    (hs : s.config.maxStackDepth = 0) :
    Machine.suspended frames act s = Machine.suspended frames' act s := by
  obtain ⟨heq, -⟩ := h { s with evalDepth := s.evalDepth + 1, outerFrames := s.outerFrames + frames }
    (s.outerFrames + frames') hs
  unfold Machine.suspended
  dsimp only at heq ⊢
  rw [heq]
  rfl

end Run.Indifferent

namespace Machine

theorem admitsFrame_of_unlimited {s : Store} (h : s.config.maxStackDepth = 0) (depth : Nat) :
    admitsFrame s depth = true := by
  simp only [admitsFrame, Config.allowsDepth, h, beq_self_eq_true, Bool.true_or]

theorem push_indifferent (m : Machine) (f : Frame) : Run.Indifferent (m.push f) := by
  refine .query fun s n hs => ?_
  rw [admitsFrame_of_unlimited (s := s) hs,
    admitsFrame_of_unlimited (s := { s with outerFrames := n }) hs]

/-- Nested machines do not look at the frames that wait for them. -/
def RunsIndifferently (run : NestedRun) : Prop := ∀ m, Run.Indifferent (run m)

variable {run : NestedRun}

theorem evaluateSource_indifferent (hrun : RunsIndifferently run) (caller : Context) (depth : Nat)
    (source : String) : Run.Indifferent (evaluateSource run caller depth source) := by
  refine .bind (.query fun s n hs => rfl) fun p => .bind (.edit _) fun scope =>
    .bind (.edit _) fun _ => ?_
  exact .suspended (.bind (push_indifferent _ _) hrun) _

theorem evaluate_indifferent (hrun : RunsIndifferently run) (caller : Context) (depth : Nat)
    (args : List Value) : Run.Indifferent (evaluate run caller depth args) := by
  unfold evaluate
  split
  · exact .pure _
  · exact evaluateSource_indifferent hrun _ _ _
  · exact .pure _

theorem invoke_indifferent (hrun : RunsIndifferently run) (fuel : Nat) (m : Machine) (f : Frame)
    (call : PendingCall) : Run.Indifferent (invoke run fuel m f call) := by
  refine .bind (.edit _) fun invocation => ?_
  rcases invocation with ⟨code, closure, receiver, args⟩ | ⟨native, receiver, args⟩ | args
  · exact .bind (.edit _) fun scope => push_indifferent _ _
  · exact .bind (.edit _) fun result => .pure _
  · dsimp only
    split
    · exact .query fun s n hs => rfl
    · exact .bind (evaluate_indifferent hrun _ _ args) fun v => .pure _

theorem obey_indifferent (hrun : RunsIndifferently run) (fuel : Nat) (m : Machine) (a : Action) :
    Run.Indifferent (obey run fuel m a) := by
  cases a with
  | await f child => exact push_indifferent _ _
  | invoke f call => exact invoke_indifferent hrun fuel m f call
  | become f => exact push_indifferent _ _
  | again | deliver | leave | complete => exact .pure _
  | breakTo | continueAt | returnWith => exact .query fun s n hs => rfl

theorem step_indifferent (hrun : RunsIndifferently run) (fuel : Nat) (m : Machine) :
    Run.Indifferent (step run fuel m) := by
  unfold step
  split
  · exact .pure _
  · exact .bind (.bind (.edit _) fun a => obey_indifferent hrun fuel _ a) fun m' => .pure _

theorem runNested_indifferent : ∀ fuel, RunsIndifferently (runNested fuel) := by
  intro fuel
  induction fuel with
  | zero => exact fun m => .query fun s n hs => rfl
  | succ fuel ih =>
      intro m
      refine .bind (step_indifferent ih fuel m) fun next => ?_
      cases next with
      | none => exact .pure _
      | some m' => exact ih m'

end Machine

/-! ### Two runs side by side -/

/-- Two actions on one store without a limit to the stack: they fail alike, or end with
related values, and leave one store. -/
def Run.Agree {α β : Type} (R : α → β → Prop) (act : Run α) (act' : Run β) : Prop :=
  ∀ s : Store, s.config.maxStackDepth = 0 →
    (∃ e s', act s = (.error e, s') ∧ act' s = (.error e, s')) ∨
      ∃ x x' s', act s = (.ok x, s') ∧ act' s = (.ok x', s') ∧ R x x' ∧ s'.config.maxStackDepth = 0

namespace Run.Agree

variable {α β γ δ : Type} {R : γ → δ → Prop}

theorem pure {x : γ} {x' : δ} (h : R x x') : Run.Agree R (Pure.pure x) (Pure.pure x') :=
  fun s hs => .inr ⟨x, x', s, rfl, rfl, h, hs⟩

theorem query {f : Store → Except Failure γ} {f' : Store → Except Failure δ}
    (h : ∀ s, (∃ e, f s = .error e ∧ f' s = .error e) ∨ ∃ x x', f s = .ok x ∧ f' s = .ok x' ∧ R x x') :
    Run.Agree R (Run.query f) (Run.query f') := by
  intro s hs
  rcases h s with ⟨e, he, he'⟩ | ⟨x, x', hx, hx', hR⟩
  · exact .inl ⟨e, s, by simp only [Run.query, he], by simp only [Run.query, he']⟩
  · exact .inr ⟨x, x', s, by simp only [Run.query, hx], by simp only [Run.query, hx'], hR, hs⟩

theorem bind {Q : α → β → Prop} {act : Run α} {act' : Run β} {next : α → Run γ} {next' : β → Run δ}
    (hact : Run.Agree Q act act') (hnext : ∀ x x', Q x x' → Run.Agree R (next x) (next' x')) :
    Run.Agree R (act >>= next) (act' >>= next') := by
  intro s hs
  rcases hact s hs with ⟨e, s', he, he'⟩ | ⟨x, x', s', hx, hx', hQ, hs'⟩
  · exact .inl ⟨e, s', bind_of_error he, bind_of_error he'⟩
  · rw [bind_of_ok hx, bind_of_ok hx']
    exact hnext x x' hQ s' hs'

/-- One action agrees with itself. -/
theorem same {act : Run α} (h : Run.Indifferent act) : Run.Agree Eq act act := by
  intro s hs
  have hconfig := (h s 0 hs).2
  rcases hr : act s with ⟨e | x, s'⟩
  · exact .inl ⟨e, s', rfl, rfl⟩
  · rw [hr] at hconfig
    exact .inr ⟨x, x, s', rfl, rfl, rfl, by rw [hconfig]; exact hs⟩

theorem bind_same {act : Run α} {next : α → Run γ} {next' : α → Run δ} (h : Run.Indifferent act)
    (hnext : ∀ x, Run.Agree R (next x) (next' x)) : Run.Agree R (act >>= next) (act >>= next') :=
  (same h).bind fun x _ hx => hx ▸ hnext x

/-- Actions that are equal where the stack has no limit agree as one does with itself. -/
theorem of_eq {act act' : Run α} (h : Run.Indifferent act)
    (heq : ∀ s : Store, s.config.maxStackDepth = 0 → act s = act' s) : Run.Agree Eq act act' := by
  intro s hs
  have hsame := same h s hs
  rw [← heq s hs]
  exact hsame

end Run.Agree

namespace Machine

/-! ### Activations -/

/-- The frame of the body of a function that has been called. -/
structure IsActivation (f : Frame) : Prop where
  work : (∃ body, f.work = .node (.block body) false) ∨ ∃ rest, f.work = .statements false rest
  scope : f.scope.isSome = true
  receiver : f.receiver.isSome = true
  labels : f.labels = []

/-- Frames that stand on an activation. -/
inductive Closed : List Frame → Prop where
  | activation {f : Frame} (h : IsActivation f) : Closed [f]
  | above {f : Frame} {rest : List Frame} (h : Closed rest) : Closed (f :: rest)

variable {f : Frame} {rest base base' above : List Frame}

/-- What looks down the stack finds the same from above an activation. -/
theorem Closed.findSome (base base' : List Frame) {α : Type} {look : Frame → Option α}
    (hlook : ∀ f, IsActivation f → (look f).isSome = true) (h : Closed above) :
    (above ++ base).findSome? look = (above ++ base').findSome? look := by
  induction h with
  | activation h =>
      obtain ⟨x, hx⟩ := Option.isSome_iff_exists.mp (hlook _ h)
      simp only [List.singleton_append, List.findSome?_cons, hx]
  | above h ih =>
      rw [List.cons_append, List.cons_append, List.findSome?_cons, List.findSome?_cons, ih]

theorem Closed.context_eq (base base' : List Frame) (h : Closed above) (completion : Value) :
    context ⟨above ++ base, completion⟩ = context ⟨above ++ base', completion⟩ := by
  have hscope := h.findSome base base' fun f hf => hf.scope
  have hreceiver := h.findSome base base' fun f hf => hf.receiver
  simp only [context, scope, scope?, receiver, hscope, hreceiver]

/-- An activation goes on with its body or hands undefined down, whatever is below it. -/
theorem IsActivation.resume (h : IsActivation f) :
    (∀ c, f.resume c = pure (.deliverValue .undefined)) ∨
      ∃ f' child, IsActivation f' ∧ ∀ c, f.resume c = pure (.await f' child) := by
  have hnext (statements : List Node)
      (hresume : ∀ c, f.resume c = pure (f.nextStatement false statements)) :
      (∀ c, f.resume c = pure (.deliverValue .undefined)) ∨
        ∃ f' child, IsActivation f' ∧ ∀ c, f.resume c = pure (.await f' child) := by
    cases statements with
    | nil => exact .inl hresume
    | cons n rest =>
        exact .inr ⟨{ f.taken with work := .statements false rest }, .ofNode n false,
          ⟨.inr ⟨rest, rfl⟩, h.scope, h.receiver, h.labels⟩, hresume⟩
  rcases h.work with ⟨body, hw⟩ | ⟨statements, hw⟩
  · exact hnext body fun c => by rw [Frame.resume, hw]; rfl
  · exact hnext statements fun c => by rw [Frame.resume, hw]

/-- Two machines with the same frames above two bases: the activation still runs there, or has
handed the same value to the two frames of the call. -/
inductive Beside (base base' : List Frame) : Machine → Machine → Prop where
  | running {above : List Frame} (h : Closed above) (completion : Value) :
      Beside base base' ⟨above ++ base, completion⟩ ⟨above ++ base', completion⟩
  | returned (v : Value) (completion : Value) :
      Beside base base' (deliverValue ⟨base, completion⟩ v) (deliverValue ⟨base', completion⟩ v)

theorem push_agree {R : Machine → Machine → Prop} {m m' : Machine} {f f' : Frame}
    (h : R { m with frames := f :: m.frames } { m' with frames := f' :: m'.frames }) :
    Run.Agree R (m.push f) (m'.push f') := by
  intro s hs
  have hpush (m : Machine) (f : Frame) : m.push f s = (.ok { m with frames := f :: m.frames }, s) := by
    simp only [push, Run.query, admitsFrame_of_unlimited hs, if_true]
    rfl
  exact .inr ⟨_, _, s, hpush m f, hpush m' f', h, hs⟩

theorem Closed.deliver (h : Closed rest) (c : Completion) (completion : Value) :
    Beside base base' (Machine.deliver ⟨rest ++ base, completion⟩ c)
      (Machine.deliver ⟨rest ++ base', completion⟩ c) := by
  cases h with
  | @activation f h =>
      have h' : IsActivation { f with value := some c } := ⟨h.work, h.scope, h.receiver, h.labels⟩
      exact .running (.activation h') completion
  | above h => exact .running (.above h) completion

/-- A search down the stack that no activation lets pass ends above the bases. -/
theorem Closed.framesDownTo (base base' : List Frame) {isTarget isEnd : Frame → Bool}
    (hactivation : ∀ f, IsActivation f → isTarget f = false ∧ isEnd f = true) (h : Closed above) :
    (Machine.framesDownTo isTarget isEnd (above ++ base) = none ∧
        Machine.framesDownTo isTarget isEnd (above ++ base') = none) ∨
      ∃ target rest, Closed rest ∧
        Machine.framesDownTo isTarget isEnd (above ++ base) = some (target :: rest ++ base) ∧
        Machine.framesDownTo isTarget isEnd (above ++ base') = some (target :: rest ++ base') := by
  induction h with
  | activation h =>
      obtain ⟨htarget, hend⟩ := hactivation _ h
      exact .inl ⟨Machine.framesDownTo_of_end htarget hend base,
        Machine.framesDownTo_of_end htarget hend base'⟩
  | @above f rest h ih =>
      simp only [List.cons_append, Machine.framesDownTo]
      by_cases htarget : isTarget f = true
      · exact .inr ⟨f, rest, h, if_pos htarget, if_pos htarget⟩
      · rw [if_neg htarget, if_neg htarget]
        by_cases hend : isEnd f = true
        · exact .inl ⟨if_pos hend, if_pos hend⟩
        · rw [if_neg hend, if_neg hend]
          exact ih

/-- A `return` ends at a call above the bases, or at the frames of the call themselves. -/
theorem Closed.framesAtReturn (h : Closed above) {g g' : Frame} (below below' : List Frame)
    (hg : g.work.isRunning = true) (hg' : g'.work.isRunning = true) :
    (Machine.framesAtReturn (above ++ g :: below) = none ∧
        Machine.framesAtReturn (above ++ g' :: below') = none) ∨
      (∃ rest, Closed rest ∧ Machine.framesAtReturn (above ++ g :: below) = some (rest ++ g :: below) ∧
        Machine.framesAtReturn (above ++ g' :: below') = some (rest ++ g' :: below')) ∨
      (Machine.framesAtReturn (above ++ g :: below) = some (g :: below) ∧
        Machine.framesAtReturn (above ++ g' :: below') = some (g' :: below')) := by
  induction h with
  | @activation f h =>
      have hneither : f.work.isRunning = false ∧ f.work.isProgram = false := by
        rcases h.work with ⟨body, hw⟩ | ⟨rest, hw⟩ <;> rw [hw] <;> exact ⟨rfl, rfl⟩
      refine .inr (.inr ⟨?_, ?_⟩) <;>
        simp only [List.singleton_append, Machine.framesAtReturn, Machine.framesDownTo, hneither, hg,
          hg', Bool.false_eq_true, if_false, if_true]
  | @above f rest h ih =>
      simp only [List.cons_append, Machine.framesAtReturn, Machine.framesDownTo]
      by_cases hrunning : f.work.isRunning = true
      · refine .inr (.inl ⟨f :: rest, .above h, ?_, ?_⟩) <;> rw [if_pos hrunning] <;> rfl
      · rw [if_neg hrunning, if_neg hrunning]
        by_cases hprogram : f.work.isProgram = true
        · exact .inl ⟨if_pos hprogram, if_pos hprogram⟩
        · rw [if_neg hprogram, if_neg hprogram]
          exact ih

/-! ### Steps side by side -/

variable {run : NestedRun} {g g' : Frame} {below below' : List Frame} {completion : Value}

theorem evaluate_agree (hrun : RunsIndifferently run) (caller : Context) (depth depth' : Nat)
    (args : List Value) :
    Run.Agree Eq (evaluate run caller depth args) (evaluate run caller depth' args) := by
  unfold evaluate
  split
  · exact .pure rfl
  · refine .bind_same (.query fun s n hs => rfl) fun p => .bind_same (.edit _) fun scope => ?_
    refine .bind_same (.edit _) fun _ => ?_
    have hbody := Run.Indifferent.bind
      (push_indifferent idle (.opening (.program p.body) scope caller.receiver)) hrun
    exact .of_eq (hbody.suspended depth) fun s hs => hbody.suspended_eq depth depth' hs
  · exact .pure rfl

theorem invoke_agree (hrun : RunsIndifferently run) (fuel : Nat) (hrest : Closed rest) (f : Frame)
    (call : PendingCall) :
    Run.Agree (Beside base base') (invoke run fuel ⟨rest ++ base, completion⟩ f call)
      (invoke run fuel ⟨rest ++ base', completion⟩ f call) := by
  refine .bind_same (.edit _) fun invocation => ?_
  rcases invocation with ⟨code, closure, receiver, args⟩ | ⟨native, receiver, args⟩ | args
  · exact .bind_same (.edit _) fun scope => push_agree (.running (.above (.above hrest)) completion)
  · exact .bind_same (.edit _) fun result => .pure (hrest.deliver _ completion)
  · dsimp only
    split
    · exact .query fun s => .inl ⟨_, rfl, rfl⟩
    · rw [hrest.context_eq base base' completion]
      exact .bind (evaluate_agree hrun _ _ _ args) fun v v' hv =>
        hv ▸ .pure (hrest.deliver _ completion)

/-- The frame of an activation ends no jump of its own. -/
private theorem activation_ends (label : Option String) (h : IsActivation f) :
    f.isBreakTarget label = false ∧ f.isContinueTarget label = false ∧ f.opensScope = true := by
  have hloop : f.work.isLoop = false := by
    rcases h.work with ⟨body, hw⟩ | ⟨rest, hw⟩ <;> rw [hw] <;> rfl
  exact ⟨Frame.isBreakTarget_of_unlabeled hloop h.labels label,
    Frame.isContinueTarget_of_not_loop hloop label, h.scope⟩

theorem obey_agree (hrun : RunsIndifferently run) (fuel : Nat) (hrest : Closed rest)
    (hg : g.work.isRunning = true) (hg' : g'.work.isRunning = true) (a : Action) :
    Run.Agree (Beside (g :: below) (g' :: below'))
      (obey run fuel ⟨rest ++ g :: below, completion⟩ a)
      (obey run fuel ⟨rest ++ g' :: below', completion⟩ a) := by
  cases a with
  | await f child => exact push_agree (.running (.above (.above hrest)) completion)
  | invoke f call => exact invoke_agree hrun fuel hrest f call
  | become f => exact push_agree (.running (.above hrest) completion)
  | again f => exact .pure (.running (.above hrest) completion)
  | deliver c => exact .pure (hrest.deliver c completion)
  | leave => exact .pure (.running hrest completion)
  | complete v => exact .pure (.running hrest v)
  | breakTo label =>
      have hends (f : Frame) (hf : IsActivation f) :
          f.isBreakTarget label = false ∧ f.opensScope = true :=
        ⟨(activation_ends label hf).1, (activation_ends label hf).2.2⟩
      refine .query fun s => ?_
      rcases hrest.framesDownTo (g :: below) (g' :: below') hends with
        ⟨hnone, hnone'⟩ | ⟨target, rest', hrest', hsome, hsome'⟩
      · refine .inl ⟨jumpFailure label "break", ?_, ?_⟩
        · simp only [Machine.breakTo, framesAfterBreak, hnone]
          rfl
        · simp only [Machine.breakTo, framesAfterBreak, hnone']
          rfl
      · refine .inr ⟨_, _, ?_, ?_, .running hrest' completion⟩
        · simp only [Machine.breakTo, framesAfterBreak, hsome]
          rfl
        · simp only [Machine.breakTo, framesAfterBreak, hsome']
          rfl
  | continueAt label =>
      have hends (f : Frame) (hf : IsActivation f) :
          f.isContinueTarget label = false ∧ f.opensScope = true := (activation_ends label hf).2
      refine .query fun s => ?_
      rcases hrest.framesDownTo (g :: below) (g' :: below') hends with
        ⟨hnone, hnone'⟩ | ⟨target, rest', hrest', hsome, hsome'⟩
      · refine .inl ⟨jumpFailure label "continue", ?_, ?_⟩
        · simp only [Machine.continueAt, framesAtContinue, hnone]
          rfl
        · simp only [Machine.continueAt, framesAtContinue, hnone']
          rfl
      · have htarget : Closed (target :: rest') := .above hrest'
        refine .inr ⟨_, _, ?_, ?_, .running htarget completion⟩
        · simp only [Machine.continueAt, framesAtContinue, hsome]
          rfl
        · simp only [Machine.continueAt, framesAtContinue, hsome']
          rfl
  | returnWith v =>
      refine .query fun s => ?_
      rcases hrest.framesAtReturn below below' hg hg' with
        ⟨hnone, hnone'⟩ | ⟨rest', hrest', hsome, hsome'⟩ | ⟨hsome, hsome'⟩
      · refine .inl ⟨jumpFailure none "return", ?_, ?_⟩
        · simp only [Machine.returnWith, hnone]
          rfl
        · simp only [Machine.returnWith, hnone']
          rfl
      · refine .inr ⟨_, _, ?_, ?_, hrest'.deliver (.value v) completion⟩
        · simp only [Machine.returnWith, hsome]
          rfl
        · simp only [Machine.returnWith, hsome']
          rfl
      · refine .inr ⟨_, _, ?_, ?_, .returned v completion⟩
        · simp only [Machine.returnWith, hsome]
          rfl
        · simp only [Machine.returnWith, hsome']
          rfl

/-- **Two machines side by side take one step.** -/
theorem turn_agree (hrun : RunsIndifferently run) (fuel : Nat) (h : Closed (f :: rest))
    (hg : g.work.isRunning = true) (hg' : g'.work.isRunning = true) :
    Run.Agree (Beside (g :: below) (g' :: below'))
      (turn run fuel ⟨rest ++ g :: below, completion⟩ f)
      (turn run fuel ⟨rest ++ g' :: below', completion⟩ f) := by
  unfold turn
  cases h with
  | activation h =>
      -- the contexts may differ here, and the activation does not look at them
      rcases h.resume with hresume | ⟨f', child, hf', hresume⟩
      · rw [hresume, hresume, Run.liftM_pure, pure_bind, pure_bind]
        exact .pure (.returned .undefined completion)
      · rw [hresume, hresume, Run.liftM_pure, pure_bind, pure_bind]
        exact push_agree (.running (.above (.activation hf')) completion)
  | above hrest =>
      rw [hrest.context_eq (g :: below) (g' :: below') completion]
      exact .bind_same (.edit _) fun a => obey_agree hrun fuel hrest hg hg' a

theorem step_agree (hrun : RunsIndifferently run) (fuel : Nat) (h : Closed above)
    (hg : g.work.isRunning = true) (hg' : g'.work.isRunning = true) :
    Run.Agree (fun x x' => ∃ m m', x = some m ∧ x' = some m' ∧ Beside (g :: below) (g' :: below') m m')
      (step run fuel ⟨above ++ g :: below, completion⟩)
      (step run fuel ⟨above ++ g' :: below', completion⟩) := by
  cases above with
  | nil => cases h
  | cons f rest =>
      exact .bind (turn_agree hrun fuel h hg hg') fun m m' h => .pure ⟨m, m', rfl, rfl, h⟩

/-! ### Calls side by side -/

theorem runAbove_agree (hrun : RunsIndifferently run) (fuel : Nat) (hg : g.work.isRunning = true)
    (hg' : g'.work.isRunning = true) : ∀ (steps : Nat) {m m' : Machine},
      Beside (g :: below) (g' :: below') m m' →
      Run.Agree (Beside (g :: below) (g' :: below'))
        (runAbove run fuel (below.length + 1) steps m)
        (runAbove run fuel (below'.length + 1) steps m') := by
  intro steps
  induction steps with
  | zero => exact fun h => .pure h
  | succ steps ih =>
      intro m m' h
      cases h with
      | returned v completion =>
          have hdone (below : List Frame) (g : Frame) :
              (deliverValue ⟨g :: below, completion⟩ v).depth ≤ below.length + 1 := Nat.le_refl _
          unfold runAbove
          rw [if_pos (hdone below g), if_pos (hdone below' g')]
          exact .pure (.returned v completion)
      | @running above habove completion =>
          cases above with
          | nil => cases habove
          | cons f rest =>
              have hdeep (below : List Frame) (g : Frame) :
                  ¬ depth ⟨f :: rest ++ g :: below, completion⟩ ≤ below.length + 1 := by
                simp only [depth, List.cons_append, List.length_cons, List.length_append]
                omega
              unfold runAbove
              rw [if_neg (hdeep below g), if_neg (hdeep below' g')]
              refine .bind (step_agree hrun fuel habove hg hg') fun x x' hx => ?_
              obtain ⟨m, m', rfl, rfl, h⟩ := hx
              exact ih h

end Machine

/-! ### The scope of an activation -/

/-- An edit that cannot fail, and keeps the property. -/
def Edit.Succeeds {α : Type} (P : Heap → Prop) (act : Edit α) : Prop :=
  ∀ s, P s → ∃ x s', act s = (.ok x, s') ∧ P s'

namespace Edit.Succeeds

variable {α β : Type} {P : Heap → Prop}

theorem pure (x : α) : Edit.Succeeds P (Pure.pure x : Edit α) := fun s hs => ⟨x, s, rfl, hs⟩

theorem ask (f : Heap → α) : Edit.Succeeds P (Edit.ask f) := fun s hs => ⟨f s, s, rfl, hs⟩

theorem bind {act : Edit α} {next : α → Edit β} (hact : Edit.Succeeds P act)
    (hnext : ∀ x, Edit.Succeeds P (next x)) : Edit.Succeeds P (act >>= next) := by
  intro s hs
  obtain ⟨x, s', hx, hs'⟩ := hact s hs
  rw [bind_of_ok hx]
  exact hnext x s' hs'

theorem forM {f : α → Edit PUnit} (hf : ∀ x, Edit.Succeeds P (f x)) :
    ∀ l : List α, Edit.Succeeds P (l.forM f) := by
  intro l
  induction l with
  | nil => exact pure _
  | cons x rest ih => exact (hf x).bind fun _ => ih

theorem exists_ok {act : Edit α} {s : Heap} (h : Edit.Succeeds P act) (hs : P s) : ∃ x s', act s = (.ok x, s') := by
  obtain ⟨x, s', hact, -⟩ := h s hs
  exact ⟨x, s', hact⟩

theorem mapM {f : α → Edit β} (hf : ∀ x, Edit.Succeeds P (f x)) :
    ∀ l : List α, Edit.Succeeds P (l.mapM f) := by
  intro l
  induction l with
  | nil => exact pure _
  | cons x rest ih =>
      rw [List.mapM_cons]
      exact (hf x).bind fun _ => ih.bind fun _ => pure _

end Edit.Succeeds

theorem Object.outerScope?_define (o : Object) (key : Key) (p : Property) :
    (o.define key p).outerScope? = o.outerScope? := by
  have hadd : (o.add key p).outerScope? = o.outerScope? := by
    rcases o with ⟨parent, properties, kind⟩
    cases kind <;> cases key <;> rfl
  unfold define
  split
  · split <;> rfl
  · exact hadd

/-- One scope lies around another. -/
def Heap.Encloses (outer inner : ObjectId) (s : Heap) : Prop :=
  (s.object? inner).bind Object.outerScope? = some outer

namespace Store

variable {outer inner : ObjectId}

theorem alloc_succeeds (o : Object) : Edit.Succeeds (Heap.Encloses outer inner) (alloc o) := by
  intro s hs
  refine ⟨_, _, rfl, ?_⟩
  obtain ⟨o', ho', -⟩ := Option.bind_eq_some_iff.mp hs
  have hlt : inner.index < s.objects.size := (Array.getElem?_eq_some_iff.mp ho').1
  show ((s.objects.push o)[inner.index]?).bind Object.outerScope? = some outer
  rw [Array.getElem?_push_lt hlt, ← Array.getElem?_eq_getElem hlt]
  exact hs

theorem define_succeeds (id : ObjectId) (key : Key) (p : Property) :
    Edit.Succeeds (Heap.Encloses outer inner) (define id key p) := by
  intro s hs
  refine ⟨_, _, rfl, ?_⟩
  show ((s.objects.modify id.index fun o => o.define key p)[inner.index]?).bind Object.outerScope? =
    some outer
  rw [Array.getElem?_modify]
  split
  · obtain ⟨o, ho, hscope⟩ := Option.bind_eq_some_iff.mp hs
    exact Option.bind_eq_some_iff.mpr
      ⟨o.define key p, by rw [show s.objects[inner.index]? = some o from ho]; rfl,
      by rw [o.outerScope?_define, hscope]⟩
  · exact hs

theorem allocScript_succeeds (code : FunctionCode) (closure : ObjectId) :
    Edit.Succeeds (Heap.Encloses outer inner) (allocScript code closure) :=
  .bind (alloc_succeeds _) fun _ => .bind (alloc_succeeds _) fun _ =>
    .bind (define_succeeds _ _ _) fun _ =>
    .bind (define_succeeds _ _ _) fun _ => .bind (define_succeeds _ _ _) fun _ => .pure _

theorem hoist_succeeds (body : List Node) (scope : ObjectId) :
    Edit.Succeeds (Heap.Encloses outer inner) (hoist body scope) := by
  refine .forM (fun d => ?_) _
  rcases d with name | ⟨name, code⟩
  · refine .bind (.ask _) fun there => ?_
    split
    · exact .pure _
    · exact define_succeeds _ _ _
  · exact .bind (allocScript_succeeds _ _) fun f => define_succeeds _ _ _

end Store

/-- The scope of an activation is a new one, within the scope that the function closes over. -/
theorem activate_fresh (code : FunctionCode) (closure : ObjectId) (args : List Value) (s : Heap) :
    ∃ scope s', activate code closure args s = (.ok scope, s') ∧ s.object? scope = none ∧
      s'.Encloses closure scope := by
  let scope : ObjectId := ⟨s.objects.size⟩
  let made : Heap := { s with objects := s.objects.push (.new none (.scope (some closure))) }
  have hmade : made.Encloses closure scope := by
    show ((s.objects.push _)[s.objects.size]?).bind Object.outerScope? = some closure
    rw [Array.getElem?_push_size]
    rfl
  have hbind : Edit.Succeeds (Heap.Encloses closure scope) (bindCall scope code args) :=
    .bind (Store.alloc_succeeds _) fun list => .bind (Store.define_succeeds _ _ _) fun _ =>
      .bind (.forM (fun p => Store.define_succeeds _ _ _) _) fun _ => Store.hoist_succeeds _ _
  obtain ⟨u, s', hbound, hs'⟩ := hbind made hmade
  refine ⟨scope, s', ?_, Array.getElem?_eq_none (Nat.le_refl _), hs'⟩
  unfold activate
  rw [bind_of_ok (show Store.allocScope (some closure) s = (.ok scope, made) from rfl),
    bind_of_ok hbound]
  rfl

namespace Machine

/-- What two runs of one call have come to, on two stacks: the same frames above the call and
the same store, or the same value handed to the two frames of the call, or one failure. -/
inductive Alike (base base' : List Frame) :
    Except Failure Machine × Store → Except Failure Machine × Store → Prop where
  | going {m m' : Machine} (h : Beside base base' m m') (s : Store) :
      Alike base base' (.ok m, s) (.ok m', s)
  | failed (e : Failure) (s : Store) : Alike base base' (.error e, s) (.error e, s)

/-- **A function cannot see its caller.**  Called from any two frames on any two stacks, it gets
the same new scope within the one that it closes over, and from then on the two runs do
the same: after any number of steps the same frames stand above the two calls, or the same
value has been handed to them, or both have failed alike, and the stores are the same. -/
theorem call_cannot_see_its_caller {s : Store} {id closure : ObjectId} {code : FunctionCode}
    {body : List Node} (hunlimited : s.config.maxStackDepth = 0)
    (hfunction : (s.object? id).bind Object.callable? = some (.script code closure))
    (hbody : code.body = .block body) (receiver : Value) (constructed : Option Value)
    (args : Array Value) :
    ∃ (scope : ObjectId) (s₀ : Store), s.object? scope = none ∧ s₀.Encloses closure scope ∧
      ∀ (fuel : Nat) (f f' : Frame) (below below' : List Frame) (completion : Value),
        let call : PendingCall := ⟨id, receiver, constructed, args⟩
        let activation := Frame.opening code.body scope receiver
        let base := { f with work := .running constructed } :: below
        let base' := { f' with work := .running constructed } :: below'
        let run := runNested (fuel + 1)
        invoke run (fuel + 1) ⟨below, completion⟩ f call s =
          (.ok ⟨activation :: base, completion⟩, s₀) ∧
        invoke run (fuel + 1) ⟨below', completion⟩ f' call s =
          (.ok ⟨activation :: base', completion⟩, s₀) ∧
        ∀ steps, Alike base base'
          (runAbove run (fuel + 1) base.length steps ⟨activation :: base, completion⟩ s₀)
          (runAbove run (fuel + 1) base'.length steps ⟨activation :: base', completion⟩ s₀) := by
  obtain ⟨scope, heap, hactivate, hfresh, hencloses⟩ := activate_fresh code closure args.toList s.toHeap
  refine ⟨scope, { s with toHeap := heap }, hfresh, hencloses, ?_⟩
  intro fuel f f' below below' completion call activation base base' run
  have hresolve : call.resolve (fuel + 1) s.toHeap =
      .ok (.script code closure receiver args.toList) := by
    simp only [PendingCall.resolve, Invocation.resolve, call, hfunction]
    rfl
  have hinvoke (f : Frame) (below : List Frame) :
      invoke run (fuel + 1) ⟨below, completion⟩ f call s =
        (.ok ⟨activation :: { f with work := .running constructed } :: below, completion⟩,
          { s with toHeap := heap }) := by
    have hquery : Edit.query (call.resolve (fuel + 1)) s.toHeap =
        (.ok (.script code closure receiver args.toList), s.toHeap) := by
      simp only [Edit.query, hresolve]
    unfold invoke
    rw [bind_of_ok (Run.liftM_eq hquery)]
    dsimp only
    rw [bind_of_ok (Run.liftM_eq hactivate)]
    simp only [push, Run.query]
    rw [admitsFrame_of_unlimited (s := { s with toHeap := heap }) hunlimited]
    rfl
  refine ⟨hinvoke f below, hinvoke f' below', fun steps => ?_⟩
  have hactivation : IsActivation activation := ⟨.inl ⟨body, by rw [← hbody]; rfl⟩, rfl, rfl, rfl⟩
  have hbeside : Beside base base' ⟨activation :: base, completion⟩ ⟨activation :: base', completion⟩ :=
    .running (.activation hactivation) completion
  have hagree := runAbove_agree (runNested_indifferent (fuel + 1)) (fuel + 1) rfl rfl steps hbeside
  rcases hagree { s with toHeap := heap } hunlimited with
    ⟨e, s', he, he'⟩ | ⟨m, m', s', hm, hm', hbeside', -⟩
  · rw [show base.length = below.length + 1 from rfl,
      show base'.length = below'.length + 1 from rfl, he, he']
    exact .failed e s'
  · rw [show base.length = below.length + 1 from rfl,
      show base'.length = below'.length + 1 from rfl, hm, hm']
    exact .going hbeside' s'

/-- An empty function, called with nothing below the call, and with a frame below it that opens
a scope. -/
theorem call_cannot_see_its_caller_empty :
    let code : FunctionCode := ⟨none, [], .block []⟩
    let s := Store.holding #[⟨none, .empty, .function (.script code ⟨0⟩)⟩]
    let call : PendingCall := ⟨⟨0⟩, .undefined, none, #[]⟩
    let g : Frame := { work := .running none }
    let caller : Frame := .opening .empty ⟨7⟩ .null
    ∃ (activation : Frame) (s₀ : Store),
      invoke (runNested 1) 1 ⟨[], .null⟩ g call s = (.ok ⟨[activation, g], .null⟩, s₀) ∧
      invoke (runNested 1) 1 ⟨[caller], .null⟩ g call s = (.ok ⟨[activation, g, caller], .null⟩, s₀) ∧
      ∀ steps, Alike [g] [g, caller]
        (runAbove (runNested 1) 1 1 steps ⟨[activation, g], .null⟩ s₀)
        (runAbove (runNested 1) 1 2 steps ⟨[activation, g, caller], .null⟩ s₀) := by
  intro code s call g caller
  have hfunction : (s.object? ⟨0⟩).bind Object.callable? = some (.script code ⟨0⟩) := rfl
  obtain ⟨scope, s₀, -, -, hcalls⟩ :=
    call_cannot_see_its_caller rfl hfunction rfl .undefined none #[]
  exact ⟨_, s₀, hcalls 0 g g [] [caller] .null⟩

end Machine

end Stepwise
