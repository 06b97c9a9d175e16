/-
What a store counts.

A store counts the evaluations that run inside one another, and the frames of the machines
that wait for them.  Both counters go up where a machine is nested and come down where its
run is over.  A run can fail anywhere, in a machine inside a machine, and the failure goes
through all of them; so the counters have to come down on that way too, or else an
evaluation that follows would have less to spend.

`IsBalanced` says that an action ends with the counters where they were, in success and in
failure.  It is closed under one action after another, and a run of a nested machine has
it by induction on the fuel.  While the run goes on, the counters tell the truth: at every
instant as many evaluations are counted as there are machines that wait, and as many
frames as these hold.
-/
import Stepwise.Proofs.Instants

namespace Stepwise

/-! ### Balance -/

/-- The counters of a store are where they were, under the same settings. -/
structure Store.Balances (s s' : Store) : Prop where
  evalDepth : s'.evalDepth = s.evalDepth
  outerFrames : s'.outerFrames = s.outerFrames
  config : s'.config = s.config

namespace Store.Balances

variable {s s' s'' : Store}

theorem refl (s : Store) : s.Balances s := ⟨rfl, rfl, rfl⟩

theorem trans (h : s.Balances s') (h' : s'.Balances s'') : s.Balances s'' where
  evalDepth := by rw [h'.evalDepth, h.evalDepth]
  outerFrames := by rw [h'.outerFrames, h.outerFrames]
  config := by rw [h'.config, h.config]

end Store.Balances

/-- An action that leaves the counters as it finds them, whether it fails or not. -/
def Run.IsBalanced {α : Type} (act : Run α) : Prop := ∀ s : Store, s.Balances (act s).2

namespace Run.IsBalanced

variable {α β : Type}

theorem pure (x : α) : Run.IsBalanced (Pure.pure x : Run α) := Store.Balances.refl

theorem query (f : Store → Except Failure α) : Run.IsBalanced (Run.query f) := Store.Balances.refl

theorem ask (f : Store → α) : Run.IsBalanced (Run.ask f) := Store.Balances.refl

/-- An edit does not reach the counters. -/
theorem edit (act : Edit α) : Run.IsBalanced (liftM act : Run α) := by
  intro s
  rcases hact : act s.toHeap with ⟨result, heap⟩
  rw [Run.liftM_eq hact]
  exact ⟨rfl, rfl, rfl⟩

theorem bind {act : Run α} {next : α → Run β} (hact : act.IsBalanced)
    (hnext : ∀ x, (next x).IsBalanced) : (act >>= next).IsBalanced := by
  intro s
  exact snd_bind (hact s) fun x => (hact s).trans (hnext x _)

theorem map {act : Run α} (f : α → β) (hact : act.IsBalanced) : (f <$> act).IsBalanced := by
  rw [map_eq_pure_bind]
  exact hact.bind fun x => pure (f x)

/-- What was counted for a nested machine is taken back when its run is over. -/
theorem suspended {act : Run α} (hact : act.IsBalanced) (frames : Nat) :
    (Machine.suspended frames act).IsBalanced := by
  intro s
  have hwithin := hact (s.nesting frames)
  have hdepth : (act (s.nesting frames)).2.evalDepth - 1 = s.evalDepth := by
    rw [hwithin.evalDepth]
    exact Nat.add_sub_cancel _ _
  exact ⟨hdepth, rfl, hwithin.config⟩

/-- The counters after an action, told by what it comes to. -/
theorem of_eq {act : Run α} (hact : act.IsBalanced) {s s' : Store} {result : Except Failure α}
    (h : act s = (result, s')) : s.Balances s' := by
  have hs := hact s
  rw [h] at hs
  exact hs

end Run.IsBalanced

namespace Machine

theorem push_balanced (m : Machine) (f : Frame) : (m.push f).IsBalanced := .query _

theorem openSource_balanced (caller : Context) (source : String) :
    (openSource caller source).IsBalanced := by
  refine .bind (.query _) fun program => ?_
  refine .bind (.edit _) fun scope => ?_
  exact .bind (.edit _) fun _ => .pure _

theorem evaluated_balanced (fuel : Nat) (m : Machine) (f : Frame) :
    (evaluated fuel m f).IsBalanced := by
  refine .bind (.edit _) fun action => .bind (.ask _) fun source => ?_
  cases source with
  | some source => exact .map some (openSource_balanced _ _)
  | none => exact .pure _

section

variable {run : NestedRun} (hrun : ∀ m, (run m).IsBalanced) (fuel : Nat)

include hrun

theorem evaluateSource_balanced (caller : Context) (depth : Nat) (source : String) :
    (evaluateSource run caller depth source).IsBalanced := by
  rw [evaluateSource_eq]
  refine .bind (openSource_balanced _ _) fun g => ?_
  exact .suspended (.bind (push_balanced _ _) hrun) depth

theorem evaluate_balanced (caller : Context) (depth : Nat) (args : List Value) :
    (evaluate run caller depth args).IsBalanced := by
  unfold evaluate
  split
  · exact .pure _
  · exact evaluateSource_balanced hrun caller depth _
  · exact .pure _

theorem invoke_balanced (m : Machine) (f : Frame) (call : PendingCall) :
    (invoke run fuel m f call).IsBalanced := by
  refine .bind (.edit _) fun invocation => ?_
  cases invocation with
  | native function receiver args => exact .bind (.edit _) fun result => .pure _
  | eval args =>
      dsimp only
      split
      · exact .query _
      · exact .bind (evaluate_balanced hrun _ _ _) fun v => .pure _
  | script code closure receiver args => exact .bind (.edit _) fun scope => push_balanced _ _

theorem obey_balanced (m : Machine) (a : Action) : (obey run fuel m a).IsBalanced := by
  cases a with
  | await f child => exact push_balanced _ _
  | invoke f call => exact invoke_balanced hrun fuel m f call
  | become f => exact push_balanced _ _
  | breakTo label => exact .query _
  | continueAt label => exact .query _
  | returnWith v => exact .query _
  | _ => exact .pure _

/-- A step is balanced if the runs of nested machines are. -/
theorem step_balanced (m : Machine) : (step run fuel m).IsBalanced := by
  unfold step
  split
  · exact .pure _
  · refine .bind ?_ fun m => .pure _
    exact .bind (.edit _) fun action => obey_balanced hrun fuel _ action

end

/-- **A nested run leaves the counters as it finds them**, to whatever depth it nests others. -/
theorem runNested_balanced : ∀ (fuel : Nat) (m : Machine), (runNested fuel m).IsBalanced := by
  intro fuel
  induction fuel with
  | zero => exact fun m => .query _
  | succ fuel ih =>
      intro m
      refine .bind (step_balanced ih fuel m) fun next => ?_
      cases next with
      | none => exact .pure _
      | some m => exact ih m

/-! ### What is counted -/

/-- A source text is evaluated only where there is room for one more evaluation. -/
theorem lt_maxEvalDepth_of_evaluated {fuel : Nat} {m : Machine} {f g : Frame} {s s' : Store}
    (h : evaluated fuel m f s = (.ok (some g), s')) : s'.evalDepth < s'.config.maxEvalDepth := by
  obtain ⟨action, source, s₁, -, -, hopen⟩ := evaluated_eq_some h
  have hs := (openSource_balanced _ _).of_eq hopen
  obtain ⟨program, s₂, hadmit, -⟩ := exists_of_run_bind_eq_ok hopen
  -- the text was admitted, or there would be no frame
  have hroom : ¬ s₁.config.maxEvalDepth ≤ s₁.evalDepth := by
    intro hfull
    have hrefused : Run.query (fun s => admitSource s source) s₁ = (.error .stackExhausted, s₁) := by
      rw [Run.query, admitSource, if_pos hfull]
      rfl
    rw [hrefused] at hadmit
    cases hadmit
  rw [hs.evalDepth, hs.config]
  exact Nat.lt_of_not_le hroom

end Machine

/-- The counters of the store count the machines that wait, within the limit. -/
structure Instant.IsCounted (config : Config) (p : Instant) : Prop where
  settings : p.store.config = config
  evalDepth : p.store.evalDepth = p.waiting.length
  outerFrames : p.store.outerFrames = p.framesWaiting
  within : p.store.evalDepth ≤ config.maxEvalDepth

namespace Machine

/-- **The counters tell the truth** at every instant, if they do when a step begins. -/
theorem isCounted_persists (config : Config) : Persists (Instant.IsCounted config) where
  step := by
    intro fuel m m' waiting s s' hp hstep
    have hs := (step_balanced (runNested_balanced fuel) fuel m).of_eq hstep
    refine ⟨hs.config.trans hp.settings, hs.evalDepth.trans hp.evalDepth,
      hs.outerFrames.trans hp.outerFrames, ?_⟩
    show s'.evalDepth ≤ _
    rw [hs.evalDepth]
    exact hp.within
  nested := by
    intro fuel f g waiting s s' m hp hnested
    obtain ⟨s₁, hevaluated, rfl⟩ := nested?_eq_some hnested
    have hs := (evaluated_balanced fuel m f).of_eq hevaluated
    have hroom := lt_maxEvalDepth_of_evaluated hevaluated
    have hconfig : s₁.config = config := hs.config.trans hp.settings
    have hdepth : s₁.evalDepth = waiting.length := hs.evalDepth.trans hp.evalDepth
    have hframes : s₁.outerFrames = (waiting.map depth).sum := hs.outerFrames.trans hp.outerFrames
    refine ⟨hconfig, ?_, ?_, ?_⟩
    · show s₁.evalDepth + 1 = waiting.length + 1
      rw [hdepth]
    · show s₁.outerFrames + m.depth = m.depth + (waiting.map depth).sum
      rw [hframes, Nat.add_comm]
    · show s₁.evalDepth + 1 ≤ config.maxEvalDepth
      rw [← hconfig]
      exact hroom
  begins := by
    intro fuel f g n waiting s s' s'' m _ _ hidle hpush
    obtain ⟨-, rfl, -⟩ := push_eq_ok hpush
    exact ⟨hidle.settings, hidle.evalDepth, hidle.outerFrames, hidle.within⟩

end Machine

/-! ### What a host comes to -/

namespace Library

private theorem forM_balanced {α : Type} {f : α → Run PUnit} (hf : ∀ x, (f x).IsBalanced) (xs : List α) :
    Run.IsBalanced (xs.forM f) := by
  induction xs with
  | nil => exact .pure _
  | cons x rest ih => exact .bind (hf x) fun _ => ih

theorem installEval_balanced : installEval.IsBalanced := by
  refine .bind (.ask _) fun allowed => ?_
  cases allowed with
  | true => exact .bind (.edit _) fun eval => .edit _
  | false => exact .pure _

theorem install_balanced : install.IsBalanced := by
  refine .bind (forM_balanced (fun p => .edit _) pairs) fun _ => .bind (.edit _) fun _ => ?_
  iterate 9 refine .bind (.edit _) fun _ => ?_
  iterate 3 refine .bind (.edit _) fun _ => ?_
  exact installEval_balanced

end Library

theorem Store.create_balances (config : Config) (reader : Option SourceReader) (clock : Float)
    (seed : UInt64) : (bare config reader clock seed).Balances (create config reader clock seed) := by
  unfold create
  exact Library.install_balanced _

namespace Evaluator

/-- What a host can come to.  It starts an evaluator, over a new store or over what another one
has left behind; it steps; and before and between the steps it edits the heap as it likes. -/
inductive Hosted : Evaluator → Prop where
  | start (p : Program) (config : Config) (reader : Option SourceReader) (clock : Float)
      (seed : UInt64) (prepare : Edit Unit) :
      Hosted (start p (Store.create config reader clock seed) (Run.edit prepare))
  | again (p : Program) (prepare : Edit Unit) {e : Evaluator} (he : Hosted e) :
      Hosted (start p e.store (Run.edit prepare))
  | edit (act : Edit Unit) {e : Evaluator} (he : Hosted e) : Hosted (e.prepare (Run.edit act))
  | step (fuel : Nat) {e : Evaluator} (he : Hosted e) : Hosted (e.step fuel).2

theorem start_balances (p : Program) (s : Store) (prepare : Edit Unit) :
    s.Balances (start p s (Run.edit prepare)).store := by
  have hhoist : s.Balances (Run.edit (Store.hoist p.body Intrinsic.globalScope) s).2 :=
    Run.IsBalanced.edit _ s
  exact hhoist.trans (Run.IsBalanced.edit prepare _)

theorem start_machine (p : Program) (s : Store) (prepare : Run Unit) :
    (start p s prepare).machine = .ofProgram p Intrinsic.globalScope (.object Intrinsic.globalScope) :=
  rfl

theorem step_balances (e : Evaluator) (fuel : Nat) : e.store.Balances (e.step fuel).2.store := by
  rcases e with ⟨s, m⟩
  have hstep := Machine.step_balanced (Machine.runNested_balanced fuel) fuel m s
  rw [step]
  split
  all_goals
    rename_i heq
    rw [heq] at hstep
    exact hstep

/-- A host finds nothing counted. -/
theorem Hosted.counters {e : Evaluator} (he : e.Hosted) :
    e.store.evalDepth = 0 ∧ e.store.outerFrames = 0 := by
  induction he with
  | start p config reader clock seed prepare =>
      have hcreate := Store.create_balances config reader clock seed
      have hstart := hcreate.trans (start_balances p (Store.create config reader clock seed) prepare)
      exact ⟨hstart.evalDepth, hstart.outerFrames⟩
  | @again p prepare e _ ih =>
      have hstart := start_balances p e.store prepare
      exact ⟨hstart.evalDepth.trans ih.1, hstart.outerFrames.trans ih.2⟩
  | @edit act e _ ih =>
      have hedit := Run.IsBalanced.edit act e.store
      exact ⟨hedit.evalDepth.trans ih.1, hedit.outerFrames.trans ih.2⟩
  | @step fuel e _ ih =>
      have hstep := step_balances e fuel
      exact ⟨hstep.evalDepth.trans ih.1, hstep.outerFrames.trans ih.2⟩

/-- An evaluator that has failed has nothing left to do, and keeps the completion it had. -/
theorem step_failed {e e' : Evaluator} {fuel : Nat} {failure : Failure}
    (h : e.step fuel = (.error failure, e')) :
    e'.machine = ⟨[], e.completion⟩ := by
  rcases e with ⟨s, m⟩
  rw [step] at h
  split at h
  · cases h
  · cases h
  · cases h
    rfl

theorem step_of_no_frames (s : Store) (completion : Value) (fuel : Nat) :
    step fuel ⟨s, ⟨[], completion⟩⟩ = (.ok false, ⟨s, ⟨[], completion⟩⟩) := rfl

/-- **A step leaves the counters as it found them**, at nothing, in success and in failure, and
the settings with them; while it runs they are never above the limit and count what there
is.  A step that fails leaves an evaluator that is done for good, with the completion it had.
So whatever ran over a store, the next program has all the evaluations and frames to spend
that the settings allow. -/
theorem step_keeps_counters {e : Evaluator} (he : e.Hosted) (fuel : Nat) :
    e.store.evalDepth = 0 ∧ e.store.outerFrames = 0 ∧
      e.store.Balances (e.step fuel).2.store ∧
      (∀ p ∈ e.instants fuel, p.IsCounted e.store.config) ∧
      ∀ failure e', e.step fuel = (.error failure, e') →
        e'.machine.frames = [] ∧ e'.completion = e.completion ∧
          ∀ later, e'.step later = (.ok false, e') := by
  obtain ⟨hdepth, hframes⟩ := he.counters
  refine ⟨hdepth, hframes, step_balances e fuel, ?_, ?_⟩
  · have hcounted : Instant.IsCounted e.store.config ⟨e.machine, [], e.store⟩ := by
      refine ⟨rfl, hdepth, hframes, ?_⟩
      show e.store.evalDepth ≤ _
      rw [hdepth]
      exact Nat.zero_le _
    exact forall_instants (Machine.isCounted_persists _) fuel hcounted
  · intro failure e' hfails
    have hmachine := step_failed hfails
    rcases e' with ⟨s', m'⟩
    cases hmachine
    exact ⟨rfl, rfl, fun later => step_of_no_frames s' _ later⟩

/-- An evaluator of a statement for which there is no room. -/
def cramped : Evaluator :=
  start ⟨[.empty]⟩ (Store.create { maxStackDepth := 1 } none 0 1) (Run.edit (pure ()))

theorem step_keeps_counters_cramped :
    cramped.Hosted ∧ (cramped.step 1).1 = .error .stackExhausted ∧
      cramped.store.Balances (cramped.step 1).2.store ∧
      (cramped.step 1).2.machine.frames = [] ∧
      ∀ later, (cramped.step 1).2.step later = (.ok false, (cramped.step 1).2) := by
  have hhosted : cramped.Hosted := .start _ _ _ _ _ _
  have hstart := (Store.create_balances { maxStackDepth := 1 } none 0 1).trans
    (start_balances ⟨[.empty]⟩ _ (pure ()))
  have hfails : (cramped.step 1).1 = .error .stackExhausted := by
    unfold cramped
    generalize hs : (start ⟨[.empty]⟩ (Store.create { maxStackDepth := 1 } none 0 1)
      (Run.edit (pure ()))) = e at hstart
    have hmachine : e.machine =
        .ofProgram ⟨[.empty]⟩ Intrinsic.globalScope (.object Intrinsic.globalScope) := by
      rw [← hs, start_machine]
    rcases e with ⟨⟨heap, config, evalDepth, outerFrames⟩, m⟩
    obtain ⟨-, rfl, rfl⟩ := hstart
    cases hmachine
    rfl
  obtain ⟨-, -, hbalances, -, hafter⟩ := step_keeps_counters hhosted 1
  have hstep : cramped.step 1 = (.error .stackExhausted, (cramped.step 1).2) := by
    rw [← hfails]
  have hafter := hafter _ _ hstep
  exact ⟨hhosted, hfails, hbalances, hafter.1, hafter.2.2⟩

end Evaluator

end Stepwise
