/-
Stacks that stand on a base.

A tower is a part of a stack: frames that play roles, each one begun above another that
can take what it hands down, down to a floor that is an expression or a program.  Whatever
lies below the floor is the base of the tower.

`turn_onward` is what a step does to a tower: another tower stands on the same base then,
or what the floor owes has been handed to the base, and that is all that has happened to
it.  No jump gets out of a tower, since below a statement there are statements down to a
body, and the body of a function lies on the frame of its call.  Everything is said for
heaps that are grammatical, and they stay so.
-/
import Stepwise.Machine.Step
import Stepwise.Proofs.Jumps
import Stepwise.Proofs.Roles

namespace Stepwise

/-! ### Actions on a store -/

/-- An action on a store that keeps its heap grammatical, and ends with a value that has the
property, if with any. -/
def Run.Sound {α : Type} (P : α → Prop) (act : Run α) : Prop :=
  ∀ s : Store, s.Grammatical → (act s).2.Grammatical ∧ ∀ x, (act s).1 = .ok x → P x

namespace Run.Sound

variable {α β : Type} {P : β → Prop}

theorem pure {x : β} (h : P x) : Run.Sound P (Pure.pure x : Run β) := by
  intro s hs
  refine ⟨hs, fun y hy => ?_⟩
  cases hy
  exact h

theorem query {f : Store → Except Failure β} (h : ∀ s : Store, s.Grammatical → ∀ x, f s = .ok x → P x) :
    Run.Sound P (Run.query f) := fun s hs => ⟨hs, h s hs⟩

theorem bind {Q : α → Prop} {act : Run α} {next : α → Run β} (hact : Run.Sound Q act)
    (hnext : ∀ x, Q x → Run.Sound P (next x)) : Run.Sound P (act >>= next) := by
  intro s hs
  obtain ⟨hfirst, hvalue⟩ := hact s hs
  exact bind_cases (P := fun r (t : Store) => t.Grammatical ∧ ∀ y, r = .ok y → P y)
    (fun e _ => ⟨hfirst, fun y hy => by cases hy⟩) fun x hx => hnext x (hvalue x hx) _ hfirst

/-- Edits that make moves are sound. -/
theorem edit {act : Edit β} (hmoves : Edit.Moves (.of Grammatical) act)
    (hvalue : ∀ s : Heap, s.Grammatical → ∀ x, (act s).1 = .ok x → P x) :
    Run.Sound P (liftM act : Run β) := by
  intro s hs
  exact ⟨hmoves.grammatical hs, hvalue s.toHeap hs⟩

/-- The same where nothing is asked of the result. -/
theorem edit_any {act : Edit β} (hmoves : Edit.Moves (.of Grammatical) act) :
    Run.Sound (fun _ => True) (liftM act : Run β) := edit hmoves fun _ _ _ _ => trivial

theorem suspended {act : Run β} (frames : Nat) (h : Run.Sound P act) :
    Run.Sound P (Machine.suspended frames act) :=
  fun s hs => h { s with evalDepth := s.evalDepth + 1, outerFrames := s.outerFrames + frames } hs

end Run.Sound

/-! ### Towers -/

/-- Roles that a tower may stand on: an expression, or a program. -/
def Role.isFloor : Role → Bool
  | .expression _ | .body true => true
  | _ => false

/-- A part of a stack, with the role of its innermost frame. -/
inductive Tower (floor : Role) : Role → List Frame → Prop where
  | floor {f : Frame} (h : f.Plays floor) : Tower floor floor [f]
  | onto {f g : Frame} {rest : List Frame} {above below : Role} (h : f.Plays above)
      (hon : above.On below g) (hbelow : Tower floor below (g :: rest)) :
      Tower floor above (f :: g :: rest)

/-- Hand a result to the frame below. -/
def handTo (c : Completion) : List Frame → List Frame
  | [] => []
  | f :: below => { f with value := some c } :: below

theorem Machine.deliver_frames (m : Machine) (c : Completion) :
    (m.deliver c).frames = handTo c m.frames := by
  rcases m with ⟨- | ⟨f, below⟩, completion⟩ <;> rfl

/-- What a tower on a base has come to. -/
inductive Onward (floor : Role) (base : List Frame) (frames : List Frame) : Prop where
  | standing {role : Role} {tower : List Frame} (h : Tower floor role tower)
      (hframes : frames = tower ++ base)
  | delivered {c : Completion} (h : c.shape = floor.hands) (hframes : frames = handTo c base)

namespace Tower

variable {floor role : Role} {f : Frame} {rest base : List Frame}

theorem plays (h : Tower floor role (f :: rest)) : f.Plays role := by
  cases h with
  | floor h => exact h
  | onto h => exact h

/-- Another frame in the same role. -/
theorem replace (h : Tower floor role (f :: rest)) {f' : Frame} (hf' : f'.Plays role) :
    Tower floor role (f' :: rest) := by
  cases h with
  | floor h => exact .floor hf'
  | onto h hon hbelow => exact .onto hf' hon hbelow

/-- A result handed to the frame below, by the frame that owes it. -/
theorem deliver (h : Tower floor role (f :: rest)) {c : Completion} (hc : c.shape = role.hands) :
    Onward floor base (handTo c (rest ++ base)) := by
  cases h with
  | floor h => exact .delivered hc rfl
  | onto h hon hbelow =>
      refine .standing (hbelow.replace (hbelow.plays.withValue (c := c) ?_)) rfl
      cases hon with
      | expression hpromise => rw [hc]; exact hpromise
      | ofStatement | ofBody | call => rw [hc]; exact Work.accepts_value _

end Tower

/-! ### Jumps

A jump looks through the statements below it, as far as the body that they belong to.
-/

/-- The roles that a jump looks at. -/
inductive Role.Holds : Role → Prop where
  | statement : Holds .statement
  | body (ofProgram : Bool) : Holds (.body ofProgram)

namespace Tower

variable {floor role : Role} {f : Frame} {rest base : List Frame}

/-- Below a statement there is a statement or a body. -/
theorem below_statement (hfloor : floor.isFloor = true) (h : Tower floor .statement (f :: rest)) :
    ∃ below, below.Holds ∧ Tower floor below rest := by
  cases h with
  | floor h => cases hfloor
  | onto h hon hbelow =>
      cases hon with
      | ofStatement => exact ⟨_, .statement, hbelow⟩
      | ofBody => exact ⟨_, .body _, hbelow⟩

/-- A jump to a statement that no body takes for its target ends within the tower. -/
theorem framesDownTo (hfloor : floor.isFloor = true) {isTarget isEnd : Frame → Bool}
    (hbody : ∀ f ofProgram, f.Plays (.body ofProgram) → isTarget f = false ∧ isEnd f = true) :
    ∀ {tower : List Frame} {role : Role}, role.Holds → Tower floor role tower →
      ∀ {frames : List Frame}, Machine.framesDownTo isTarget isEnd (tower ++ base) = some frames →
        ∃ tower', Tower floor .statement tower' ∧ frames = tower' ++ base := by
  intro tower
  induction tower with
  | nil => intro role _ h; cases h
  | cons f rest ih =>
      intro role hrole h frames hframes
      rw [List.cons_append] at hframes
      cases hrole with
      | statement =>
          rw [Machine.framesDownTo] at hframes
          split at hframes
          · cases hframes
            exact ⟨_, h, rfl⟩
          · split at hframes
            · cases hframes
            · obtain ⟨below, hbelow, htower⟩ := h.below_statement hfloor
              exact ih hbelow htower hframes
      | body ofProgram =>
          obtain ⟨htarget, hend⟩ := hbody f ofProgram h.plays
          rw [Machine.framesDownTo_of_end htarget hend] at hframes
          cases hframes

/-- The frame of a body is not where a `break` or a `continue` goes, and ends the search. -/
private theorem body_ends {ofProgram : Bool} (h : f.Plays (.body ofProgram)) (label : Option String) :
    f.isBreakTarget label = false ∧ f.isContinueTarget label = false ∧ f.opensScope = true := by
  have hloop : f.work.isLoop = false := by
    have hw : f.work.isBody ofProgram = true := h.permits
    unfold Work.isBody at hw
    split at hw
    · simp only [Work.isLoop, Node.isLoop, *]
    · simp only [Work.isLoop, Node.isLoop, *]
    · simp only [Work.isLoop, *]
    · cases hw
  exact ⟨Frame.isBreakTarget_of_unlabeled hloop (h.labels rfl) label,
    Frame.isContinueTarget_of_not_loop hloop label, h.scope⟩

theorem afterBreak (hfloor : floor.isFloor = true) (hrole : role.Holds) {tower : List Frame}
    (h : Tower floor role tower) (label : Option String) {frames : List Frame}
    (hframes : Machine.framesAfterBreak label (tower ++ base) = some frames) :
    Onward floor base frames := by
  obtain ⟨found, hfound, rfl⟩ := Option.map_eq_some_iff.mp hframes
  obtain ⟨tower', htower', rfl⟩ := h.framesDownTo hfloor
    (fun f _ hf => ⟨(body_ends hf label).1, (body_ends hf label).2.2⟩) hrole hfound
  cases tower' with
  | nil => cases htower'
  | cons target rest =>
      obtain ⟨below, -, hbelow⟩ := htower'.below_statement hfloor
      exact .standing hbelow rfl

theorem atContinue (hfloor : floor.isFloor = true) (hrole : role.Holds) {tower : List Frame}
    (h : Tower floor role tower) (label : Option String) {frames : List Frame}
    (hframes : Machine.framesAtContinue label (tower ++ base) = some frames) :
    Onward floor base frames := by
  obtain ⟨tower', htower', rfl⟩ := h.framesDownTo hfloor
    (fun f _ hf => (body_ends hf label).2) hrole hframes
  exact .standing htower' rfl

private theorem framesAtReturn_of_statement (h : f.Plays .statement) (below : List Frame) :
    Machine.framesAtReturn (f :: below) = Machine.framesAtReturn below := by
  have hw : f.work.isStatement = true := h.permits
  have hneither : f.work.isRunning = false ∧ f.work.isProgram = false := by
    rcases f with ⟨work, value, scope, receiver, labels⟩
    cases work with
    | node n wantsReference => cases n <;> first | exact ⟨rfl, rfl⟩ | cases hw
    | statements ofProgram rest =>
        cases ofProgram with
        | false => exact ⟨rfl, rfl⟩
        | true => cases hw
    | running constructed => cases hw
    | _ => exact ⟨rfl, rfl⟩
  exact Machine.framesDownTo_of_passed hneither.1 hneither.2 below

private theorem framesAtReturn_of_body {ofProgram : Bool} (h : f.Plays (.body ofProgram))
    (below : List Frame) : Machine.framesAtReturn (f :: below) =
      if ofProgram then none else Machine.framesAtReturn below := by
  have hw : f.work.isBody ofProgram = true := h.permits
  have hneither : f.work.isRunning = false ∧ f.work.isProgram = ofProgram := by
    unfold Work.isBody at hw
    split at hw <;> simp_all [Work.isRunning, Work.isProgram]
  simp only [Machine.framesAtReturn, Machine.framesDownTo, hneither, Bool.false_eq_true, if_false]

/-- A `return` ends at the frame of a call, and hands its value to that. -/
theorem atReturn (hfloor : floor.isFloor = true) (v : Value) :
    ∀ {tower : List Frame} {role : Role}, role.Holds → Tower floor role tower →
      ∀ {frames : List Frame}, Machine.framesAtReturn (tower ++ base) = some frames →
        Onward floor base (handTo (.value v) frames) := by
  intro tower
  induction tower with
  | nil => intro role _ h; cases h
  | cons f rest ih =>
      intro role hrole h frames hframes
      rw [List.cons_append] at hframes
      cases hrole with
      | statement =>
          obtain ⟨below, hbelow, htower⟩ := h.below_statement hfloor
          rw [framesAtReturn_of_statement h.plays] at hframes
          exact ih hbelow htower hframes
      | body ofProgram =>
          rw [framesAtReturn_of_body h.plays] at hframes
          split at hframes
          · cases hframes
          · cases h with
            | floor h => exact absurd hfloor (by simp_all [Role.isFloor])
            | onto h hon hbelow =>
                cases hon with
                | call hrunning =>
                    rw [List.cons_append, Machine.framesAtReturn, Machine.framesDownTo, if_pos hrunning]
                      at hframes
                    cases hframes
                    refine .standing (hbelow.replace (hbelow.plays.withValue ?_)) rfl
                    exact Work.accepts_value _

end Tower

/-! ### Actions -/

namespace Invocation

/-- The code that a call runs in the end is that of a function in the heap. -/
theorem resolve_script {s : Heap} {code : FunctionCode} {closure : ObjectId} {receiver : Value}
    {args : List Value} :
    ∀ {fuel : Nat} {callee : ObjectId} {r : Value} {as : List Value},
      resolve s fuel callee r as = .ok (.script code closure receiver args) →
        ∃ id o, s.object? id = some o ∧ o.callable? = some (.script code closure) := by
  intro fuel
  induction fuel with
  | zero => intro callee r as h; cases h
  | succ fuel ih =>
      intro callee r as h
      rw [resolve] at h
      split at h
      · cases h
      · obtain ⟨callee', -, h⟩ := exists_of_bind_eq_ok h
        obtain ⟨args', -, h⟩ := exists_of_bind_eq_ok h
        exact ih h
      · obtain ⟨callee', -, h⟩ := exists_of_bind_eq_ok h
        exact ih h
      · cases h
      · cases h
      · rename_i hfound
        cases h
        obtain ⟨o, ho, hcallable⟩ := Option.bind_eq_some_iff.mp hfound
        exact ⟨callee, o, ho, hcallable⟩

end Invocation

namespace Machine

variable {floor role : Role} {rest base : List Frame} {completion : Value} {f : Frame}

/-- The frames of machines of one evaluation stand on nothing but a program. -/
def IsSound (m : Machine) : Prop := m.frames = [] ∨ ∃ role, Tower (.body true) role m.frames

/-- Nested machines keep the heap grammatical. -/
def RunsSoundly (run : NestedRun) : Prop := ∀ m, m.IsSound → Run.Sound (fun _ => True) (run m)

theorem exists_of_jump_eq_ok {m m' : Machine} {frames : Option (List Frame)} {failure : Failure}
    (h : m.jump frames failure = .ok m') :
    ∃ frames', frames = some frames' ∧ m' = { m with frames := frames' } := by
  cases frames with
  | none => cases h
  | some frames' => cases h; exact ⟨frames', rfl, rfl⟩

theorem push_sound {m : Machine} {P : Machine → Prop} (h : P { m with frames := f :: m.frames }) :
    Run.Sound P (m.push f) := by
  refine .query fun s hs x hx => ?_
  split at hx
  · cases hx
    exact h
  · cases hx

theorem evaluateSource_sound {run : NestedRun} (hrun : RunsSoundly run) (caller : Context)
    (depth : Nat) (source : String) :
    Run.Sound (fun _ => True) (evaluateSource run caller depth source) := by
  refine .bind (Q := fun p => p.isGrammatical = true) (.query fun s hs p hp => ?_) fun p hp => ?_
  · unfold admitSource at hp
    split at hp
    · cases hp
    · exact hs.texts source p hp
  · refine .bind (.edit_any (Store.allocScope_moves _)) fun scope _ => ?_
    refine .bind (.edit_any (Store.hoist_moves _ _ fun name code hd => ?_)) fun _ _ => ?_
    · exact declarationsOf_grammatical p.body hp _ hd
    · refine .suspended _ (.bind (Q := IsSound) (push_sound (.inr ⟨_, .floor ?_⟩)) hrun)
      exact p.opening_plays hp scope caller.receiver

theorem evaluate_sound {run : NestedRun} (hrun : RunsSoundly run) (caller : Context)
    (depth : Nat) (args : List Value) :
    Run.Sound (fun _ => True) (evaluate run caller depth args) := by
  unfold evaluate
  split
  · exact .pure trivial
  · exact evaluateSource_sound hrun _ _ _
  · exact .pure trivial

/-- Only an expression that owes a value waits for a call. -/
private theorem hands_of_running {constructed : Option Value}
    (h : role.permits (.running constructed) = true) : role = .expression .value := by
  rcases role with promise | - | ofProgram
  · cases promise <;> first | rfl | cases h
  · cases h
  · cases h

/-- What a call comes to: the function that is called, if it is one of a script, is
well-formed. -/
theorem resolve_sound (call : PendingCall) (fuel : Nat) :
    Run.Sound (fun invocation => ∀ code closure receiver args,
        invocation = .script code closure receiver args → Grammatical code)
      (liftM (Edit.query (call.resolve fuel)) : Run Invocation) := by
  refine .edit (.query _) fun s hs invocation h code closure receiver args heq => ?_
  obtain ⟨id, o, ho, hcode⟩ := Invocation.resolve_script (heq ▸ h)
  exact hs.functions id o code closure ho hcode

theorem invoke_onward {run : NestedRun} (hrun : RunsSoundly run) (fuel : Nat)
    (call : PendingCall) {g : Frame} (h : Tower floor role (g :: rest))
    (hf : ∀ constructed, ({ f with work := .running constructed } : Frame).Plays role) :
    Run.Sound (fun m => Onward floor base m.frames)
      (invoke run fuel ⟨rest ++ base, completion⟩ f call) := by
  have hrole := hands_of_running (hf none).permits
  have hdeliver (v : Value) :
      Onward floor base (deliverValue ⟨rest ++ base, completion⟩ v).frames := by
    rw [deliverValue, deliver_frames]
    exact h.deliver (by rw [hrole]; rfl)
  refine .bind (resolve_sound call fuel) fun invocation hcode => ?_
  rcases invocation with ⟨code, closure, receiver, args⟩ | ⟨native, receiver, args⟩ | args
  · have hgood := hcode code closure receiver args rfl
    obtain ⟨body, hbody, hstatements⟩ := Code.exists_block hgood
    refine .bind (.edit_any (activate_moves closure args fun name inner hd => ?_)) fun scope _ => ?_
    · refine declarationsOf_grammatical [code.body] ?_ _ hd
      simp only [areStatements, hbody, Node.isStatement, hstatements, Bool.and_self]
    · refine push_sound (.standing (.onto (code.opening_plays hgood scope receiver) ?_
        (h.replace (hf call.constructed))) rfl)
      rw [hrole]
      exact .call rfl
  · refine .bind (.edit_any ((native.code.call_cutsLast receiver args).moves trivial)) fun result _ => ?_
    exact .pure (hdeliver _)
  · dsimp only
    split
    · exact .query fun s hs x hx => by cases hx
    · exact .bind (evaluate_sound hrun _ _ args) fun v _ => .pure (hdeliver v)

/-- An action that becomes the role of a frame leaves a tower, or hands down what is owed. -/
theorem obey_onward {run : NestedRun} (hrun : RunsSoundly run) (fuel : Nat)
    (hfloor : floor.isFloor = true) {a : Action} (ha : a.Fits role)
    (h : Tower floor role (f :: rest)) :
    Run.Sound (fun m => Onward floor base m.frames)
      (obey run fuel ⟨rest ++ base, completion⟩ a) := by
  cases a with
  | await f' child =>
      obtain ⟨hf', above, hchild, hon⟩ := ha
      exact push_sound (.standing (.onto hchild hon (h.replace hf')) rfl)
  | invoke f' call => exact invoke_onward hrun fuel call h ha
  | become f' => exact push_sound (.standing (h.replace ha) rfl)
  | again f' => exact .pure (.standing (h.replace ha) rfl)
  | deliver c =>
      refine .pure ?_
      rw [deliver_frames]
      exact h.deliver ha
  | leave | complete v =>
      cases ha
      obtain ⟨below, -, hbelow⟩ := h.below_statement hfloor
      exact .pure (.standing hbelow rfl)
  | breakTo label =>
      cases ha
      obtain ⟨below, hholds, hbelow⟩ := h.below_statement hfloor
      refine .query fun s hs m hm => ?_
      obtain ⟨frames, hframes, rfl⟩ := exists_of_jump_eq_ok hm
      exact hbelow.afterBreak hfloor hholds label hframes
  | continueAt label =>
      cases ha
      obtain ⟨below, hholds, hbelow⟩ := h.below_statement hfloor
      refine .query fun s hs m hm => ?_
      obtain ⟨frames, hframes, rfl⟩ := exists_of_jump_eq_ok hm
      exact hbelow.atContinue hfloor hholds label hframes
  | returnWith v =>
      cases ha
      obtain ⟨below, hholds, hbelow⟩ := h.below_statement hfloor
      refine .query fun s hs m hm => ?_
      obtain ⟨called, hcalled, rfl⟩ := exists_of_map_eq_ok hm
      obtain ⟨frames, hframes, rfl⟩ := exists_of_jump_eq_ok hcalled
      rw [deliverValue, deliver_frames]
      exact hbelow.atReturn hfloor v hholds hframes

/-- **A step on a tower.**  The tower goes on standing on its base, or what it owed has been
handed to the base. -/
theorem turn_onward {run : NestedRun} (hrun : RunsSoundly run) (fuel : Nat)
    (hfloor : floor.isFloor = true) (h : Tower floor role (f :: rest)) :
    Run.Sound (fun m => Onward floor base m.frames) (turn run fuel ⟨rest ++ base, completion⟩ f) := by
  have hf := h.plays
  have hmoves : Edit.Moves (.of Grammatical) (f.resume (context ⟨rest ++ base, completion⟩)) :=
    (f.resume_cutsLast _ f.keyedBy_any fun _ _ hwork => hf.grammatical_of_work hwork).moves trivial
  refine .bind (.edit hmoves fun s hs a ha => ?_) fun a (ha : a.Fits role) =>
    obey_onward hrun fuel hfloor ha h
  exact Frame.resume_fits _ hf s a _ (Prod.ext ha rfl)

end Machine

end Stepwise
