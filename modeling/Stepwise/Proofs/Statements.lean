/-
The machine follows the recursion on statements.

A jump looks down the stack for its target.  In the recursion it ends one statement after
the other, on the way up.  That both find the same is the matter of one frame: what a jump
comes to above a frame is what is left of it around the statement of that frame, below.
-/
import Stepwise.Proofs.Execution
import Stepwise.Proofs.Expressions
import Stepwise.Proofs.Jumps
import Stepwise.Proofs.Towers

namespace Stepwise

/-- What becomes of the frame of a statement that ends so. -/
def Ending.action : Ending → Action
  | normal false => .leave
  | normal true => .deliverValue .undefined
  | breakTo label => .breakTo label
  | continueAt label => .continueAt label
  | returnWith v => .returnWith v

/-- Is the ending not that of a statement that is done? -/
def Ending.IsJump : Ending → Prop
  | normal _ => False
  | _ => True

namespace Machine

variable {g : Frame} {below : List Frame}

namespace Setting

variable {w : Setting} {k : Nat} {call : Calls}

/-! ### Jumps past one frame -/

/-- A jump out of a block. -/
theorem landing_pastBlock (h : LetsPass g) (hloop : g.work.isLoop = false) {ending : Ending}
    (hjump : ending.IsJump) : w.landing (g :: below) Ending.action ending =
      w.landing below Ending.action (ending.pastBlock g.labels) := by
  funext completion
  cases ending with
  | normal handsDown => cases hjump
  | breakTo label =>
      have hbreak := h.breakTo_cons below label completion
      rw [Frame.isBreakTarget_of_not_loop hloop] at hbreak
      simp only [landing, Ending.action, obey, hbreak, Ending.pastBlock]
      by_cases hown : label.any g.labels.contains = true
      · rw [if_pos hown, if_pos hown]
        rfl
      · rw [if_neg hown, if_neg hown]
  | continueAt label =>
      have hcontinue := h.continueAt_cons below label completion
      rw [Frame.isContinueTarget_of_not_loop hloop, if_neg Bool.false_ne_true] at hcontinue
      simp only [landing, Ending.action, obey, hcontinue, Ending.pastBlock]
  | returnWith v =>
      simp only [landing, Ending.action, obey, h.returnWith_cons, Ending.pastBlock]

/-- The body of a loop has ended so that the loop does too. -/
theorem landing_pastLoop (h : LetsPass g) (hloop : g.work.isLoop = true) {ending ending' : Ending}
    (hends : ending.pastLoop g.labels = some ending') :
    w.landing (g :: below) Ending.action ending = w.landing below Ending.action ending' := by
  funext completion
  cases ending with
  | normal handsDown => cases hends
  | breakTo label =>
      have hbreak := h.breakTo_cons below label completion
      rw [Frame.isBreakTarget_of_loop hloop] at hbreak
      obtain rfl := Option.some.inj hends
      simp only [landing, Ending.action, obey, hbreak]
      by_cases hown : label.all g.labels.contains = true
      · rw [if_pos hown, if_pos hown]
        rfl
      · rw [if_neg hown, if_neg hown]
  | continueAt label =>
      have hcontinue := h.continueAt_cons below label completion
      rw [Frame.isContinueTarget_of_loop hloop] at hcontinue
      by_cases hown : label.all g.labels.contains = true
      · rw [Ending.pastLoop, if_pos hown] at hends
        cases hends
      · rw [Ending.pastLoop, if_neg hown] at hends
        obtain rfl := Option.some.inj hends
        rw [if_neg hown] at hcontinue
        simp only [landing, Ending.action, obey, hcontinue]
  | returnWith v =>
      obtain rfl := Option.some.inj hends
      simp only [landing, Ending.action, obey, h.returnWith_cons]

/-- The body of a loop has ended so that the loop goes on: its frame has its turn, whatever the
body has handed down. -/
theorem landing_of_pastLoop_eq_none (w : Setting) (below : List Frame) (h : LetsPass g)
    (hloop : g.work.isLoop = true) {ending : Ending} (hgoesOn : ending.pastLoop g.labels = none) :
    ∃ value, ∀ completion,
      w.landing (g :: below) Ending.action ending completion =
        Pure.pure ⟨{ g with value } :: below, completion⟩ := by
  cases ending with
  | normal handsDown =>
      cases handsDown with
      | false => exact ⟨g.value, fun completion => rfl⟩
      | true => exact ⟨some (.value .undefined), fun completion => rfl⟩
  | breakTo label => cases hgoesOn
  | continueAt label =>
      by_cases hown : label.all g.labels.contains = true
      · refine ⟨g.value, fun completion => ?_⟩
        have hcontinue := h.continueAt_cons below label completion
        rw [Frame.isContinueTarget_of_loop hloop, if_pos hown] at hcontinue
        simp only [landing, Ending.action, obey, hcontinue]
        rfl
      · rw [Ending.pastLoop, if_neg hown] at hgoesOn
        cases hgoesOn
  | returnWith v => cases hgoesOn

/-! ### Statements above frames -/

/-- The machine follows the execution of a statement, under any labels and above any frames. -/
def Executes (w : Setting) (k : Nat) (call : Calls) (n : Node) : Prop :=
  ∀ (below : List Frame) (labels : List String), w.height ≤ below.length →
    w.Follows k (fun completion => push ⟨below, completion⟩ { Frame.ofNode n false with labels })
      (n.execute call k (siteOf below) labels) (w.landing below Ending.action)

variable {β : Type} {f : Frame} {n e : Node} {labels : List String} {land : β → Value → Run Machine}

/-- A statement is reached. -/
theorem Follows.reachStatement {ev : Eval β} (hlow : w.height ≤ below.length)
    (h : w.Follows k (w.carryOut below
      (({ Frame.ofNode n false with labels } : Frame).begin (siteOf below).context false n)) ev land) :
    w.Follows k (fun completion => Machine.push ⟨below, completion⟩
      { Frame.ofNode n false with labels })
      (requireRoom (siteOf below) >>= fun _ => ev) land :=
  (Follows.enter (f := { Frame.ofNode n false with labels }) hlow h).of_le (Nat.le_succ k)

/-- A frame waits for a statement, which stands under no labels then. -/
theorem Follows.awaitStatement {work : Work} {next : Ending → Eval β} (hlow : w.height ≤ below.length)
    (hf : IsBare f) (hn : w.Executes k call n)
    (hnext : ∀ ending, w.Follows k (w.landing ({ f with work } :: below) Ending.action ending)
      (next ending) land) :
    w.Follows k (w.carryOut below (Pure.pure (f.awaitValue work n)))
      (n.execute call k (siteOf below).inner [] >>= next) land := by
  have hchild := hn ({ f with work } :: below) [] (Nat.le_succ_of_le hlow)
  rw [siteOf_cons (hf.after work f.value)] at hchild
  exact hchild.bind hnext

section

variable (hlow : w.height ≤ below.length)
include hlow

/-! ### Bodies -/

/-- The statements of a body run one after the other, up to the first that jumps.  What
comes of a jump is left open, since the body of a function and a block differ in that. -/
theorem nextStatement_follows (finish : Ending → Eval β) {c : Site}
    (hsite : ∀ work value, siteOf ({ f with work, value } :: below) = c)
    (hjump : ∀ rest value ending, ending.IsJump → w.Follows k
      (w.landing ({ f with work := .statements false rest, value } :: below) Ending.action ending)
      (finish ending) land)
    (hend : w.Follows k (w.landing below Ending.action (.normal true)) (finish (.normal true)) land) :
    ∀ statements : List Node, (∀ n ∈ statements, w.Executes k call n) → ∀ work value,
      w.Follows k
        (w.carryOut below (Pure.pure (({ f with work, value } : Frame).nextStatement false statements)))
        (executeAll call k c statements >>= finish) land := by
  intro statements
  induction statements with
  | nil => intro _ work value; exact hend
  | cons n rest ih =>
      intro hn work value
      have hrest := ih fun n h => hn n (List.mem_cons_of_mem _ h)
      have hchild := hn n List.mem_cons_self
        ({ f with work := .statements false rest, value := none } :: below) [] (Nat.le_succ_of_le hlow)
      rw [hsite] at hchild
      rw [executeAll, bind_assoc]
      refine hchild.bind fun ending => ?_
      have hresumed (value : Option Completion) : w.Follows k
          (fun completion => Pure.pure
            ⟨{ f with work := .statements false rest, value } :: below, completion⟩)
          (executeAll call k c rest >>= finish) land :=
        (Follows.turn (f := { f with work := .statements false rest, value }) hlow
          (hrest (.statements false rest) value)).of_le (Nat.le_succ k)
      cases ending with
      | normal handsDown =>
          cases handsDown with
          | false => exact (hresumed none).of_eq fun _ => rfl
          | true => exact (hresumed (some (.value .undefined))).of_eq fun _ => rfl
      | breakTo label => exact hjump rest none _ trivial
      | continueAt label => exact hjump rest none _ trivial
      | returnWith v => exact hjump rest none _ trivial

end

theorem block_executes {body : List Node} (h : ∀ n ∈ body, w.Executes k call n) :
    w.Executes k call (.block body) := by
  intro below labels hlow
  refine .reachStatement hlow ?_
  simp only [Frame.begin]
  refine nextStatement_follows (f := { Frame.ofNode (.block body) false with labels }) hlow
    (fun ending => Pure.pure (ending.pastBlock labels))
    (fun work value => siteOf_cons ⟨rfl, rfl⟩ below) (fun rest value ending hjump => ?_)
    ?_ body h _ none
  · rw [landing_pastBlock ⟨rfl, rfl, rfl⟩ rfl hjump]
    exact .pure _ _
  · exact .pure (w.landing below Ending.action) _

/-! ### Loops -/

/-- The frame of a loop while its body runs. -/
structure IsLoopFrame (labels : List String) (g : Frame) : Prop where
  bare : IsBare g
  letsPass : LetsPass g
  isLoop : g.work.isLoop = true
  labels : g.labels = labels

theorem IsLoopFrame.after (h : IsLoopFrame labels g) (value : Option Completion) :
    IsLoopFrame labels { g with value } :=
  ⟨⟨h.bare.scope, h.bare.receiver⟩, ⟨h.letsPass.scope, h.letsPass.running, h.letsPass.program⟩,
    h.isLoop,
    h.labels⟩

/-- The body of a loop has come to its end: the loop ends too, or its frame has its turn. -/
theorem afterBody_follows (hlow : w.height ≤ below.length) (hg : IsLoopFrame labels g)
    {ending : Ending} {next : Eval Ending}
    (hnext : ∀ value, w.Follows k
      (w.carryOut below (({ g with value } : Frame).resume (siteOf below).context)) next
      (w.landing below Ending.action)) :
    w.Follows (k + 1) (w.landing (g :: below) Ending.action ending)
      (match ending.pastLoop labels with
        | some ending => Pure.pure ending
        | none => next)
      (w.landing below Ending.action) := by
  have hlabels := hg.labels
  subst hlabels
  rcases hpast : ending.pastLoop g.labels with - | ending'
  · obtain ⟨value, hvalue⟩ := landing_of_pastLoop_eq_none w below hg.letsPass hg.isLoop hpast
    exact (Follows.turn (f := { g with value }) hlow (hnext value)).of_eq hvalue
  · rw [landing_pastLoop hg.letsPass hg.isLoop hpast]
    exact .pure _ _

/-- What comes of the test of a loop: its body begins above its frame, or it is done. -/
def beginBody {σ : Type} (below : List Frame) (g : σ → Frame) (body : Node) (next : Option σ)
    (completion : Value) : Run Machine :=
  match next with
  | none => Pure.pure ⟨below, completion⟩
  | some x => push ⟨g x :: below, completion⟩ (.ofNode body false)

/-- Where the rounds of a loop do not suffice, nothing is said of the run that goes on, but that
it has taken as many turns. -/
def CountsTurns (w : Setting) : Prop := ∀ (act : Run Machine) (s : Store), w.Open 0 act s

/-- What the frame of a loop does follows the repetition of its body, for a bounded number of
rounds: by induction on that number, if a round begins with the test, and another one begins
after the update.  Each round takes a turn at least. -/
theorem repeatWhile_follows (hcounts : w.CountsTurns) {σ : Type} {body : Node}
    {test : σ → Eval (Option σ)} {update : Eval Unit}
    (round : σ → Option Completion → Value → Run Machine) (g : σ → Frame)
    (hlow : w.height ≤ below.length) (hbody : w.Executes k call body)
    (hg : ∀ x, IsLoopFrame labels (g x))
    (htest : ∀ x value, ∃ value', w.Follows k (round x value) (test x)
      (beginBody below (fun x => { g x with value := value' }) body))
    (hupdate : ∀ rounds ≤ k, ∀ x value next,
      (∀ value, w.Follows rounds (round x value) next (w.landing below Ending.action)) →
        w.Follows rounds
          (w.carryOut below (({ g x with value } : Frame).resume (siteOf below).context))
          (update >>= fun _ => next) (w.landing below Ending.action)) :
    ∀ rounds ≤ k, ∀ x value, w.Follows rounds (round x value)
      (repeatWhile labels test (body.execute call k (siteOf below).inner []) update rounds x)
      (w.landing below Ending.action) := by
  intro rounds
  induction rounds with
  | zero =>
      intro _ x value
      exact .stuck fun completion s hs => hcounts _ s
  | succ rounds ih =>
      intro hle x value
      obtain ⟨value', hround⟩ := htest x value
      rw [repeatWhile]
      refine (hround.of_le hle).bind fun next => ?_
      cases next with
      | none => exact .pure (w.landing below Ending.action) (.normal false)
      | some x =>
          have hframe := (hg x).after value'
          have hchild := hbody ({ g x with value := value' } :: below) [] (Nat.le_succ_of_le hlow)
          rw [siteOf_cons hframe.bare] at hchild
          refine (hchild.of_le hle).bind fun ending => ?_
          exact afterBody_follows hlow hframe fun value =>
            hupdate rounds (Nat.le_of_succ_le hle) x value _ fun value =>
              ih (Nat.le_of_succ_le hle) x value

/-- A frame runs the body of its loop if the test holds. -/
theorem runBody_follows (holds : Bool) {work : Work} {body : Node} :
    w.Follows k (w.carryOut below (Pure.pure (f.runBody holds work body)))
      (Pure.pure (if holds then some () else none))
      (beginBody below (fun _ => { f with work }) body) := by
  cases holds with
  | true => exact .pure (beginBody below (fun _ => { f with work }) body) (some ())
  | false => exact .pure (beginBody below (fun _ => { f with work }) body) none

theorem Evaluates.of_le {j : Nat} (h : w.Evaluates k call e) (hle : j ≤ k) : w.Evaluates j call e :=
  fun below wantsReference hlow => (h below wantsReference hlow).of_le hle

variable {test object target body : Node} {init testIfAny update : Option Node}

theorem whileStatement_executes (hcounts : w.CountsTurns) (htest : w.Evaluates k call test)
    (hbody : w.Executes k call body) : w.Executes k call (.whileStatement test body) := by
  intro below labels hlow
  refine .reachStatement hlow ?_
  simp only [Frame.begin]
  let g : Frame := { work := .whileNext test body, labels }
  refine repeatWhile_follows hcounts
    (fun _ value => w.carryOut below (({ g with value } : Frame).resume (siteOf below).context))
    (fun _ => g) hlow hbody
    (fun _ => ⟨⟨rfl, rfl⟩, ⟨rfl, rfl, rfl⟩, rfl, rfl⟩) (fun _ value => ⟨none, ?_⟩)
    (fun rounds hle _ value next hnext => ?_) k (Nat.le_refl k) () none
  · simp only [whenever, evaluateTest, bind_assoc, pure_bind, Frame.resume]
    refine .await hlow ⟨rfl, rfl⟩ htest fun t => ?_
    simp only [Frame.resume, Frame.result_some]
    exact runBody_follows _
  · exact hnext value

theorem doWhileStatement_executes (hcounts : w.CountsTurns) (htest : w.Evaluates k call test)
    (hbody : w.Executes k call body) :
    w.Executes k call (.doWhileStatement test body) := by
  intro below labels hlow
  refine .reachStatement hlow ?_
  simp only [Frame.begin]
  let g : Frame := { work := .doBody body test, labels }
  have hg : IsLoopFrame labels g := ⟨⟨rfl, rfl⟩, ⟨rfl, rfl, rfl⟩, rfl, rfl⟩
  refine .awaitStatement hlow ⟨rfl, rfl⟩ hbody fun ending => ?_
  refine Follows.of_le (afterBody_follows hlow hg fun value => ?_) (Nat.le_succ k)
  refine repeatWhile_follows hcounts
    (fun _ value => w.carryOut below (({ g with value } : Frame).resume (siteOf below).context))
    (fun _ => g) hlow hbody
    (fun _ => hg) (fun _ value => ⟨none, ?_⟩) (fun rounds hle _ value next hnext => ?_)
    k (Nat.le_refl k) () value
  · simp only [whenever, evaluateTest, bind_assoc, pure_bind, Frame.resume]
    refine .await hlow ⟨rfl, rfl⟩ htest fun t => ?_
    simp only [Frame.resume, Frame.result_some]
    exact runBody_follows _
  · exact hnext value

/-! ### Declarations -/

section

variable (hlow : w.height ≤ below.length)
include hlow

/-- A variable is declared. -/
theorem declare_follows (hf : IsBare f) (name : String)
    (hinit : ∀ e, init = some e → w.Evaluates k call e) :
    w.Follows k (w.carryOut below
      (f.begin (siteOf below).context false (.variableDeclarator name init)))
      (declare call (siteOf below) name init)
      (fun _ => w.landing below Ending.action (.normal false)) := by
  cases init with
  | none => exact .pure (fun _ => w.landing below Ending.action (.normal false)) ()
  | some e =>
      refine .await hlow hf (hinit e rfl) fun v => ?_
      simp only [Frame.resume, Frame.result_some, Frame.scopeIn, hf.scope]
      rw [← bind_pure (liftM (Store.assign _ _ _))]
      exact .edit ((Store.assign_cutsLast _ _ _).moves trivial) fun u =>
        .pure (fun _ => w.landing below Ending.action (.normal false)) u

/-- A declaration goes through its declarators. -/
theorem nextDeclarator_follows : ∀ declarators : List Node,
    (∀ d ∈ declarators, ∃ name init, d = .variableDeclarator name init ∧
      ∀ e, init = some e → w.Evaluates k call e) → ∀ f : Frame, IsBare f →
      w.Follows k (w.carryOut below (Pure.pure (f.nextDeclarator declarators)))
        (declareAll call (siteOf below).inner declarators)
        (fun _ => w.landing below Ending.action (.normal false)) := by
  intro declarators
  induction declarators with
  | nil =>
      intro _ f hf
      exact .pure (fun _ => w.landing below Ending.action (.normal false)) ()
  | cons d rest ih =>
      intro hdeclares f hf
      obtain ⟨name, init, rfl, hinit⟩ := hdeclares d List.mem_cons_self
      let g : Frame := { f with work := .declarators rest }
      have hg : IsBare g := hf.after (.declarators rest) f.value
      have hchild : w.Follows k
          (fun completion => push ⟨g :: below, completion⟩
            (.ofNode (.variableDeclarator name init) false))
          (requireRoom (siteOf (g :: below)) >>= fun _ => declare call (siteOf (g :: below)) name init)
          (fun _ => w.landing (g :: below) Ending.action (.normal false)) :=
        .reach (Nat.le_succ_of_le hlow) (declare_follows (Nat.le_succ_of_le hlow) ⟨rfl, rfl⟩ name hinit)
      rw [siteOf_cons hg] at hchild
      rw [declareAll, ← bind_assoc]
      refine hchild.bind fun _ => ?_
      have hrest := ih (fun d h => hdeclares d (List.mem_cons_of_mem _ h)) g hg
      exact (Follows.turn (f := g) hlow hrest).of_le (Nat.le_succ k)

/-- A frame waits for an expression if there is one, and makes nothing of the result. -/
theorem awaitIfAny_follows (hf : IsBare f) {work : Work} {part : Option Node} {next : Eval β}
    (hpart : ∀ e, part = some e → w.Evaluates k call e)
    (hnext : ∀ value, w.Follows k
      (w.carryOut below (({ f with work, value } : Frame).resume (siteOf below).context)) next land) :
    w.Follows k (w.carryOut below (Pure.pure (f.awaitIfAny work part)))
      (evaluateIfAny call (siteOf below).inner part >>= fun _ => next) land := by
  cases part with
  | none => exact (Follows.turn (f := { f with work }) hlow (hnext f.value)).of_le (Nat.le_succ k)
  | some e =>
      rw [evaluateIfAny, bind_assoc]
      exact .await hlow hf (hpart e rfl) fun c => hnext (some c)

end

theorem variableDeclaration_executes (kind : VariableKind) {declarators : List Node}
    (h : ∀ d ∈ declarators, ∃ name init, d = .variableDeclarator name init ∧
      ∀ e, init = some e → w.Evaluates k call e) :
    w.Executes k call (.variableDeclaration kind declarators) := by
  intro below labels hlow
  refine .reachStatement hlow ?_
  simp only [Frame.begin]
  exact (nextDeclarator_follows hlow declarators h _ ⟨rfl, rfl⟩).bind fun _ =>
    .pure (w.landing below Ending.action) _

theorem variableDeclarator_executes (name : String) (h : ∀ e, init = some e → w.Evaluates k call e) :
    w.Executes k call (.variableDeclarator name init) := by
  intro below labels hlow
  refine .reachStatement hlow ?_
  exact (declare_follows hlow ⟨rfl, rfl⟩ name h).bind fun _ => .pure (w.landing below Ending.action) _

/-- The machine follows what a loop begins with. -/
def Begins (w : Setting) (k : Nat) (call : Calls) (init : Option Node) : Prop :=
  ∀ (below : List Frame) (f : Frame) (work : Work) (next : Eval Ending)
      (land : Ending → Value → Run Machine),
    w.height ≤ below.length → IsBare f →
    (∀ value, w.Follows k
      (w.carryOut below (({ f with work, value } : Frame).resume (siteOf below).context)) next land) →
    w.Follows k (w.carryOut below (Pure.pure (f.awaitIfAny work init)))
      (executeInit call (siteOf below).inner init >>= fun _ => next) land

theorem executeInit_of_isExpression (he : isExpressionIfAny init = true) (c : Site) :
    executeInit call c init = evaluateIfAny call c init := by
  cases init with
  | none => rfl
  | some e => cases e <;> first | rfl | cases he

theorem begins_of_isExpression (he : isExpressionIfAny init = true)
    (h : ∀ e, init = some e → w.Evaluates k call e) : w.Begins k call init := by
  intro below f work next land hlow hf hnext
  rw [executeInit_of_isExpression he]
  exact awaitIfAny_follows hlow hf h hnext

theorem begins_of_declaration (kind : VariableKind) {declarators : List Node}
    (h : ∀ d ∈ declarators, ∃ name init, d = .variableDeclarator name init ∧
      ∀ e, init = some e → w.Evaluates k call e) :
    w.Begins k call (some (.variableDeclaration kind declarators)) := by
  intro below f work next land hlow hf hnext
  let g : Frame := { f with work }
  have hg : IsBare g := hf.after work f.value
  have hchild : w.Follows k
      (fun completion => push ⟨g :: below, completion⟩
        (.ofNode (.variableDeclaration kind declarators) false))
      (requireRoom (siteOf (g :: below)) >>= fun _ =>
        declareAll call (siteOf (g :: below)).inner declarators)
      (fun _ => w.landing (g :: below) Ending.action (.normal false)) :=
    .reach (Nat.le_succ_of_le hlow)
      (nextDeclarator_follows (Nat.le_succ_of_le hlow) declarators h _ ⟨rfl, rfl⟩)
  rw [siteOf_cons hg] at hchild
  refine hchild.bind fun _ => ?_
  exact (Follows.turn (f := g) hlow (hnext f.value)).of_le (Nat.le_succ k)

/-! ### Loops with more parts -/

theorem forStatement_executes (hcounts : w.CountsTurns) (hinit : w.Begins k call init)
    (htest : ∀ e, testIfAny = some e → w.Evaluates k call e)
    (hupdate : ∀ e, update = some e → w.Evaluates k call e) (hbody : w.Executes k call body) :
    w.Executes k call (.forStatement init testIfAny update body) := by
  intro below labels hlow
  refine .reachStatement hlow ?_
  simp only [Frame.begin]
  refine hinit below _ _ _ _ hlow ⟨rfl, rfl⟩ fun value => ?_
  let loop : ForLoop := ⟨testIfAny, update, body⟩
  let g : Frame := { work := .forUpdate loop, labels }
  refine repeatWhile_follows hcounts
    (fun _ value => w.carryOut below
      (({ g with work := .forTest loop, value } : Frame).resume (siteOf below).context))
    (fun _ => g) hlow hbody
    (fun _ => ⟨⟨rfl, rfl⟩, ⟨rfl, rfl, rfl⟩, rfl, rfl⟩) (fun _ value => ⟨none, ?_⟩)
    (fun rounds hle _ value next hnext => ?_) k (Nat.le_refl k) () value
  · simp only [Frame.resume, whenever]
    cases testIfAny with
    | none =>
        have hbodyFrame : w.Follows k
            (w.carryOut below
              (({ g with work := .forBody loop } : Frame).resume (siteOf below).context))
            (Pure.pure (some ())) (beginBody below (fun _ => g) body) :=
          runBody_follows (f := { g with work := .forBody loop }) true
        exact (Follows.turn (f := { g with work := .forBody loop }) hlow hbodyFrame).of_le
          (Nat.le_succ k)
    | some test =>
        simp only [evaluateTestIfAny, evaluateTest, bind_assoc, pure_bind]
        refine .await hlow ⟨rfl, rfl⟩ (htest test rfl) fun t => ?_
        simp only [Frame.resume, Frame.result_some]
        exact runBody_follows _
  · exact awaitIfAny_follows hlow ⟨rfl, rfl⟩ (fun e he => (hupdate e he).of_le hle) hnext

/-- The next name is assigned and the body begins, or the loop is done. -/
theorem nextName_follows (names : Enumeration) :
    w.Follows k (w.carryOut below (f.nextName (siteOf below).context names body))
      (assignNextName (siteOf below) names)
      (beginBody below (fun names => { f with work := .forInNext names body }) body) := by
  refine .edit (.ask _) fun next => ?_
  rcases next with - | ⟨key, names⟩
  · exact .pure (beginBody below (fun names => { f with work := .forInNext names body }) body) none
  · exact .edit ((Reference.write_cutsLast _ (Reference.keyedBy_any _) _).moves trivial) fun _ =>
      .pure (beginBody below (fun names => { f with work := .forInNext names body }) body) (some names)

theorem forInStatement_executes (hcounts : w.CountsTurns)
    (htarget : (Frame.declaredTarget? target).isSome = true ∨ w.Evaluates k call target)
    (hobject : w.Evaluates k call object) (hbody : w.Executes k call body) :
    w.Executes k call (.forInStatement target object body) := by
  intro below labels hlow
  refine .reachStatement hlow ?_
  -- the loop proper, with the place that the names are assigned to
  have hloop (place : Reference) : w.Follows k
      (w.carryOut below
        (Pure.pure (({ Frame.ofNode (.forInStatement target object body) false with labels }
        : Frame).awaitValue (.forInObject place body) object)))
      (do
        let v ← object.evaluate call (siteOf below).inner false
        let names ← Edit.ask fun s => Enumeration.start s place v.result
        repeatWhile labels (assignNextName (siteOf below))
          (body.execute call k (siteOf below).inner []) (return ()) k names)
      (w.landing below Ending.action) := by
    refine .await hlow ⟨rfl, rfl⟩ hobject fun v => ?_
    simp only [Frame.resume, Frame.result_some]
    refine .edit (.ask _) fun names => ?_
    let g (names : Enumeration) : Frame := { work := .forInNext names body, labels }
    refine repeatWhile_follows hcounts
      (fun names value => w.carryOut below
        (({ g names with value } : Frame).resume (siteOf below).context))
      g hlow hbody (fun _ => ⟨⟨rfl, rfl⟩, ⟨rfl, rfl, rfl⟩, rfl, rfl⟩)
      (fun names value => ⟨value, nextName_follows names⟩)
      (fun rounds hle names value next hnext => ?_) k (Nat.le_refl k) names none
    exact hnext value
  simp only [Frame.begin, enumeratedPlace]
  rcases hdeclared : Frame.declaredTarget? target with - | name
  · have he : w.Evaluates k call target := by
      rcases htarget with h | h
      · rw [hdeclared] at h
        cases h
      · exact h
    simp only [bind_assoc]
    refine .await hlow ⟨rfl, rfl⟩ he fun t => ?_
    simp only [Frame.resume, Frame.target_some]
    exact .query fun place => hloop place
  · exact hloop (.variable name)

/-! ### Other statements -/

theorem expressionStatement_executes (he : w.Evaluates k call e) :
    w.Executes k call (.expressionStatement e) := by
  intro below labels hlow
  refine .reachStatement hlow ?_
  simp only [Frame.begin]
  refine .await hlow ⟨rfl, rfl⟩ he fun v => ?_
  simp only [Frame.resume, Frame.result_some]
  have hdone : w.Follows k (w.landing below Ending.action (.normal false)) (Pure.pure (.normal false))
      (w.landing below Ending.action) := .pure _ _
  exact hdone.complete

theorem ifStatement_executes {consequent : Node} {alternate : Option Node}
    (htest : w.Evaluates k call test) (hconsequent : w.Executes k call consequent)
    (halternate : ∀ n, alternate = some n → w.Executes k call n) :
    w.Executes k call (.ifStatement test consequent alternate) := by
  intro below labels hlow
  refine .reachStatement hlow ?_
  simp only [Frame.begin, evaluateTest, bind_assoc, pure_bind]
  refine .await hlow ⟨rfl, rfl⟩ htest fun t => ?_
  simp only [Frame.resume, Frame.result_some]
  by_cases hholds : t.result.truthy = true
  · rw [if_pos hholds, if_pos hholds]
    exact hconsequent below labels hlow
  · rw [if_neg hholds, if_neg hholds]
    cases alternate with
    | none => exact .done Ending.action (.normal false)
    | some n => exact halternate n rfl below labels hlow

theorem breakStatement_executes (label : Option String) :
    w.Executes k call (.breakStatement label) := by
  intro below labels hlow
  refine .reachStatement hlow ?_
  exact .done Ending.action (.breakTo label)

theorem continueStatement_executes (label : Option String) :
    w.Executes k call (.continueStatement label) := by
  intro below labels hlow
  refine .reachStatement hlow ?_
  exact .done Ending.action (.continueAt label)

theorem returnStatement_executes {argument : Option Node}
    (h : ∀ e, argument = some e → w.Evaluates k call e) :
    w.Executes k call (.returnStatement argument) := by
  intro below labels hlow
  refine .reachStatement hlow ?_
  simp only [Frame.begin]
  cases argument with
  | none => exact .done Ending.action (.returnWith .undefined)
  | some e =>
      refine .await hlow ⟨rfl, rfl⟩ (h e rfl) fun v => ?_
      simp only [Frame.resume, Frame.result_some]
      exact .done Ending.action (.returnWith v.result)

theorem throwStatement_executes (he : w.Evaluates k call e) :
    w.Executes k call (.throwStatement e) := by
  intro below labels hlow
  refine .reachStatement hlow ?_
  simp only [Frame.begin]
  refine .await hlow ⟨rfl, rfl⟩ he fun v => ?_
  simp only [Frame.resume, Frame.result_some]
  exact .refuses _

theorem labeled_executes (label : String) (hbody : w.Executes k call body) :
    w.Executes k call (.labeled label body) := by
  intro below labels hlow
  refine .reachStatement hlow ?_
  exact hbody below (labels ++ [label]) hlow

theorem empty_executes : w.Executes k call .empty := by
  intro below labels hlow
  refine .reachStatement hlow ?_
  exact .done Ending.action (.normal false)

theorem functionDeclaration_executes (code : FunctionCode) :
    w.Executes k call (.functionDeclaration code) := by
  intro below labels hlow
  refine .reachStatement hlow ?_
  exact .done Ending.action (.normal false)

theorem unsupported_executes : w.Executes k call .unsupported := by
  intro below labels hlow
  refine .reachStatement hlow ?_
  exact .fails _

/-! ### All statements -/

section

variable (hcall : w.Faithful k call)
include hcall

/-- The parts of a statement that are expressions. -/
theorem expressionIfAny_evaluates {part : Option Node} (h : isExpressionIfAny part = true) :
    ∀ e, part = some e → w.Evaluates k call e := by
  rintro e rfl
  exact evaluates hcall e h

theorem declarators_evaluate {declarators : List Node} (h : areDeclarators declarators = true) :
    ∀ d ∈ declarators, ∃ name init, d = .variableDeclarator name init ∧
      ∀ e, init = some e → w.Evaluates k call e := by
  induction declarators with
  | nil => intro d hd; cases hd
  | cons first rest ih =>
      cases first with
      | variableDeclarator name init =>
          simp only [areDeclarators, Bool.and_eq_true] at h
          intro d hd
          rcases List.mem_cons.mp hd with rfl | hd
          · exact ⟨name, init, rfl, expressionIfAny_evaluates hcall h.1⟩
          · exact ih h.2 d hd
      | _ => cases h

theorem init_begins {init : Option Node} (h : isInitIfAny init = true) : w.Begins k call init := by
  have hexpression (he : isExpressionIfAny init = true) : w.Begins k call init :=
    begins_of_isExpression he (expressionIfAny_evaluates hcall he)
  cases init with
  | none => exact hexpression rfl
  | some node =>
      cases node with
      | variableDeclaration kind declarators =>
          exact begins_of_declaration kind (declarators_evaluate hcall h)
      | _ => exact hexpression h

end

mutual

/-- **The machine follows the execution of every statement**, if it follows the calls. -/
theorem executes (hcounts : w.CountsTurns) (hcall : w.Faithful k call) (n : Node)
    (hn : n.isStatement = true) :
    w.Executes k call n := by
  cases n with
  | variableDeclaration kind declarators =>
      exact variableDeclaration_executes kind (declarators_evaluate hcall hn)
  | variableDeclarator name init =>
      exact variableDeclarator_executes name (expressionIfAny_evaluates hcall hn)
  | functionDeclaration code => exact functionDeclaration_executes code
  | block body => exact block_executes (statements_execute hcounts hcall body hn)
  | expressionStatement e => exact expressionStatement_executes (evaluates hcall e hn)
  | ifStatement test consequent alternate =>
      simp only [Node.isStatement, Bool.and_eq_true] at hn
      exact ifStatement_executes (evaluates hcall test hn.1) (executes hcounts hcall consequent hn.2.1)
        (statementIfAny_executes hcounts hcall alternate hn.2.2)
  | forStatement init test update body =>
      simp only [Node.isStatement, Bool.and_eq_true] at hn
      exact forStatement_executes hcounts (init_begins hcall hn.1)
        (expressionIfAny_evaluates hcall hn.2.1)
        (expressionIfAny_evaluates hcall hn.2.2.1) (executes hcounts hcall body hn.2.2.2)
  | forInStatement target object body =>
      simp only [Node.isStatement, Bool.and_eq_true] at hn
      refine forInStatement_executes hcounts ?_ (evaluates hcall object hn.2.1)
        (executes hcounts hcall body hn.2.2)
      rcases Bool.or_eq_true_iff.mp hn.1 with he | hdeclared
      · exact .inr (evaluates hcall target he)
      · exact .inl hdeclared
  | whileStatement test body =>
      simp only [Node.isStatement, Bool.and_eq_true] at hn
      exact whileStatement_executes hcounts (evaluates hcall test hn.1)
        (executes hcounts hcall body hn.2)
  | doWhileStatement test body =>
      simp only [Node.isStatement, Bool.and_eq_true] at hn
      exact doWhileStatement_executes hcounts (evaluates hcall test hn.1)
        (executes hcounts hcall body hn.2)
  | breakStatement label => exact breakStatement_executes label
  | continueStatement label => exact continueStatement_executes label
  | returnStatement argument => exact returnStatement_executes (expressionIfAny_evaluates hcall hn)
  | throwStatement e => exact throwStatement_executes (evaluates hcall e hn)
  | labeled label body => exact labeled_executes label (executes hcounts hcall body hn)
  | empty => exact empty_executes
  | unsupported => exact unsupported_executes
  | _ => cases hn

theorem statements_execute (hcounts : w.CountsTurns) (hcall : w.Faithful k call)
    (statements : List Node) (h : areStatements statements = true) :
    ∀ n ∈ statements, w.Executes k call n := by
  cases statements with
  | nil => intro n hn; cases hn
  | cons first rest =>
      simp only [areStatements, Bool.and_eq_true] at h
      intro n hn
      rcases List.mem_cons.mp hn with hfirst | hn
      · rw [hfirst]
        exact executes hcounts hcall first h.1
      · exact statements_execute hcounts hcall rest h.2 n hn

theorem statementIfAny_executes (hcounts : w.CountsTurns) (hcall : w.Faithful k call)
    (part : Option Node) (h : isStatementIfAny part = true) :
    ∀ n, part = some n → w.Executes k call n := by
  cases part with
  | none => intro n hn; cases hn
  | some node =>
      intro n hn
      rw [← Option.some.inj hn]
      exact executes hcounts hcall node h

end

/-! ### Calls of functions -/

section

variable {constructed : Option Value} (hlow : w.height ≤ below.length)
include hlow

/-- The frame of a call hands on what its body has come to. -/
theorem running_follows (v : Value) :
    w.Follows k (fun completion => Pure.pure
        ⟨{ f with work := .running constructed, value := some (.value v) } :: below, completion⟩)
      (Pure.pure (outcome constructed v)) (w.landing below Action.deliverValue) := by
  have hdone : w.Follows k (w.carryOut below
      (({ f with work := .running constructed, value := some (.value v) } : Frame).resume
        (siteOf below).context))
      (Pure.pure (outcome constructed v)) (w.landing below Action.deliverValue) :=
    .done Action.deliverValue _
  exact (hdone.turn hlow).of_le (Nat.le_succ k)

/-- The body of a function runs on the frame of the call, and no jump leaves it. -/
theorem executeBody_follows {body : List Node} (h : ∀ n ∈ body, w.Executes k call n)
    (scope : ObjectId) (receiver : Value) :
    w.Follows (k + 1) (fun completion => push
        ⟨{ f with work := .running constructed } :: below, completion⟩
        (.opening (.block body) scope receiver))
      (executeBody call k ⟨scope, receiver⟩ below.length (.block body) >>= fun v =>
        Pure.pure (outcome constructed v))
      (w.landing below Action.deliverValue) := by
  let g : Frame := { f with work := .running constructed }
  let a : Frame := .opening (.block body) scope receiver
  simp only [executeBody, bind_assoc]
  have hg : w.height ≤ (g :: below).length := Nat.le_succ_of_le hlow
  refine Follows.enter (f := a) hg ?_
  refine nextStatement_follows (f := a) hg (fun ending => do
    Pure.pure (outcome constructed (← ending.pastCall)))
    (fun work value => rfl) (fun rest value ending hjump => ?_) ?_ body h _ none
  · cases ending with
    | normal handsDown => cases hjump
    | breakTo label =>
        refine Follows.of_eq (.throw (jumpFailure label "break")) fun completion => ?_
        cases label <;> rfl
    | continueAt label =>
        refine Follows.of_eq (.throw (jumpFailure label "continue")) fun completion => ?_
        cases label <;> rfl
    | returnWith v => exact (running_follows hlow v).of_eq fun completion => rfl
  · exact (running_follows hlow .undefined).of_eq fun completion => rfl

end

/-- **The machine follows all calls**, where the functions of the heap are well-formed.  The
induction is on the number of calls inside one another; the call takes the step that is
missing when that number does not suffice. -/
theorem callAny_faithful (hcounts : w.CountsTurns) (hgrammatical : ∀ s, w.Known s → s.Grammatical) :
    ∀ k, w.Faithful k (callAny w.run w.fuel k) := by
  intro k
  induction k with
  | zero =>
      intro below f called hlow
      exact .stuck fun completion s hs => hcounts _ s
  | succ k ih =>
      intro below f called hlow
      refine .acting_bind_of (keeps_edit (.query _))
        (fun s hs => (resolve_sound called w.fuel s (hgrammatical _ hs)).2) fun invocation hcode => ?_
      rcases invocation with ⟨code, closure, receiver, args⟩ | ⟨function, receiver, args⟩ | args
      · obtain ⟨body, hbody, hstatements⟩ := Code.exists_block (hcode code closure receiver args rfl)
        refine .acting_bind (keeps_edit (activate_moves closure args fun name inner hd => ?_))
          fun scope => ?_
        · refine declarationsOf_grammatical [code.body] ?_ _ hd
          simp only [areStatements, hbody, Node.isStatement, hstatements, Bool.and_self]
        · rw [hbody]
          exact executeBody_follows hlow (statements_execute hcounts ih body hstatements) scope receiver
      · exact .acting_bind (keeps_edit ((function.code.call_cutsLast receiver args).moves trivial)) fun result =>
          .pure (w.landing below Action.deliverValue) _
      · by_cases hconstructs : called.constructed.isSome = true
        · simp only [hconstructs, if_true]
          exact .throw (.wrongType "eval is not a constructor")
        · simp only [hconstructs, Bool.false_eq_true, if_false]
          exact .acting (w.landing below Action.deliverValue) (w.evaluate_known _ _ args)

end Setting

end Machine

end Stepwise
