/-
The machine follows an evaluation.

An action of the machine follows an evaluation if it leads to where the evaluation ends:
to the same failure, or to what is said to be done with the value, with the same store and
the same value of the last expression statement.  What is said of the run where the
evaluation comes to nothing is left open: that it goes on for a number of steps at least,
or that it gets to a call of some kind.

The rules below are those by which evaluations are put together.  A node that is reached
gets room and has its turn; from there on, what the frame does to the heap is what the
evaluation does, and a child that it waits for hands its result to the frame just where
the evaluation goes on with it.
-/
import Stepwise.Proofs.Evaluation
import Stepwise.Proofs.Grammar
import Stepwise.Proofs.Runs

namespace Stepwise

/-! ### One evaluation after another -/

namespace Eval

variable {α β : Type} {ev : Eval α} {next : α → Eval β} {here there : Moment}

theorem bind_of_none (h : ev here = none) : (ev >>= next) here = none := by
  show (ev here).bind _ = none
  rw [h]
  rfl

theorem bind_of_error {e : Failure} (h : ev here = some (.error e, there)) :
    (ev >>= next) here = some (.error e, there) := by
  show (ev here).bind _ = _
  rw [h]
  rfl

theorem bind_of_ok {x : α} (h : ev here = some (.ok x, there)) :
    (ev >>= next) here = next x there := by
  show (ev here).bind _ = _
  rw [h]
  rfl

end Eval

theorem Run.liftM_bind {α β : Type} (act : Edit α) (next : α → Edit β) :
    (liftM (act >>= next) : Run β) = liftM act >>= fun x => liftM (next x) := by
  funext s
  rcases hact : act s.toHeap with ⟨e | x, heap⟩
  · rw [Stepwise.bind_of_error (Run.liftM_eq hact)]
    exact Run.liftM_eq (Stepwise.bind_of_error hact)
  · rw [Stepwise.bind_of_ok (Run.liftM_eq hact)]
    have hnext : (act >>= next) s.toHeap = next x heap := Stepwise.bind_of_ok hact
    rw [Run.liftM_eq (s := s) hnext]
    have hthen : next x ({ s with toHeap := heap } : Store).toHeap =
        ((next x heap).1, (next x heap).2) := rfl
    exact (Run.liftM_eq hthen).symm

section

variable (work : Work) (c : Completion) (scope : Option ObjectId) (receiver : Option Value)
  (labels : List String)

/-- What is read from the slot of a frame is what the child has come to. -/
@[simp] theorem Frame.result_some :
    (Frame.mk work (some c) scope receiver labels).result = c.result := by
  cases c <;> rfl

@[simp] theorem Frame.target_some :
    (Frame.mk work (some c) scope receiver labels).target = c.target := by
  cases c <;> rfl

end

namespace Machine

/-- Where a node above these frames is evaluated. -/
def siteOf (below : List Frame) : Site := ⟨context ⟨below, .undefined⟩, below.length⟩

/-- A frame that opens no scope and binds no receiver. -/
structure IsBare (f : Frame) : Prop where
  scope : f.scope = none
  receiver : f.receiver = none

theorem IsBare.after {f : Frame} (h : IsBare f) (work : Work) (value : Option Completion) :
    IsBare { f with work, value } := ⟨h.scope, h.receiver⟩

theorem IsBare.taken {f : Frame} (h : IsBare f) : IsBare f.taken := ⟨h.scope, h.receiver⟩

theorem siteOf_cons {f : Frame} (h : IsBare f) (below : List Frame) :
    siteOf (f :: below) = (siteOf below).inner := by
  simp only [siteOf, Site.inner, context, scope, scope?, receiver, List.findSome?_cons, h.scope,
    h.receiver, List.length_cons]

/-- What is known of the heaps of a run, next to how the run is watched. -/
structure Setting extends Watch where
  Known : Heap → Prop
  edit_known : ∀ {α : Type} {act : Edit α}, Edit.Moves (.of Grammatical) act →
    ∀ s, Known s → Known (act s).2
  evaluate_known : ∀ (caller : Context) (depth : Nat) (args : List Value) (s : Store),
    Known s.toHeap → Known (evaluate run caller depth args s).2.toHeap
  /-- What is said of a run where the evaluation comes to nothing; turns may be counted. -/
  Open : Nat → Run Machine → Store → Prop
  open_of_le : ∀ {k j : Nat} {act : Run Machine} {s : Store}, Open k act s → j ≤ k → Open j act s
  open_of_leads : ∀ {k : Nat} {act act' : Run Machine} {s s' : Store},
    toWatch.Leads act s act' s' → Open k act' s' → Open k act s
  open_of_turn : ∀ {k : Nat} {f : Frame} {below : List Frame} {s : Store} (completion : Value),
    height ≤ below.length → Open k (turn run fuel ⟨below, completion⟩ f) s →
      Open (k + 1) (pure ⟨f :: below, completion⟩) s

namespace Setting

variable (w : Setting)

/-- The action keeps what is known. -/
def Keeps {α : Type} (action : Run α) : Prop :=
  ∀ s : Store, w.Known s.toHeap → w.Known (action s).2.toHeap

/-- The action leads to where an evaluation has ended, if it has not come to nothing. -/
def Meets {α : Type} (k : Nat) (act : Run Machine) (s : Store) (land : α → Value → Run Machine) :
    Option (Except Failure α × Moment) → Prop
  | none => w.Open k act s
  | some (.error e, there) =>
    w.Known there.store.toHeap ∧ w.Leads act s (throw e) there.store
  | some (.ok x, there) =>
    w.Known there.store.toHeap ∧ w.Leads act s (land x there.completion) there.store

/-- The same for every store, and for any value of the last expression statement. -/
def Follows {α : Type} (k : Nat) (act : Value → Run Machine) (ev : Eval α)
    (land : α → Value → Run Machine) : Prop :=
  ∀ (completion : Value) (s : Store), w.Known s.toHeap →
    w.Meets k (act completion) s land (ev ⟨s, completion⟩)

variable {w} {α β : Type} {k : Nat} {act : Value → Run Machine} {ev : Eval α}
  {land : α → Value → Run Machine}

theorem keeps_edit {action : Edit α} (h : Edit.Moves (.of Grammatical) action) :
    w.Keeps (liftM action : Run α) := fun s hs => w.edit_known h s.toHeap hs

theorem keeps_query (f : Store → Except Failure α) : w.Keeps (Run.query f) := fun _ hs => hs

/-- Turns are counted only where an evaluation comes to nothing. -/
theorem Meets.of_some {j : Nat} {act : Run Machine} {s : Store}
    {o : Except Failure α × Moment} (h : w.Meets k act s land (some o)) :
    w.Meets j act s land (some o) := by
  rcases o with ⟨e | x, there⟩
  · exact h
  · exact h

/-- What is met from where an action leads to is met from the action. -/
theorem Meets.of_leads {act act' : Run Machine} {s s' : Store} {land : α → Value → Run Machine}
    {o : Option (Except Failure α × Moment)} (h : w.Meets k act' s' land o)
    (hleads : w.Leads act s act' s') : w.Meets k act s land o := by
  rcases o with - | ⟨e | x, there⟩
  · exact w.open_of_leads hleads h
  · exact ⟨h.1, hleads.trans h.2⟩
  · exact ⟨h.1, hleads.trans h.2⟩

namespace Follows

theorem of_le {j : Nat} (h : w.Follows k act ev land) (hle : j ≤ k) : w.Follows j act ev land := by
  intro completion s hs
  have hmeets := h completion s hs
  rcases hev : ev ⟨s, completion⟩ with - | o
  · rw [hev] at hmeets
    exact w.open_of_le hmeets hle
  · rw [hev] at hmeets
    exact hmeets.of_some

theorem pure (land : α → Value → Run Machine) (x : α) : w.Follows k (land x) (Pure.pure x) land :=
  fun _ s hs => ⟨hs, .refl _ s⟩

theorem throw (e : Failure) : w.Follows k (fun _ => MonadExcept.throw e) (MonadExcept.throw e) land :=
  fun _ s hs => ⟨hs, .refl _ s⟩

theorem stuck (h : ∀ completion s, w.Known s.toHeap → w.Open k (act completion) s) :
    w.Follows k act (Eval.stuck : Eval α) land := fun completion s hs => h completion s hs

/-- An action that does the same on the store may take the place of another. -/
theorem of_eq {act' : Value → Run Machine} (h : w.Follows k act' ev land)
    (heq : ∀ completion, act completion = act' completion) : w.Follows k act ev land := by
  rw [show act = act' from funext heq]
  exact h

theorem bind {mid : α → Value → Run Machine} {next : α → Eval β} {land : β → Value → Run Machine}
    (hact : w.Follows k act ev mid) (hnext : ∀ x, w.Follows k (mid x) (next x) land) :
    w.Follows k act (ev >>= next) land := by
  intro completion s hs
  have hfirst := hact completion s hs
  rcases hev : ev ⟨s, completion⟩ with - | ⟨e | x, there⟩
  · rw [hev] at hfirst
    rw [Eval.bind_of_none hev]
    exact hfirst
  · rw [hev] at hfirst
    rw [Eval.bind_of_error hev]
    exact hfirst
  · rw [hev] at hfirst
    rw [Eval.bind_of_ok hev]
    obtain ⟨hknown, hleads⟩ := hfirst
    have hthen := hnext x there.completion there.store hknown
    exact hthen.of_leads hleads

theorem map (land : β → Value → Run Machine) {f : α → β}
    (h : w.Follows k act ev fun x => land (f x)) :
    w.Follows k act (ev >>= fun x => Pure.pure (f x)) land := h.bind fun x => pure land (f x)

/-- The same is done on both sides. -/
theorem acting (land : α → Value → Run Machine) {action : Run α} (h : w.Keeps action) :
    w.Follows k (fun completion => action >>= fun x => land x completion) (Eval.act action) land := by
  intro completion s hs
  have hkept := h s hs
  rcases haction : action s with ⟨e | x, s'⟩
  · rw [haction] at hkept
    simp only [Eval.act, haction]
    exact ⟨hkept, .of_eq (Stepwise.bind_of_error haction)⟩
  · rw [haction] at hkept
    simp only [Eval.act, haction]
    exact ⟨hkept, .of_eq (Stepwise.bind_of_ok haction)⟩

/-- The same is done on both sides, and then one goes on from what that has come to. -/
theorem acting_bind_at {action : Run α} {next : α → Eval β} {mid : α → Value → Run Machine}
    {land : β → Value → Run Machine} (h : w.Keeps action)
    (hnext : ∀ (s : Store) (x : α) (s' : Store), w.Known s.toHeap → w.Known s'.toHeap →
      action s = (.ok x, s') → ∀ completion,
        w.Meets k (mid x completion) s' land (next x ⟨s', completion⟩)) :
    w.Follows k (fun completion => action >>= fun x => mid x completion)
      (Eval.act action >>= next) land := by
  intro completion s hs
  have hkept := h s hs
  have hacting := acting (k := k) mid h completion s hs
  rcases haction : action s with ⟨e | x, s'⟩
  · have hev : Eval.act action ⟨s, completion⟩ = some (.error e, ⟨s', completion⟩) := by
      simp only [Eval.act, haction]
    rw [hev] at hacting
    rw [Eval.bind_of_error hev]
    exact hacting
  · have hev : Eval.act action ⟨s, completion⟩ = some (.ok x, ⟨s', completion⟩) := by
      simp only [Eval.act, haction]
    rw [haction] at hkept
    rw [Eval.bind_of_ok hev]
    exact (hnext s x s' hs hkept haction completion).of_leads (.of_eq (Stepwise.bind_of_ok haction))

theorem acting_bind_of {P : α → Prop} {action : Run α} {next : α → Eval β}
    {mid : α → Value → Run Machine} {land : β → Value → Run Machine} (h : w.Keeps action)
    (hP : ∀ s : Store, w.Known s.toHeap → ∀ x, (action s).1 = .ok x → P x)
    (hnext : ∀ x, P x → w.Follows k (mid x) (next x) land) :
    w.Follows k (fun completion => action >>= fun x => mid x completion)
      (Eval.act action >>= next) land :=
  acting_bind_at h fun s x s' hs hs' haction completion =>
    hnext x (hP s hs x (congrArg Prod.fst haction)) completion s' hs'

theorem acting_bind {action : Run α} {next : α → Eval β} {mid : α → Value → Run Machine}
    {land : β → Value → Run Machine} (h : w.Keeps action)
    (hnext : ∀ x, w.Follows k (mid x) (next x) land) :
    w.Follows k (fun completion => action >>= fun x => mid x completion)
      (Eval.act action >>= next) land :=
  acting_bind_at h fun _ x s' _ hs' _ completion => hnext x completion s' hs'

/-- The value of an expression statement is kept on both sides. -/
theorem complete {v : Value} (h : w.Follows k act ev land) :
    w.Follows k (fun _ => act v) (Eval.complete v >>= fun _ => ev) land := fun _ s hs => h v s hs

end Follows

/-! ### Frames -/

/-- What is done with the end of an evaluation above these frames. -/
def landing (w : Setting) (below : List Frame) (action : α → Action) (x : α) (completion : Value) :
    Run Machine := obey w.run w.fuel ⟨below, completion⟩ (action x)

/-- Carry out what a frame above these comes to want. -/
def carryOut (w : Setting) (below : List Frame) (choice : Edit Action) (completion : Value) :
    Run Machine := do
  let a ← choice
  obey w.run w.fuel ⟨below, completion⟩ a

variable {below : List Frame} {f : Frame} {action : α → Action}

/-- A frame has its turn. -/
theorem Follows.turn (hlow : w.height ≤ below.length)
    (h : w.Follows k (w.carryOut below (f.resume (siteOf below).context)) ev land) :
    w.Follows (k + 1) (fun completion => Pure.pure ⟨f :: below, completion⟩) ev land := by
  intro completion s hs
  have hturn := h completion s hs
  have hleads : w.Leads (Pure.pure ⟨f :: below, completion⟩) s
      (w.carryOut below (f.resume (siteOf below).context) completion) s :=
    Watch.leads_turn completion hlow
  rcases hev : ev ⟨s, completion⟩ with - | o
  · rw [hev] at hturn
    exact w.open_of_turn completion hlow hturn
  · rw [hev] at hturn
    exact hturn.of_some.of_leads hleads

/-- A frame is put on, if there is room for it. -/
theorem Follows.push
    (h : w.Follows k (fun completion => Pure.pure ⟨f :: below, completion⟩) ev land) :
    w.Follows k (fun completion => Machine.push ⟨below, completion⟩ f)
      (requireRoom (siteOf below) >>= fun _ => ev) land := by
  refine Follows.of_eq (Follows.acting_bind (keeps_query _) fun _ => h) fun completion => ?_
  funext s
  have hadmit : Run.query (fun s => if admitsFrame s (siteOf below).depth then return ()
      else MonadExcept.throw .stackExhausted) s =
        (if admitsFrame s below.length then .ok () else .error .stackExhausted, s) := rfl
  have hpush : Machine.push ⟨below, completion⟩ f s =
      (if admitsFrame s below.length then .ok ⟨f :: below, completion⟩
        else .error .stackExhausted, s) := rfl
  rw [hpush]
  by_cases hroom : admitsFrame s below.length = true
  · rw [if_pos hroom] at hadmit ⊢
    rw [Stepwise.bind_of_ok hadmit]
    rfl
  · rw [if_neg hroom] at hadmit ⊢
    rw [Stepwise.bind_of_error hadmit]

/-- A node is reached: there is room for it, and its frame has its turn. -/
theorem Follows.enter (hlow : w.height ≤ below.length)
    (h : w.Follows k (w.carryOut below (f.resume (siteOf below).context)) ev land) :
    w.Follows (k + 1) (fun completion => Machine.push ⟨below, completion⟩ f)
      (requireRoom (siteOf below) >>= fun _ => ev) land := (h.turn hlow).push

section

variable {next : α → Eval β} {action : β → Action}

/-- The frame is done with a value. -/
theorem Follows.done (action : β → Action) (y : β) :
    w.Follows k (w.carryOut below (Pure.pure (action y))) (Pure.pure y) (w.landing below action) :=
  .pure (w.landing below action) y

theorem Follows.fails (e : Failure) :
    w.Follows k (w.carryOut below (MonadExcept.throw e)) (MonadExcept.throw e : Eval α) land := .throw e

/-- The frame fails with what it finds in the heap. -/
theorem Follows.refuses (e : Heap → Failure) {land : β → Value → Run Machine} :
    w.Follows k (w.carryOut below (Edit.query fun s => MonadExcept.throw (e s)))
      (liftM (Edit.query fun s => MonadExcept.throw (e s)) : Eval β) land :=
  fun _ _ hs => ⟨hs, .of_eq rfl⟩

/-- The frame edits the heap, as the evaluation does. -/
theorem Follows.edit {choice : Edit α} {rest : α → Edit Action} {land : β → Value → Run Machine}
    (hmoves : Edit.Moves (.of Grammatical) choice)
    (hnext : ∀ x, w.Follows k (w.carryOut below (rest x)) (next x) land) :
    w.Follows k (w.carryOut below (choice >>= rest)) (liftM choice >>= next) land := by
  refine Follows.of_eq (Follows.acting_bind (keeps_edit hmoves) hnext) fun completion => ?_
  show (liftM (choice >>= rest) : Run Action) >>= _ = _
  rw [Run.liftM_bind, bind_assoc]
  rfl

theorem Follows.query {g : Heap → Except Failure α} {rest : α → Edit Action}
    {land : β → Value → Run Machine}
    (hnext : ∀ x, w.Follows k (w.carryOut below (rest x)) (next x) land) :
    w.Follows k (w.carryOut below (Edit.query g >>= rest)) (liftM (Edit.query g) >>= next) land :=
  .edit (.query g) hnext

end

end Setting

end Machine

end Stepwise
