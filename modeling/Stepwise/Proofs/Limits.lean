/-
What a limit of frames does.

How many frames may stand is looked at in one place, where a frame is put on, and the frames
of the machines that wait are known there from a counter only.  Here a run under a limit is
compared with the run that has none.  What there is to see of the first is what there is to
see of the second, up to the first instant with too many frames; if there is such an
instant the run fails, and if there is none it comes to the same.

`CutBy` says so of an action and of what is to see of it.  It is closed under one action
after another, and holds of the runs of nested machines by induction on the fuel.  Frames
are also put back without a look at the limit, but only where as many stood before.
-/
import Stepwise.Proofs.Counts
import Stepwise.Proofs.Lexical

namespace Stepwise

/-! ### Other limits -/

/-- A store under another limit of frames; zero is none. -/
def Store.limited (limit : Nat) (s : Store) : Store :=
  { s with config := s.config.withMaxStackDepth limit }

/-- An instant under another limit of frames. -/
def Instant.limited (limit : Nat) (p : Instant) : Instant := { p with store := p.store.limited limit }

/-- An action that comes to the same under any limit of frames. -/
def Run.IgnoresLimit {α : Type} (act : Run α) : Prop :=
  ∀ limit (s : Store), act (s.limited limit) = ((act s).1, (act s).2.limited limit)

namespace Run.IgnoresLimit

variable {α β : Type}

theorem pure (x : α) : Run.IgnoresLimit (Pure.pure x : Run α) := fun _ _ => rfl

theorem edit (act : Edit α) : Run.IgnoresLimit (liftM act : Run α) := fun _ _ => rfl

theorem ask {f : Store → α} (h : ∀ limit s, f (s.limited limit) = f s) :
    Run.IgnoresLimit (Run.ask f) := by
  intro limit s
  show (Except.ok (f (s.limited limit)), s.limited limit) = _
  rw [h]
  rfl

theorem query {f : Store → Except Failure α} (h : ∀ limit s, f (s.limited limit) = f s) :
    Run.IgnoresLimit (Run.query f) := by
  intro limit s
  show (f (s.limited limit), s.limited limit) = _
  rw [h]
  rfl

theorem bind {act : Run α} {next : α → Run β} (hact : act.IgnoresLimit)
    (hnext : ∀ x, (next x).IgnoresLimit) : (act >>= next).IgnoresLimit := by
  intro limit s
  have hfirst := hact limit s
  rcases hr : act s with ⟨e | x, s'⟩
  · rw [hr] at hfirst
    rw [bind_of_error hr, bind_of_error hfirst]
  · rw [hr] at hfirst
    rw [bind_of_ok hr, bind_of_ok hfirst]
    exact hnext x limit s'

theorem map {act : Run α} (f : α → β) (hact : act.IgnoresLimit) : (f <$> act).IgnoresLimit := by
  rw [map_eq_pure_bind]
  exact hact.bind fun x => pure (f x)

theorem suspended {act : Run α} (hact : act.IgnoresLimit) (frames : Nat) :
    (Machine.suspended frames act).IgnoresLimit := by
  intro limit s
  have hwithin := hact limit (s.nesting frames)
  exact Machine.suspended_eq (s := s.limited limit) hwithin

end Run.IgnoresLimit

namespace Machine

end Machine

/-! ### Cutting -/

/-- Nowhere are there more frames than a limit. -/
def Within (limit : Nat) (seen : List Instant) : Prop := ∀ p ∈ seen, p.frames ≤ limit

/-- What is to see before there are more frames than a limit, under this limit. -/
def cutAt (limit : Nat) (seen : List Instant) : List Instant :=
  (seen.takeWhile fun p => p.frames ≤ limit).map (Instant.limited limit)

section

variable {limit : Nat} {p : Instant} {seen more : List Instant}

theorem within_nil (limit : Nat) : Within limit [] := fun _ h => by cases h

theorem within_cons : Within limit (p :: seen) ↔ p.frames ≤ limit ∧ Within limit seen :=
  List.forall_mem_cons

theorem within_append : Within limit (seen ++ more) ↔ Within limit seen ∧ Within limit more :=
  List.forall_mem_append

theorem cutAt_cons (h : p.frames ≤ limit) :
    cutAt limit (p :: seen) = p.limited limit :: cutAt limit seen := by
  simp [cutAt, h]

theorem cutAt_of_many (h : ¬ p.frames ≤ limit) : cutAt limit (p :: seen) = [] := by
  simp [cutAt, h]

theorem cutAt_append_of_within (h : Within limit seen) :
    cutAt limit (seen ++ more) = cutAt limit seen ++ cutAt limit more := by
  induction seen with
  | nil => rfl
  | cons p rest ih =>
      obtain ⟨hp, hrest⟩ := within_cons.mp h
      rw [List.cons_append, cutAt_cons hp, cutAt_cons hp, ih hrest, List.cons_append]

theorem cutAt_append_of_not_within (h : ¬ Within limit seen) :
    cutAt limit (seen ++ more) = cutAt limit seen := by
  induction seen with
  | nil => exact absurd (within_nil limit) h
  | cons p rest ih =>
      by_cases hp : p.frames ≤ limit
      · have hrest : ¬ Within limit rest := fun hrest => h (within_cons.mpr ⟨hp, hrest⟩)
        rw [List.cons_append, cutAt_cons hp, cutAt_cons hp, ih hrest]
      · rw [List.cons_append, cutAt_of_many hp, cutAt_of_many hp]

end

/-- Under a limit, an action is cut short when there are too many frames: it fails then, and else
comes to the same.  The lists tell what is to see without the limit and with it. -/
structure Run.CutBy {α : Type} (limit : Nat) (act : Run α) (seen seen' : List Instant) (s : Store) :
    Prop where
  cut : seen' = cutAt limit seen
  same : Within limit seen → act (s.limited limit) = ((act s).1, (act s).2.limited limit)
  fails : ¬ Within limit seen → (act (s.limited limit)).1 = .error .stackExhausted

namespace Run.CutBy

variable {α β : Type} {limit : Nat} {act : Run α} {s : Store}

theorem of_ignoresLimit (h : act.IgnoresLimit) : act.CutBy limit [] [] s where
  cut := rfl
  same := fun _ => h limit s
  fails := fun hmany => absurd (within_nil limit) hmany

/-- One action after another, where more is to see after the first. -/
theorem bind {next : α → Run β} {seen seen' : List Instant} {rest : α → Store → List Instant}
    (hact : act.CutBy limit seen seen' s)
    (hnext : ∀ x t, act s = (.ok x, t) → Within limit seen →
      (next x).CutBy limit (rest x t) (rest x (t.limited limit)) t) :
    (act >>= next).CutBy limit (seen ++ act.thereafter rest s)
      (seen' ++ act.thereafter rest (s.limited limit)) s := by
  by_cases hwithin : Within limit seen
  · have hsame := hact.same hwithin
    rcases hr : act s with ⟨e | x, t⟩
    · rw [hr] at hsame
      rw [thereafter_of_error hr, thereafter_of_error hsame, List.append_nil, List.append_nil]
      refine ⟨hact.cut, fun _ => ?_, fun hmany => absurd hwithin hmany⟩
      rw [bind_of_error hr, bind_of_error hsame]
    · rw [hr] at hsame
      have hthen := hnext x t hr hwithin
      rw [thereafter_of_ok hr, thereafter_of_ok hsame]
      refine ⟨?_, fun h => ?_, fun h => ?_⟩
      · rw [cutAt_append_of_within hwithin, hact.cut, hthen.cut]
      · rw [bind_of_ok hr, bind_of_ok hsame]
        exact hthen.same (within_append.mp h).2
      · rw [bind_of_ok hsame]
        exact hthen.fails fun hrest => h (within_append.mpr ⟨hwithin, hrest⟩)
  · -- the first action fails, and then nothing more is to see
    have hfails := hact.fails hwithin
    rcases hr : act (s.limited limit) with ⟨e | x, t⟩
    · rw [hr] at hfails
      rw [thereafter_of_error hr, List.append_nil]
      refine ⟨?_, fun h => absurd (within_append.mp h).1 hwithin, fun _ => ?_⟩
      · rw [cutAt_append_of_not_within hwithin, hact.cut]
      · rw [bind_of_error hr]
        cases hfails
        rfl
    · rw [hr] at hfails
      cases hfails

/-- Only what an action does on the store counts. -/
theorem of_eq {act' : Run α} {seen seen' : List Instant} {t : Store} (h : act s = act' t)
    (h' : act (s.limited limit) = act' (t.limited limit)) (hact : act'.CutBy limit seen seen' t) :
    act.CutBy limit seen seen' s where
  cut := hact.cut
  same := fun hwithin => by rw [h, h', hact.same hwithin]
  fails := fun hmany => by rw [h', hact.fails hmany]

/-- An instant more to see before, which is within the limit. -/
theorem cons {p : Instant} {seen seen' : List Instant} (hp : p.frames ≤ limit)
    (hact : act.CutBy limit seen seen' s) :
    act.CutBy limit (p :: seen) (p.limited limit :: seen') s where
  cut := by rw [cutAt_cons hp, hact.cut]
  same := fun hwithin => hact.same (within_cons.mp hwithin).2
  fails := fun hmany => hact.fails fun hwithin => hmany (within_cons.mpr ⟨hp, hwithin⟩)

theorem suspended {seen seen' : List Instant} {frames : Nat}
    (hact : act.CutBy limit seen seen' (s.nesting frames)) :
    (Machine.suspended frames act).CutBy limit seen seen' s := by
  refine ⟨hact.cut, fun hwithin => ?_, fun hmany => ?_⟩
  · exact Machine.suspended_eq (s := s.limited limit) (hact.same hwithin)
  · have hfails := hact.fails hmany
    exact hfails

theorem map {seen seen' : List Instant} (f : α → β) (hact : act.CutBy limit seen seen' s) :
    (act >>= fun x => Pure.pure (f x)).CutBy limit seen seen' s := by
  have hnone : ∀ t, act.thereafter (fun _ _ => []) t = [] := by
    intro t
    unfold thereafter
    split <;> rfl
  have hthen : (act >>= fun x => Pure.pure (f x)).CutBy limit
      (seen ++ act.thereafter (fun _ _ => []) s)
      (seen' ++ act.thereafter (fun _ _ => []) (s.limited limit)) s :=
    .bind hact fun x t _ _ => .of_ignoresLimit (.pure (f x))
  rw [hnone, hnone, List.append_nil, List.append_nil] at hthen
  exact hthen

end Run.CutBy

/-! ### How an action ends -/

/-- A store without a limit, that counts the frames of the machines that wait. -/
structure Store.IsFree (waiting : List Machine) (s : Store) : Prop where
  unlimited : s.config.maxStackDepth = 0
  outerFrames : s.outerFrames = (waiting.map Machine.depth).sum

theorem Store.Balances.isFree {waiting : List Machine} {s t : Store} (h : s.Balances t)
    (hs : s.IsFree waiting) : t.IsFree waiting where
  unlimited := by rw [h.config, hs.unlimited]
  outerFrames := by rw [h.outerFrames, hs.outerFrames]

/-- The machine that an action comes to, as what is to see of it. -/
def Machine.ending (waiting : List Machine) (m : Machine) (s : Store) : List Instant :=
  [⟨m, waiting, s⟩]

/-- An action is cut short when it ends with too many frames. -/
def Run.EndsCut (limit : Nat) (waiting : List Machine) (act : Run Machine) (s : Store) : Prop :=
  act.CutBy limit (act.thereafter (Machine.ending waiting) s)
    (act.thereafter (Machine.ending waiting) (s.limited limit)) s

namespace Run.EndsCut

variable {α : Type} {limit : Nat} {waiting : List Machine} {s : Store}

theorem bind {act : Run α} {next : α → Run Machine} (hact : act.IgnoresLimit)
    (hnext : ∀ x t, act s = (.ok x, t) → (next x).EndsCut limit waiting t) :
    (act >>= next).EndsCut limit waiting s := by
  unfold EndsCut
  rw [thereafter_bind, thereafter_bind]
  exact CutBy.bind (.of_ignoresLimit hact) fun x t hx _ => hnext x t hx

end Run.EndsCut

namespace Machine

variable {limit : Nat} {waiting : List Machine} {s : Store}

theorem FallsTo.depth {m m' : Machine} (h : m.FallsTo m') : m'.depth ≤ m.depth := h.frames.length_le

section

variable {fuel : Nat} {m : Machine} {f : Frame}

end

end Machine

/-! ### Whole runs -/

namespace Evaluator

/-- An evaluator over the store under another limit of frames. -/
def limited (limit : Nat) (e : Evaluator) : Evaluator := ⟨e.store.limited limit, e.machine⟩

/-- An evaluator after a number of steps. -/
def after (fuel : Nat) (e : Evaluator) : (steps : Nat) → Evaluator
  | 0 => e
  | steps + 1 => ((after fuel e steps).step fuel).2

/-- An evaluator of which no limit that is compared has cut anything yet. -/
structure IsFree (limit : Nat) (e : Evaluator) : Prop where
  store : e.store.IsFree []
  within : e.depth ≤ limit

section

variable {limit fuel : Nat} {e : Evaluator}

/-- A step within the limit leads to where none has cut anything yet. -/
theorem IsFree.step (he : e.IsFree limit) (hwithin : Within limit (e.instants fuel)) :
    (e.step fuel).2.IsFree limit := by
  refine ⟨(step_balances e fuel).isFree he.store, ?_⟩
  rcases e with ⟨s, m⟩
  unfold Evaluator.step
  dsimp only
  split
  · rename_i next t hstep
    have hmem : (⟨next, [], t⟩ : Instant) ∈ instants fuel ⟨s, m⟩ := by
      refine List.mem_append_right _ ?_
      rw [Run.thereafter_of_ok hstep]
      exact List.mem_singleton_self _
    exact hwithin _ hmem
  · exact he.within
  · exact Nat.zero_le _

end

end Evaluator

end Stepwise
