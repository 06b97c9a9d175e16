/-
Runs above a height.

To say what becomes of a node, a run is watched for as long as more than a certain number
of frames stand: when no more than these are left, whatever was begun above them is over.
A run that is over stays as it is, so there is one end to it at most.

Two runs are compared by how they end, and by how long they last at least.  One action
leads to another if a run after the first comes to where a run after the second starts
from; everything that is said of an evaluation and its frames is of this form.
-/
import Stepwise.Machine.Step
import Stepwise.Proofs.Moves

namespace Stepwise

namespace Machine

/-- Run for a number of steps at most, for as long as there are more frames than `height`. -/
def runAbove (run : NestedRun) (fuel height : Nat) : (steps : Nat) → Machine → Run Machine
  | 0, m => return m
  | steps + 1, m =>
    if m.depth ≤ height then return m
    else do
      match ← step run fuel m with
      | some m => runAbove run fuel height steps m
      | none => return m

/-- A run is over when it has failed, or when no more than `height` frames are left. -/
def IsOver (height : Nat) (o : Except Failure Machine × Store) : Prop :=
  ∀ m, o.1 = .ok m → m.depth ≤ height

section

variable {run : NestedRun} {fuel height : Nat}

theorem runAbove_of_low {m : Machine} (h : m.depth ≤ height) (steps : Nat) :
    runAbove run fuel height steps m = pure m := by
  cases steps with
  | zero => rfl
  | succ steps => exact if_pos h

/-- The first step of a run that is not over. -/
theorem runAbove_cons {f : Frame} {below : List Frame} (completion : Value)
    (h : height ≤ below.length) (steps : Nat) :
    runAbove run fuel height (steps + 1) ⟨f :: below, completion⟩ =
      turn run fuel ⟨below, completion⟩ f >>= runAbove run fuel height steps := by
  have hdeep : ¬ depth ⟨f :: below, completion⟩ ≤ height := by
    simp only [depth, List.length_cons]
    omega
  show (if _ then _ else _) = _
  rw [if_neg hdeep]
  simp only [step, bind_assoc, pure_bind]

/-- A run that is over stays as it is. -/
theorem runAbove_of_over : ∀ {steps : Nat} {m : Machine} {s : Store},
    IsOver height (runAbove run fuel height steps m s) → ∀ more,
      runAbove run fuel height (steps + more) m s = runAbove run fuel height steps m s := by
  intro steps
  induction steps with
  | zero =>
      intro m s h more
      rw [runAbove_of_low (h m rfl) (0 + more)]
      rfl
  | succ steps ih =>
      intro m s h more
      rw [Nat.succ_add]
      by_cases hlow : m.depth ≤ height
      · rw [runAbove_of_low hlow, runAbove_of_low hlow]
      · simp only [runAbove, if_neg hlow] at h ⊢
        rcases hstep : step run fuel m s with ⟨e | next, s'⟩
        · rw [bind_of_error hstep, bind_of_error hstep]
        · rw [bind_of_ok hstep] at h
          rw [bind_of_ok hstep, bind_of_ok hstep]
          cases next with
          | none => rfl
          | some m' => exact ih h more

end

/-- How a run is watched: how nested machines are run, the fuel of a step, and the height above
which the frames are looked at. -/
structure Watch where
  run : NestedRun
  fuel : Nat
  height : Nat

namespace Watch

variable (w : Watch)

/-- Act, and then run for a number of steps. -/
def after (act : Run Machine) (steps : Nat) : Run Machine :=
  act >>= runAbove w.run w.fuel w.height steps

/-- A run that begins with the action ends so. -/
def Ends (act : Run Machine) (s : Store) (o : Except Failure Machine × Store) : Prop :=
  ∃ steps, w.after act steps s = o ∧ IsOver w.height o

/-- A run that begins with the action is not over before a number of steps. -/
def Lasts (k : Nat) (act : Run Machine) (s : Store) : Prop :=
  ∀ steps < k, ¬ IsOver w.height (w.after act steps s)

/-- A run after the one action comes to where a run after the other starts from. -/
def Leads (act : Run Machine) (s : Store) (act' : Run Machine) (s' : Store) : Prop :=
  ∃ steps, ∀ more, w.after act (steps + more) s = w.after act' more s'

variable {w}

theorem Lasts.of_le {k j : Nat} {act : Run Machine} {s : Store} (h : w.Lasts k act s) (hle : j ≤ k) :
    w.Lasts j act s := fun steps hsteps => h steps (Nat.lt_of_lt_of_le hsteps hle)

theorem after_zero (act : Run Machine) : w.after act 0 = act := bind_pure act

theorem after_of_over {act : Run Machine} {s : Store} {steps : Nat}
    (h : IsOver w.height (w.after act steps s)) (more : Nat) :
    w.after act (steps + more) s = w.after act steps s := by
  unfold after at h ⊢
  rcases hact : act s with ⟨e | m, s'⟩
  · rw [bind_of_error hact, bind_of_error hact]
  · rw [bind_of_ok hact] at h
    rw [bind_of_ok hact, bind_of_ok hact]
    exact runAbove_of_over h more

/-- A run has one end at most. -/
theorem Ends.unique {act : Run Machine} {s : Store} {o o' : Except Failure Machine × Store}
    (h : w.Ends act s o) (h' : w.Ends act s o') : o = o' := by
  obtain ⟨n, rfl, hover⟩ := h
  obtain ⟨n', rfl, hover'⟩ := h'
  rcases Nat.le_total n n' with hle | hle
  · obtain ⟨more, rfl⟩ := Nat.exists_eq_add_of_le hle
    exact (after_of_over hover more).symm
  · obtain ⟨more, rfl⟩ := Nat.exists_eq_add_of_le hle
    exact after_of_over hover' more

/-- A run that ends does not last forever. -/
theorem Ends.exists_not_lasts {act : Run Machine} {s : Store} {o : Except Failure Machine × Store}
    (h : w.Ends act s o) : ∃ k, ¬ w.Lasts k act s := by
  obtain ⟨n, hn, hover⟩ := h
  refine ⟨n + 1, fun hlasts => hlasts n (Nat.lt_succ_self n) ?_⟩
  rw [hn]
  exact hover

/-! ### Where an action leads -/

variable {act act' act'' : Run Machine} {s s' s'' : Store}

theorem Leads.refl (act : Run Machine) (s : Store) : w.Leads act s act s :=
  ⟨0, fun more => by rw [Nat.zero_add]⟩

theorem Leads.trans (h : w.Leads act s act' s') (h' : w.Leads act' s' act'' s'') :
    w.Leads act s act'' s'' := by
  obtain ⟨n, hn⟩ := h
  obtain ⟨n', hn'⟩ := h'
  refine ⟨n + n', fun more => ?_⟩
  rw [Nat.add_assoc, hn, hn']

/-- Only what an action does on the store counts. -/
theorem Leads.of_eq (h : act s = act' s') : w.Leads act s act' s' := by
  refine ⟨0, fun more => ?_⟩
  rw [Nat.zero_add]
  unfold after
  rcases hact : act s with ⟨e | m, t⟩
  · rw [bind_of_error hact, bind_of_error (h.symm.trans hact)]
  · rw [bind_of_ok hact, bind_of_ok (h.symm.trans hact)]

/-- Where the run after the second action ends, that after the first does. -/
theorem Leads.ends {o : Except Failure Machine × Store} (h : w.Leads act s act' s')
    (hends : w.Ends act' s' o) : w.Ends act s o := by
  obtain ⟨n, hn⟩ := h
  obtain ⟨more, hmore, hover⟩ := hends
  exact ⟨n + more, (hn more).trans hmore, hover⟩

theorem Leads.lasts {k : Nat} (h : w.Leads act s act' s') (hlasts : w.Lasts k act' s') :
    w.Lasts k act s := by
  obtain ⟨n, hn⟩ := h
  intro steps hsteps hover
  -- a run that is over now is still over where the other one starts
  refine hlasts steps hsteps ?_
  have hstays := after_of_over hover n
  rw [Nat.add_comm, hn] at hstays
  rw [hstays]
  exact hover

section

variable {f : Frame} {below : List Frame}

private theorem after_pure_cons (completion : Value) (h : w.height ≤ below.length) (n : Nat) :
    w.after (pure ⟨f :: below, completion⟩) (n + 1) s =
      w.after (turn w.run w.fuel ⟨below, completion⟩ f) n s := by
  unfold after
  rw [pure_bind, runAbove_cons completion h]

/-- The frame above the height has its turn. -/
theorem leads_turn (completion : Value) (h : w.height ≤ below.length) :
    w.Leads (pure ⟨f :: below, completion⟩) s (turn w.run w.fuel ⟨below, completion⟩ f) s := by
  refine ⟨1, fun more => ?_⟩
  rw [Nat.add_comm]
  exact after_pure_cons completion h more

/-- A turn takes a step. -/
theorem Lasts.of_turn {k : Nat} (completion : Value) (h : w.height ≤ below.length)
    (hlasts : w.Lasts k (turn w.run w.fuel ⟨below, completion⟩ f) s) :
    w.Lasts (k + 1) (pure ⟨f :: below, completion⟩) s := by
  intro n hn hover
  cases n with
  | zero =>
      have hlow : (⟨f :: below, completion⟩ : Machine).depth ≤ w.height := hover _ rfl
      simp only [depth, List.length_cons] at hlow
      omega
  | succ n =>
      rw [after_pure_cons completion h] at hover
      exact hlasts n (Nat.lt_of_succ_lt_succ hn) hover

end

end Watch

end Machine

end Stepwise
