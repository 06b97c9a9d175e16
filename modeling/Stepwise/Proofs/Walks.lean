/-
How the instants of a run follow each other.

There are four ways.  A frame has its turn and no other machine has a part in it; a turn
puts a machine for source text on top of its own; that machine begins; or it ends, and
hands down what it came to.  `instants_walk` says that this is so from the beginning of a
run to its end, and if the run fails, up to the instant at which it does.  What is to be
shown of two instants that follow each other then has to be shown of these four only.
-/
import Mathlib.Data.List.Chain
import Stepwise.Proofs.Hosting

namespace Stepwise

/-! ### Walks -/

/-- From one thing to another by way of those in a list, which ends where the walk does. -/
inductive Walk {α : Type} (r : α → α → Prop) : α → List α → α → Prop where
  | stay (a : α) : Walk r a [] a
  | step {a b c : α} {l : List α} (h : r a b) (hrest : Walk r b l c) : Walk r a (b :: l) c

namespace Walk

variable {α β : Type} {r : α → α → Prop} {a b c : α} {l l' : List α}

theorem single (h : r a b) : Walk r a [b] b := .step h (.stay b)

theorem append (h : Walk r a l b) (h' : Walk r b l' c) : Walk r a (l ++ l') c := by
  induction h with
  | stay a => exact h'
  | step h _ ih => exact .step h (ih h')

/-- What each step hands on holds everywhere on the way. -/
theorem keeps {P : α → Prop} (hP : ∀ a b, r a b → P a → P b) (h : Walk r a l b) (ha : P a) :
    Walk (fun x y => r x y ∧ P x) a l b ∧ P b := by
  induction h with
  | stay a => exact ⟨.stay a, ha⟩
  | step h _ ih =>
      obtain ⟨hwalk, hb⟩ := ih (hP _ _ h ha)
      exact ⟨.step ⟨h, ha⟩ hwalk, hb⟩

theorem map {r' : β → β → Prop} (f : α → β) (hf : ∀ a b, r a b → r' (f a) (f b))
    (h : Walk r a l b) : Walk r' (f a) (l.map f) (f b) := by
  induction h with
  | stay a => exact .stay _
  | step h _ ih => exact .step (hf _ _ h) ih

/-- A walk, and what goes on from its end. -/
theorem isChain_append (h : Walk r a l b) (hnext : r b c) (hrest : (c :: l').IsChain r) :
    (a :: (l ++ c :: l')).IsChain r := by
  induction h with
  | stay a => exact List.isChain_cons_cons.mpr ⟨hnext, hrest⟩
  | step h _ ih => exact List.isChain_cons_cons.mpr ⟨h, ih hnext⟩

end Walk

/-! ### Instants -/

namespace Instant

open Machine

/-- What there is to see next. -/
inductive Next : Instant → Instant → Prop where
  /-- A frame has had its turn. -/
  | turn {fuel : Nat} {m m' : Machine} {f : Frame} {waiting : List Machine} {s s' : Store}
      (halone : nested? fuel m f s = none) (h : turn (runNested fuel) fuel m f s = (.ok m', s')) :
      Next ⟨m.putBack f, waiting, s⟩ ⟨m', waiting, s'⟩
  /-- A machine waits for another one. -/
  | nest {fuel : Nat} {m : Machine} {f g : Frame} {waiting : List Machine} {s s' : Store}
      (h : nested? fuel m f s = some (g, s')) :
      Next ⟨m.putBack f, waiting, s⟩ ⟨idle, m :: waiting, s'⟩
  /-- That one gets its frame. -/
  | begin {m : Machine} {waiting : List Machine} {s : Store} (body : List Node) (scope : ObjectId)
      (receiver : Value) :
      Next ⟨idle, m :: waiting, s⟩
        ⟨idle.putBack (.opening (.program body) scope receiver), m :: waiting, s⟩
  /-- It has come to its end. -/
  | hand {m : Machine} {v : Value} {waiting : List Machine} {s s' : Store}
      (hheap : s'.toHeap = s.toHeap) :
      Next ⟨⟨[], v⟩, m :: waiting, s⟩ ⟨m.deliverValue v, waiting, s'⟩

/-- The heap that is left where what comes next fails. -/
inductive FailsWith : Instant → Heap → Prop where
  | turn {fuel : Nat} {m : Machine} {f : Frame} {waiting : List Machine} {s s' : Store} {e : Failure}
      (halone : nested? fuel m f s = none) (h : turn (runNested fuel) fuel m f s = (.error e, s')) :
      FailsWith ⟨m.putBack f, waiting, s⟩ s'.toHeap
  /-- There is no fuel for a turn, or no room for a frame. -/
  | stay (p : Instant) : FailsWith p p.store.toHeap

end Instant

namespace Machine

/-- A source text is run as a program. -/
theorem nested?_opening {fuel : Nat} {m : Machine} {f g : Frame} {s s' : Store}
    (h : nested? fuel m f s = some (g, s')) :
    ∃ body scope receiver, g = .opening (.program body) scope receiver := by
  obtain ⟨s₂, hevaluated, -⟩ := nested?_eq_some h
  obtain ⟨action, source, s₁, -, -, hopen⟩ := evaluated_eq_some hevaluated
  obtain ⟨program, t, -, hrest⟩ := exists_of_run_bind_eq_ok hopen
  obtain ⟨scope, t', -, hrest⟩ := exists_of_run_bind_eq_ok hrest
  obtain ⟨-, t'', -, hpure⟩ := exists_of_run_bind_eq_ok hrest
  cases hpure
  exact ⟨_, _, _, rfl⟩

/-- The instant that a run ends at, by what it came to. -/
def EndsAt (p q : Instant) : Except Failure Value × Store → Prop
  | (.ok v, s) => q = ⟨⟨[], v⟩, p.waiting, s⟩
  | (.error _, s) => q.FailsWith s.toHeap

/-- The instant that a step ends at, by what it came to. -/
def StepEndsAt (p q : Instant) : Except Failure (Option Machine) × Store → Prop
  | (.ok (some m), s) => q = ⟨m, p.waiting, s⟩
  | (.ok none, s) => p.machine.frames = [] ∧ q = ⟨p.machine, p.waiting, s⟩
  | (.error _, s) => q.FailsWith s.toHeap

section

variable {fuel : Nat} {m : Machine} {f g : Frame} {waiting : List Machine} {s s₁ : Store}

theorem instantsWithin_of_nested? {ofNested : Instant → List Instant} (below : List Frame)
    (completion : Value) (h : nested? fuel ⟨below, completion⟩ f s = none) :
    instantsWithin ofNested fuel ⟨⟨f :: below, completion⟩, waiting, s⟩ = [] := by
  simp only [instantsWithin, h]

/-- A turn within which a machine runs: the two begin, that one runs, and what it comes to is
handed down. -/
theorem nested_walk
    (hruns : ∀ p, ∃ q, Walk Instant.Next p (instants fuel p) q ∧
      EndsAt p q (runNested fuel p.machine p.store))
    (h : nested? fuel m f s = some (g, s₁)) (waiting : List Machine) :
    ∃ q, Walk Instant.Next ⟨m.putBack f, waiting, s⟩
        (instantsNested (instants fuel) m waiting g s₁) q ∧
      match turn (runNested fuel) fuel m f s with
      | (.ok m', s') => Instant.Next q ⟨m', waiting, s'⟩
      | (.error _, s') => q.FailsWith s'.toHeap := by
  obtain ⟨body, scope, receiver, rfl⟩ := nested?_opening h
  obtain ⟨s₂, hevaluated, rfl⟩ := nested?_eq_some h
  have hnest : Instant.Next ⟨m.putBack f, waiting, s⟩ ⟨idle, m :: waiting, s₂.nesting m.depth⟩ :=
    .nest h
  rw [turn_of_evaluated hevaluated, instantsNested]
  rcases hpush : idle.push (.opening (.program body) scope receiver) (s₂.nesting m.depth) with
    ⟨e | n, s₃⟩
  · have hheap : s₃ = s₂.nesting m.depth := (congrArg Prod.snd hpush).symm
    rw [bind_of_error (suspended_eq (bind_of_error hpush)), Run.thereafter_of_error hpush, hheap]
    exact ⟨_, .single hnest, .stay _⟩
  · obtain ⟨rfl, rfl, -⟩ := push_eq_ok hpush
    let p : Instant := ⟨idle.putBack (.opening (.program body) scope receiver), m :: waiting,
      s₂.nesting m.depth⟩
    obtain ⟨q, hwalk, hends⟩ := hruns p
    have hwalk := Walk.step hnest (.step (.begin body scope receiver) hwalk)
    rw [Run.thereafter_of_ok hpush]
    rcases hrun : runNested fuel p.machine p.store with ⟨e | v, s₄⟩
    · rw [hrun] at hends
      rw [bind_of_error (suspended_eq ((bind_of_ok hpush).trans hrun))]
      exact ⟨q, hwalk, hends⟩
    · rw [hrun] at hends
      rw [bind_of_ok (suspended_eq ((bind_of_ok hpush).trans hrun))]
      obtain rfl : q = ⟨⟨[], v⟩, m :: waiting, s₄⟩ := hends
      exact ⟨_, hwalk, .hand rfl⟩

/-- What there is to see of a step follows each other. -/
theorem step_walk
    (hruns : ∀ p, ∃ q, Walk Instant.Next p (instants fuel p) q ∧
      EndsAt p q (runNested fuel p.machine p.store)) (p : Instant) :
    ∃ q, Walk Instant.Next p (instantsOfStep (instants fuel) fuel p) q ∧
      StepEndsAt p q (step (runNested fuel) fuel p.machine p.store) := by
  rcases p with ⟨⟨- | ⟨f, below⟩, completion⟩, waiting, s⟩
  · exact ⟨_, .stay _, rfl, rfl⟩
  · let m : Machine := ⟨below, completion⟩
    have hstep : step (runNested fuel) fuel ⟨f :: below, completion⟩ =
        turn (runNested fuel) fuel m f >>= fun m' => pure (some m') := rfl
    have hwithin : ∃ q, Walk Instant.Next ⟨m.putBack f, waiting, s⟩
          (instantsWithin (instants fuel) fuel ⟨⟨f :: below, completion⟩, waiting, s⟩) q ∧
        match turn (runNested fuel) fuel m f s with
        | (.ok m', s') => Instant.Next q ⟨m', waiting, s'⟩
        | (.error _, s') => q.FailsWith s'.toHeap := by
      cases hnested : nested? fuel m f s with
      | none =>
          rw [instantsWithin_of_nested? below completion hnested]
          refine ⟨_, .stay _, ?_⟩
          split
          · exact .turn hnested ‹_›
          · exact .turn hnested ‹_›
      | some started =>
          obtain ⟨g, s₁⟩ := started
          have hlist : instantsWithin (instants fuel) fuel ⟨⟨f :: below, completion⟩, waiting, s⟩ =
              instantsNested (instants fuel) m waiting g s₁ := by
            simp only [instantsWithin]
            rw [show nested? fuel ⟨below, completion⟩ f s = some (g, s₁) from hnested]
          rw [hlist]
          exact nested_walk hruns hnested waiting
    obtain ⟨q, hwalk, hnext⟩ := hwithin
    rw [instantsOfStep, hstep]
    rcases hturn : turn (runNested fuel) fuel m f s with ⟨e | m', s'⟩
    · rw [hturn] at hnext
      rw [Run.thereafter_of_error (bind_of_error hturn), List.append_nil, bind_of_error hturn]
      exact ⟨q, hwalk, hnext⟩
    · rw [hturn] at hnext
      have hnow : (turn (runNested fuel) fuel m f >>= fun m' => pure (some m')) s =
          (.ok (some m'), s') := bind_of_ok hturn
      rw [Run.thereafter_of_ok hnow, hnow]
      exact ⟨_, hwalk.append (.single hnext), rfl⟩

end

/-- **What there is to see of a run follows each other**, up to its end. -/
theorem instants_walk : ∀ (fuel : Nat) (p : Instant),
    ∃ q, Walk Instant.Next p (instants fuel p) q ∧
      EndsAt p q (runNested fuel p.machine p.store) := by
  intro fuel
  induction fuel with
  | zero => exact fun p => ⟨p, .stay p, .stay p⟩
  | succ fuel ih =>
      intro p
      obtain ⟨q, hwalk, hends⟩ := step_walk ih p
      rw [instants, runNested]
      rcases hstep : step (runNested fuel) fuel p.machine p.store with ⟨e | - | m', s'⟩
      · rw [hstep] at hends
        rw [Run.thereafter_of_error hstep, List.append_nil, bind_of_error hstep]
        exact ⟨q, hwalk, hends⟩
      · rw [hstep] at hends
        obtain ⟨hframes, rfl⟩ := hends
        rw [Run.thereafter_of_ok hstep, List.append_nil, bind_of_ok hstep]
        refine ⟨_, hwalk, ?_⟩
        show (⟨p.machine, p.waiting, s'⟩ : Instant) = ⟨⟨[], p.machine.completion⟩, p.waiting, s'⟩
        rw [← hframes]
      · rw [hstep] at hends
        rw [Run.thereafter_of_ok hstep, bind_of_ok hstep]
        obtain rfl : q = ⟨m', p.waiting, s'⟩ := hends
        obtain ⟨q, hrest, hends⟩ := ih ⟨m', p.waiting, s'⟩
        exact ⟨q, hwalk.append hrest, hends⟩

end Machine

namespace Evaluator

/-- What there is to see of a step leads to what the step has made of the evaluator, or to the
instant at which it fails. -/
theorem step_walk (e : Evaluator) (fuel : Nat) :
    ∃ q, Walk Instant.Next e.instant (e.instants fuel) q ∧
      (q = (e.step fuel).2.instant ∨
        q.FailsWith (e.step fuel).2.store.toHeap ∧ (e.step fuel).2.machine.frames = []) := by
  obtain ⟨q, hwalk, hends⟩ := Machine.step_walk (Machine.instants_walk fuel) e.instant
  refine ⟨q, hwalk, ?_⟩
  rcases e with ⟨s, m⟩
  have hends : Machine.StepEndsAt ⟨m, [], s⟩ q (Machine.step (Machine.runNested fuel) fuel m s) :=
    hends
  rw [step]
  split
  all_goals
    rename_i hstep
    rw [hstep] at hends
  · exact .inl hends
  · exact .inl hends.2
  · exact .inr ⟨hends, rfl⟩

end Evaluator

end Stepwise
