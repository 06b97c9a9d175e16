/-
The discipline of the stack.

A frame that waits for an expression finds itself as it was when the result comes, and so
do all the frames below it.  Whatever the expression calls, however often it loops, jumps
or evaluates source text: nothing of that reaches the waiting frame.  The result comes
once, into the frame that asked for it, and it is a place just if a place was asked for
and the expression is a name or a member.

A run may be interrupted between two steps: a host may then put another heap in the place
of the store's, as long as that one is grammatical too.
-/
import Stepwise.Proofs.Towers

namespace Stepwise

namespace Machine

/-! ### Runs -/

/-- What comes next in a run: a step, with fuel for what it has to do, or what a host makes of
the store between two steps. -/
inductive Next : Machine × Store → Machine × Store → Prop where
  | step {m m' : Machine} {s s' : Store} (fuel : Nat)
      (h : step (runNested fuel) fuel m s = (.ok (some m'), s')) : Next (m, s) (m', s')
  | host {m : Machine} {s s' : Store} (h : s'.Grammatical) : Next (m, s) (m, s')

/-- What a well-formed program leads to. -/
inductive Reached : Machine × Store → Prop where
  | start {p : Program} {s : Store} (hp : p.isGrammatical = true) (hs : s.Grammatical)
      (scope : ObjectId) (receiver : Value) : Reached (ofProgram p scope receiver, s)
  | next {here there : Machine × Store} (h : Reached here) (hnext : Next here there) : Reached there

/-! ### Steps on towers -/

variable {floor role : Role} {tower base : List Frame} {m m' : Machine} {s s' : Store}

theorem step_onward {run : NestedRun} (hrun : RunsSoundly run) (fuel : Nat)
    (hfloor : floor.isFloor = true) (h : Tower floor role tower) (hframes : m.frames = tower ++ base) :
    Run.Sound (fun next => ∃ m', next = some m' ∧ Onward floor base m'.frames) (step run fuel m) := by
  rcases m with ⟨frames, completion⟩
  cases tower with
  | nil => cases h
  | cons f rest =>
      obtain rfl : frames = f :: (rest ++ base) := hframes
      exact .bind (turn_onward hrun fuel hfloor h) fun m' hm' => .pure ⟨m', rfl, hm'⟩

theorem isSound_of_onward (h : Onward (.body true) [] m.frames) : m.IsSound := by
  cases h with
  | standing h hframes => exact .inr ⟨_, by rw [hframes, List.append_nil]; exact h⟩
  | delivered h hframes => exact .inl hframes

/-- Machines nested in each other keep the heap grammatical, however deep. -/
theorem runNested_sound : ∀ fuel, RunsSoundly (runNested fuel) := by
  intro fuel
  induction fuel with
  | zero => exact fun m _ => .query fun _ _ _ _ => trivial
  | succ fuel ih =>
      intro m hm
      have hstep : Run.Sound (fun next => ∀ m', next = some m' → m'.IsSound)
          (step (runNested fuel) fuel m) := by
        rcases hm with hempty | ⟨role, htower⟩
        · rcases m with ⟨frames, completion⟩
          obtain rfl : frames = [] := hempty
          exact .pure fun m' h => by cases h
        · intro s hs
          have hframes : m.frames = m.frames ++ [] := (List.append_nil _).symm
          obtain ⟨hkept, hresult⟩ := step_onward ih fuel rfl htower hframes s hs
          refine ⟨hkept, fun next hnext m' hm' => ?_⟩
          obtain ⟨m'', rfl, honward⟩ := hresult next hnext
          cases hm'
          exact isSound_of_onward honward
      refine .bind hstep fun next hnext => ?_
      cases next with
      | none => exact .pure trivial
      | some m' => exact ih m' (hnext m' rfl)

/-- One step of a run on a tower. -/
theorem Next.onward {here there : Machine × Store} (hnext : Next here there)
    (hfloor : floor.isFloor = true) (h : Tower floor role tower)
    (hframes : here.1.frames = tower ++ base) (hheap : here.2.Grammatical) :
    Onward floor base there.1.frames ∧ there.2.Grammatical := by
  cases hnext with
  | step fuel hstep =>
      obtain ⟨hkept, hresult⟩ := step_onward (runNested_sound fuel) fuel hfloor h hframes _ hheap
      rw [hstep] at hkept hresult
      obtain ⟨m', heq, honward⟩ := hresult _ rfl
      cases heq
      exact ⟨honward, hkept⟩
  | host hheap' => exact ⟨.standing h hframes, hheap'⟩

/-- Whatever is reached stands on the program, and its heap is grammatical. -/
theorem Reached.sound {here : Machine × Store} (h : Reached here) :
    here.1.IsSound ∧ here.2.Grammatical := by
  induction h with
  | start hp hs scope receiver =>
      exact ⟨.inr ⟨_, .floor (Program.opening_plays hp scope receiver)⟩, hs⟩
  | next h hnext ih =>
      obtain ⟨hempty | ⟨role, htower⟩, hheap⟩ := ih
      · cases hnext with
        | step fuel hstep =>
            rename_i m m' s s'
            rcases m with ⟨frames, completion⟩
            obtain rfl : frames = [] := hempty
            cases hstep
        | host hheap' => exact ⟨.inl hempty, hheap'⟩
      · have hframes (frames : List Frame) : frames = frames ++ [] := (List.append_nil _).symm
        obtain ⟨honward, hheap'⟩ := hnext.onward rfl htower (hframes _) hheap
        exact ⟨isSound_of_onward honward, hheap'⟩

/-- The frame on top of a machine that is reached plays a role there. -/
theorem Reached.exists_plays {f : Frame} {below : List Frame} (h : Reached (m, s))
    (hframes : m.frames = f :: below) : ∃ role : Role, f.Plays role := by
  rcases h.sound.1 with hempty | ⟨role, htower⟩
  · rw [hempty] at hframes
    cases hframes
  · rw [hframes] at htower
    exact ⟨role, htower.plays⟩

/-! ### Waiting frames -/

/-- Some frames stand above a base. -/
def StandsOn (base : List Frame) (m : Machine) : Prop :=
  ∃ above, above ≠ [] ∧ m.frames = above ++ base

theorem standsOn_of_tower (h : Tower floor role tower) (hframes : m.frames = tower ++ base) :
    StandsOn base m := by
  refine ⟨tower, ?_, hframes⟩
  rintro rfl
  cases h

/-- What stands in the frames of a tower can be taken there. -/
theorem slot_of_tower (h : Tower floor role tower) :
    ∀ f ∈ tower, ∀ c, f.value = some c → f.work.accepts c.shape = true := by
  induction h with
  | floor h =>
      intro f hf
      rw [List.mem_singleton.mp hf]
      exact h.slot
  | onto h hon hbelow ih =>
      intro f hf
      rcases List.mem_cons.mp hf with rfl | hf
      · exact h.slot
      · exact ih f hf

/-- A run from a tower on a base either stays above the base, or hands over what is owed. -/
theorem run_onward (hfloor : floor.isFloor = true) (run : Nat → Machine × Store)
    (h : Tower floor role tower) (hframes : (run 0).1.frames = tower ++ base)
    (hheap : (run 0).2.Grammatical) :
    ∀ n, (∀ i < n, Next (run i) (run (i + 1))) →
      ((∀ i ≤ n, StandsOn base (run i).1) ∧
        ∃ role' tower', Tower floor role' tower' ∧ (run n).1.frames = tower' ++ base ∧
          (run n).2.Grammatical) ∨
      ∃ k ≤ n, (∀ i < k, StandsOn base (run i).1) ∧
        ∃ c, c.shape = floor.hands ∧ (run k).1.frames = handTo c base := by
  intro n
  induction n with
  | zero =>
      intro _
      refine .inl ⟨fun i hi => ?_, role, tower, h, hframes, hheap⟩
      rw [Nat.le_zero.mp hi]
      exact standsOn_of_tower h hframes
  | succ n ih =>
      intro hnext
      rcases ih fun i hi => hnext i (Nat.lt_succ_of_lt hi) with
        ⟨hstands, role', tower', htower', hframes', hheap'⟩ | ⟨k, hk, hstands, hdelivered⟩
      · obtain ⟨honward, hheap''⟩ :=
          (hnext n (Nat.lt_succ_self n)).onward hfloor htower' hframes' hheap'
        cases honward with
        | standing h'' hframes'' =>
            refine .inl ⟨fun i hi => ?_, _, _, h'', hframes'', hheap''⟩
            rcases Nat.le_succ_iff.mp hi with hi | rfl
            · exact hstands i hi
            · exact standsOn_of_tower h'' hframes''
        | delivered hc hframes'' =>
            exact .inr ⟨n + 1, Nat.le_refl _, fun i hi => hstands i (Nat.le_of_lt_succ hi), _, hc,
              hframes''⟩
      · exact .inr ⟨k, Nat.le_succ_of_le hk, hstands, hdelivered⟩

/-- **One result for each frame that waits.**  What lies in a frame can be taken there: a
place lies only in a frame that looks at it.  And when an expression begins above a frame
`f`, then `f` and all the frames below it stay as they are for as long as anything stands
above them; when that ends, one result has been put into `f`, which is a place just if `f`
had asked for one and the expression is a name or a member. -/
theorem awaited_result_arrives_once {m : Machine} {s : Store} (hreached : Reached (m, s)) :
    (∀ f ∈ m.frames, ∀ c, f.value = some c → f.work.accepts c.shape = true) ∧
      ∀ (e : Node) (wantsReference : Bool) (f : Frame) (below : List Frame),
        e.isExpression = true → m.frames = .ofNode e wantsReference :: f :: below →
        ∀ (run : Nat → Machine × Store) (n : Nat), run 0 = (m, s) →
          (∀ i < n, Next (run i) (run (i + 1))) →
          (∀ i ≤ n, StandsOn (f :: below) (run i).1) ∨
          ∃ k ≤ n, (∀ i < k, StandsOn (f :: below) (run i).1) ∧
            ∃ c, (run k).1.frames = { f with value := some c } :: below ∧
              c.isReference = (wantsReference && e.isPlace) := by
  obtain ⟨hsound, hheap⟩ := hreached.sound
  refine ⟨?_, ?_⟩
  · rcases hsound with hempty | ⟨role, htower⟩
    · intro f hf
      rw [hempty] at hf
      cases hf
    · exact slot_of_tower htower
  · intro e wantsReference f below he hframes run n hrun hnext
    have hfloor := Tower.floor (Frame.ofNode_plays_expression he wantsReference)
    have hstart : (run 0).1.frames = [.ofNode e wantsReference] ++ f :: below := by
      rw [hrun]
      exact hframes
    have hheap' : (run 0).2.Grammatical := by
      rw [hrun]
      exact hheap
    rcases run_onward rfl run hfloor hstart hheap' n hnext with
      ⟨hstands, -⟩ | ⟨k, hk, hstands, c, hc, hgot⟩
    · exact .inl hstands
    · refine .inr ⟨k, hk, hstands, c, hgot, ?_⟩
      rw [c.isReference_eq, hc]
      exact e.promise_isReference wantsReference

/-- The frame of an expression statement gets the value of a literal. -/
theorem awaited_result_arrives_once_literal :
    let rest : Frame := { Frame.opening .empty ⟨0⟩ .undefined with work := .statements true [] }
    let waiting : Frame := { work := .expression }
    let above : Machine := ⟨[.ofNode (.literal .null false) false, waiting, rest], .undefined⟩
    let after : Machine := ⟨[{ waiting with value := some (.value .null) }, rest], .undefined⟩
    let run : Nat → Machine × Store := fun i => (if i = 0 then above else after, .holding #[])
    ∃ k ≤ 1, (∀ i < k, StandsOn [waiting, rest] (run i).1) ∧
      ∃ c, (run k).1.frames = [{ waiting with value := some c }, rest] ∧ c.isReference = false := by
  intro rest waiting above after run
  let begun : Machine :=
    ⟨[.ofNode (.expressionStatement (.literal .null false)) false, rest], .undefined⟩
  let program : Program := ⟨[.expressionStatement (.literal .null false)]⟩
  have hstart : Reached (ofProgram program ⟨0⟩ .undefined, .holding #[]) :=
    .start rfl Store.holding_grammatical ⟨0⟩ .undefined
  have hbegun : Reached (begun, .holding #[]) := .next hstart (.step 0 rfl)
  have habove : Reached (above, .holding #[]) := .next hbegun (.step 0 rfl)
  have hnext : ∀ i < 1, Next (run i) (run (i + 1)) := by
    intro i hi
    obtain rfl : i = 0 := by omega
    exact .step 0 rfl
  rcases (awaited_result_arrives_once habove).2 (.literal .null false) false waiting [rest] rfl rfl
    run 1 rfl hnext with hstands | hdelivered
  · obtain ⟨frames, hne, hframes⟩ := hstands 1 (Nat.le_refl 1)
    have hlength : 2 = frames.length + 2 := (congrArg List.length hframes).trans List.length_append
    exact absurd (List.eq_nil_of_length_eq_zero (by omega)) hne
  · exact hdelivered

end Machine

end Stepwise
