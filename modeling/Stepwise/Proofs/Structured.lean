/-
Statements end as they are executed.

Above the frames of a statement everything is settled by the recursion: jumps that stay
within it are gone when it ends.  What is left is how it ends, and that is read off the
frames below: `Leaves` says for each ending what the stack is then.  A `break` takes the
innermost statement that it can mean with it, a `continue` leaves the innermost such loop
on top, as that was when its body began, and a `return` puts its value into the frame of
the innermost call; a jump that finds nothing of the kind within its function fails.

The statement is one about runs that are over, in both directions: a run from where the
statement begins ends just if the execution does, for some bound, and then they end alike.
-/
import Stepwise.Proofs.Discipline
import Stepwise.Proofs.Statements

namespace Stepwise

/-! ### How a statement leaves the stack -/

open Machine in
/-- What the machine is when a statement has ended so, above these frames. -/
inductive Ending.Leaves (below : List Frame) (completion : Value) :
    Ending → Except Failure Machine → Prop where
  | done : Leaves below completion (.normal false) (.ok ⟨below, completion⟩)
  | handedDown : Leaves below completion (.normal true)
      (.ok (deliverValue ⟨below, completion⟩ .undefined))
  | left {label : Option String} {inner rest : List Frame} {target : Frame}
      (h : IsInnermost (Frame.isBreakTarget label) Frame.opensScope below inner target rest) :
      Leaves below completion (.breakTo label) (.ok ⟨rest, completion⟩)
  | wentOn {label : Option String} {inner rest : List Frame} {target : Frame}
      (h : IsInnermost (Frame.isContinueTarget label) Frame.opensScope below inner target rest) :
      Leaves below completion (.continueAt label) (.ok ⟨target :: rest, completion⟩)
  | returned {v : Value} {inner rest : List Frame} {target : Frame}
      (h : IsInnermost (fun f => f.work.isRunning) (fun f => f.work.isProgram)
        below inner target rest) :
      Leaves below completion (.returnWith v)
        (.ok ⟨{ target with value := some (.value v) } :: rest, completion⟩)
  | nothingToLeave {label : Option String}
      (h : ∀ inner target rest,
        ¬ IsInnermost (Frame.isBreakTarget label) Frame.opensScope below inner target rest) :
      Leaves below completion (.breakTo label) (.error (jumpFailure label "break"))
  | nothingToGoOnWith {label : Option String}
      (h : ∀ inner target rest,
        ¬ IsInnermost (Frame.isContinueTarget label) Frame.opensScope below inner target rest) :
      Leaves below completion (.continueAt label) (.error (jumpFailure label "continue"))
  | nothingToReturnTo {v : Value}
      (h : ∀ inner target rest,
        ¬ IsInnermost (fun f => f.work.isRunning) (fun f => f.work.isProgram) below inner target rest) :
      Leaves below completion (.returnWith v) (.error (jumpFailure none "return"))

namespace Machine

variable {below : List Frame} {completion : Value} {o : Except Failure Machine}

/-- The same, as the machine finds it. -/
def afterEnding (below : List Frame) (completion : Value) : Ending → Except Failure Machine
  | .normal false => .ok ⟨below, completion⟩
  | .normal true => .ok (deliverValue ⟨below, completion⟩ .undefined)
  | .breakTo label => breakTo ⟨below, completion⟩ label
  | .continueAt label => continueAt ⟨below, completion⟩ label
  | .returnWith v => returnWith ⟨below, completion⟩ v

theorem landing_eq_afterEnding (w : Setting) (below : List Frame) (completion : Value) (ending : Ending)
    (s : Store) :
    w.landing below Ending.action ending completion s = (afterEnding below completion ending, s) := by
  cases ending with
  | normal handsDown => cases handsDown <;> rfl
  | breakTo label => rfl
  | continueAt label => rfl
  | returnWith v => rfl

theorem afterEnding_eq_of_leaves {ending : Ending} (h : ending.Leaves below completion o) :
    afterEnding below completion ending = o := by
  cases h with
  | done | handedDown => rfl
  | left h =>
      simp only [afterEnding, breakTo, framesAfterBreak, h.framesDownTo_eq]
      rfl
  | wentOn h =>
      simp only [afterEnding, continueAt, framesAtContinue, h.framesDownTo_eq]
      rfl
  | returned h =>
      simp only [afterEnding, returnWith, framesAtReturn, h.framesDownTo_eq]
      rfl
  | nothingToLeave h =>
      simp only [afterEnding, breakTo, framesAfterBreak, framesDownTo_eq_none_iff.mpr h]
      rfl
  | nothingToGoOnWith h =>
      simp only [afterEnding, continueAt, framesAtContinue, framesDownTo_eq_none_iff.mpr h]
      rfl
  | nothingToReturnTo h =>
      simp only [afterEnding, returnWith, framesAtReturn, framesDownTo_eq_none_iff.mpr h]
      rfl

theorem leaves_afterEnding (below : List Frame) (completion : Value) (ending : Ending) :
    ending.Leaves below completion (afterEnding below completion ending) := by
  cases ending with
  | normal handsDown =>
      cases handsDown with
      | false => exact .done
      | true => exact .handedDown
  | breakTo label =>
      rcases hsearch : framesDownTo (Frame.isBreakTarget label) Frame.opensScope below with - | found
      · simp only [afterEnding, breakTo, framesAfterBreak, hsearch]
        exact .nothingToLeave (framesDownTo_eq_none_iff.mp hsearch)
      · obtain ⟨inner, target, rest, h, rfl⟩ := exists_innermost hsearch
        simp only [afterEnding, breakTo, framesAfterBreak, hsearch]
        exact .left h
  | continueAt label =>
      rcases hsearch : framesDownTo (Frame.isContinueTarget label) Frame.opensScope below with - | found
      · simp only [afterEnding, continueAt, framesAtContinue, hsearch]
        exact .nothingToGoOnWith (framesDownTo_eq_none_iff.mp hsearch)
      · obtain ⟨inner, target, rest, h, rfl⟩ := exists_innermost hsearch
        simp only [afterEnding, continueAt, framesAtContinue, hsearch]
        exact .wentOn h
  | returnWith v =>
      rcases hsearch : framesDownTo (fun f => f.work.isRunning) (fun f => f.work.isProgram)
        below with - | found
      · simp only [afterEnding, returnWith, framesAtReturn, hsearch]
        exact .nothingToReturnTo (framesDownTo_eq_none_iff.mp hsearch)
      · obtain ⟨inner, target, rest, h, rfl⟩ := exists_innermost hsearch
        simp only [afterEnding, returnWith, framesAtReturn, hsearch]
        exact .returned h

theorem leaves_iff {ending : Ending} :
    ending.Leaves below completion o ↔ afterEnding below completion ending = o := by
  refine ⟨afterEnding_eq_of_leaves, ?_⟩
  rintro rfl
  exact leaves_afterEnding below completion ending

/-- A statement that has ended leaves no more frames than there were. -/
theorem isOver_of_leaves {ending : Ending} (h : ending.Leaves below completion o) (s : Store) :
    IsOver below.length (o, s) := by
  intro m hm
  obtain rfl : o = .ok m := hm
  cases h with
  | done => exact Nat.le_refl _
  | handedDown =>
      rw [depth, deliverValue, deliver_frames]
      cases below <;> exact Nat.le_refl _
  | left h | wentOn h | returned h =>
      rw [h.frames_eq]
      simp only [depth, List.length_append, List.length_cons]
      omega

/-! ### Runs of statements -/

/-- Well-formed heaps, and nested machines that keep them so.  Where an execution comes to
nothing, the run goes on for a number of steps. -/
def Setting.ofGrammatical (nested fuel height : Nat) : Setting where
  run := runNested nested
  fuel := fuel
  height := height
  Known := Heap.Grammatical
  edit_known := fun hact _ hs => hact.grammatical hs
  evaluate_known := fun caller depth args s hs =>
    (evaluate_sound (runNested_sound nested) caller depth args s hs).1
  Open := Watch.Lasts ⟨runNested nested, fuel, height⟩
  open_of_le := fun h hle => h.of_le hle
  open_of_leads := fun hleads h => hleads.lasts h
  open_of_turn := fun completion hlow h => .of_turn completion hlow h

theorem Setting.ofGrammatical_countsTurns (nested fuel height : Nat) :
    (ofGrammatical nested fuel height).CountsTurns :=
  fun _ _ _ hsteps => absurd hsteps (Nat.not_lt_zero _)

/-- **Statements run as they are executed.**  A statement of a well-formed tree begins above any
frames.  A run from there is over, with some result and some store, just if the execution
by recursion comes to an end, with some bound for its loops and calls, in the same store:
either both fail alike, or the ending of the execution says how the stack is left. -/
theorem statement_runs_as_executed (nested fuel : Nat) {n : Node} (hn : n.isStatement = true)
    (below : List Frame) (completion : Value) {s : Store} (hs : s.Grammatical)
    (o : Except Failure Machine) (s' : Store) :
    let w : Watch := ⟨runNested nested, fuel, below.length⟩
    let begun := push ⟨below, completion⟩ (.ofNode n false)
    w.Ends begun s (o, s') ↔ ∃ bound there, there.store = s' ∧
      let executed := n.execute (callAny w.run fuel bound) bound (siteOf below) [] ⟨s, completion⟩
      (∃ e, executed = some (.error e, there) ∧ o = .error e) ∨
        ∃ ending, executed = some (.ok ending, there) ∧ ending.Leaves below there.completion o := by
  intro watch begun
  let w := Setting.ofGrammatical nested fuel below.length
  have hcounts : w.CountsTurns := Setting.ofGrammatical_countsTurns nested fuel below.length
  have hfollows (bound : Nat) := Setting.executes hcounts
    (w.callAny_faithful hcounts (fun _ h => h) bound) n hn below [] (Nat.le_refl _) completion s hs
  -- what is executed to an end is where the run ends
  have hfails {bound : Nat} {e : Failure} {there : Moment}
      (hexecuted : n.execute (callAny w.run w.fuel bound) bound (siteOf below) [] ⟨s, completion⟩ =
        some (.error e, there)) : w.Ends begun s (.error e, there.store) := by
    have hmeets := hfollows bound
    rw [hexecuted] at hmeets
    exact hmeets.2.ends ⟨0, rfl, fun m hm => by cases hm⟩
  have hends {bound : Nat} {ending : Ending} {there : Moment} {o : Except Failure Machine}
      (hexecuted : n.execute (callAny w.run w.fuel bound) bound (siteOf below) [] ⟨s, completion⟩ =
        some (.ok ending, there)) (hleaves : ending.Leaves below there.completion o) :
      w.Ends begun s (o, there.store) := by
    have hmeets := hfollows bound
    rw [hexecuted] at hmeets
    have hover := isOver_of_leaves hleaves there.store
    have hlanding := landing_eq_afterEnding w below there.completion ending there.store
    rw [leaves_iff.mp hleaves] at hlanding
    exact hmeets.2.ends ⟨0, by rw [Watch.after_zero]; exact hlanding, hover⟩
  constructor
  · intro hrun
    have hend : w.Ends begun s (o, s') := hrun
    obtain ⟨bound, hlong⟩ := hend.exists_not_lasts
    rcases hexecuted : n.execute (callAny w.run w.fuel bound) bound (siteOf below) [] ⟨s, completion⟩
      with - | ⟨e | ending, there⟩
    · have hmeets := hfollows bound
      rw [hexecuted] at hmeets
      exact absurd hmeets hlong
    · obtain ⟨rfl, rfl⟩ := Prod.mk.inj (hend.unique (hfails hexecuted))
      exact ⟨bound, there, rfl, .inl ⟨e, hexecuted, rfl⟩⟩
    · have hleaves := leaves_afterEnding below there.completion ending
      obtain ⟨rfl, rfl⟩ := Prod.mk.inj (hend.unique (hends hexecuted hleaves))
      exact ⟨bound, there, rfl, .inr ⟨ending, hexecuted, hleaves⟩⟩
  · rintro ⟨bound, there, rfl, ⟨e, hexecuted, rfl⟩ | ⟨ending, hexecuted, hleaves⟩⟩
    · exact hfails hexecuted
    · exact hends hexecuted hleaves

/-- A jump from an inner loop to the test of the outer one, which fails:
`outer: do while ("again") continue outer; while ("")`. -/
theorem statement_runs_as_executed_continue :
    let text (s : String) : Node := .literal (.string s) false
    let n : Node := .labeled "outer" (.doWhileStatement (text "")
      (.whileStatement (text "again") (.continueStatement (some "outer"))))
    let f : Frame := { work := .statements true [] }
    let w : Watch := ⟨runNested 0, 0, 1⟩
    w.Ends (push ⟨[f], .undefined⟩ (.ofNode n false)) (.holding #[])
      (.ok ⟨[f], .undefined⟩, .holding #[]) := by
  intro text n f w
  exact (statement_runs_as_executed 0 0 (n := n) rfl [f] .undefined Store.holding_grammatical _ _).mpr
    ⟨2, ⟨.holding #[], .undefined⟩, rfl, .inr ⟨.normal false, rfl, .done⟩⟩

end Machine

end Stepwise
