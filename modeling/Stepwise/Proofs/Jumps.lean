/-
What jumps find.

A jump looks down the stack for its target, and some frame ends its search.  What it finds
is said here in two ways: a frame at a time, for proofs that go down the stack, and for
the stack as a whole, where the target is the innermost frame of its kind.  Whatever a jump
finds, all that it does to a machine is that frames fall off.
-/
import Stepwise.Machine.Stack
import Stepwise.Proofs.Moves

namespace Stepwise

/-! ### Targets -/

namespace Frame

variable {f : Frame}

theorem isBreakTarget_of_loop (h : f.work.isLoop = true) (label : Option String) :
    f.isBreakTarget label = label.all f.labels.contains := by
  cases label with
  | none => exact h
  | some label => rfl

theorem isBreakTarget_of_not_loop (h : f.work.isLoop = false) (label : Option String) :
    f.isBreakTarget label = label.any f.labels.contains := by
  cases label with
  | none => exact h
  | some label => rfl

theorem isContinueTarget_of_loop (h : f.work.isLoop = true) (label : Option String) :
    f.isContinueTarget label = label.all f.labels.contains := by
  rw [isContinueTarget, h, Bool.true_and]

theorem isContinueTarget_of_not_loop (h : f.work.isLoop = false) (label : Option String) :
    f.isContinueTarget label = false := by
  rw [isContinueTarget, h, Bool.false_and]

/-- A frame without labels that is no loop is no target. -/
theorem isBreakTarget_of_unlabeled (h : f.work.isLoop = false) (hlabels : f.labels = [])
    (label : Option String) : f.isBreakTarget label = false := by
  rw [isBreakTarget_of_not_loop h, hlabels]
  cases label <;> rfl

end Frame

namespace Machine

/-! ### A frame at a time -/

section

variable {isTarget isEnd : Frame → Bool} {f : Frame}

theorem framesDownTo_of_target (h : isTarget f = true) (below : List Frame) :
    framesDownTo isTarget isEnd (f :: below) = some (f :: below) := by
  rw [framesDownTo, if_pos h]

theorem framesDownTo_of_end (htarget : isTarget f = false) (hend : isEnd f = true)
    (below : List Frame) : framesDownTo isTarget isEnd (f :: below) = none := by
  rw [framesDownTo, htarget, hend, if_neg Bool.false_ne_true, if_pos rfl]

/-- The search goes on below a frame that does not end it. -/
theorem framesDownTo_of_not_end (hend : isEnd f = false) (below : List Frame) :
    framesDownTo isTarget isEnd (f :: below) =
      if isTarget f then some (f :: below) else framesDownTo isTarget isEnd below := by
  rw [framesDownTo, hend, if_neg Bool.false_ne_true]

theorem framesDownTo_of_passed (htarget : isTarget f = false) (hend : isEnd f = false)
    (below : List Frame) :
    framesDownTo isTarget isEnd (f :: below) = framesDownTo isTarget isEnd below := by
  rw [framesDownTo_of_not_end hend, htarget, if_neg Bool.false_ne_true]

end

/-- A frame that no jump ends at, unless it is what the jump goes to. -/
structure LetsPass (g : Frame) : Prop where
  scope : g.scope = none
  running : g.work.isRunning = false
  program : g.work.isProgram = false

namespace LetsPass

variable {g : Frame} (h : LetsPass g) (below : List Frame) (label : Option String) (completion : Value)
include h

theorem opensScope : g.opensScope = false := by
  rw [Frame.opensScope, h.scope]
  rfl

theorem breakTo_cons : breakTo ⟨g :: below, completion⟩ label =
    if g.isBreakTarget label then .ok ⟨below, completion⟩ else breakTo ⟨below, completion⟩ label := by
  simp only [breakTo, framesAfterBreak, framesDownTo_of_not_end h.opensScope]
  by_cases htarget : g.isBreakTarget label = true
  · rw [if_pos htarget, if_pos htarget]
    rfl
  · rw [if_neg htarget, if_neg htarget]
    rfl

theorem continueAt_cons : continueAt ⟨g :: below, completion⟩ label =
    if g.isContinueTarget label then .ok ⟨g :: below, completion⟩
    else continueAt ⟨below, completion⟩ label := by
  simp only [continueAt, framesAtContinue, framesDownTo_of_not_end h.opensScope]
  by_cases htarget : g.isContinueTarget label = true
  · rw [if_pos htarget, if_pos htarget]
    rfl
  · rw [if_neg htarget, if_neg htarget]
    rfl

theorem returnWith_cons (v : Value) :
    returnWith ⟨g :: below, completion⟩ v = returnWith ⟨below, completion⟩ v := by
  have hpassed : framesAtReturn (g :: below) = framesAtReturn below :=
    framesDownTo_of_passed h.running h.program below
  simp only [returnWith, hpassed]
  rfl

end LetsPass

/-! ### The innermost target -/

/-- The innermost frame that is looked for lies above the first one that ends the search. -/
structure IsInnermost (isTarget isEnd : Frame → Bool) (frames inner : List Frame) (target : Frame)
    (rest : List Frame) : Prop where
  frames_eq : frames = inner ++ target :: rest
  found : isTarget target = true
  passed : ∀ g ∈ inner, isTarget g = false ∧ isEnd g = false

section

variable {isTarget isEnd : Frame → Bool} {frames inner rest : List Frame} {target : Frame}

theorem IsInnermost.framesDownTo_eq (h : IsInnermost isTarget isEnd frames inner target rest) :
    framesDownTo isTarget isEnd frames = some (target :: rest) := by
  obtain ⟨rfl, hfound, hpassed⟩ := h
  induction inner with
  | nil => exact framesDownTo_of_target hfound rest
  | cons g inner ih =>
      obtain ⟨htarget, hend⟩ := hpassed g List.mem_cons_self
      rw [List.cons_append, framesDownTo_of_passed htarget hend]
      exact ih fun g hg => hpassed g (List.mem_cons_of_mem _ hg)

theorem exists_innermost {found : List Frame} (h : framesDownTo isTarget isEnd frames = some found) :
    ∃ inner target rest, IsInnermost isTarget isEnd frames inner target rest ∧
      found = target :: rest := by
  induction frames with
  | nil => cases h
  | cons g below ih =>
      by_cases htarget : isTarget g = true
      · rw [framesDownTo_of_target htarget] at h
        exact ⟨[], g, below, ⟨rfl, htarget, fun g hg => by cases hg⟩, (Option.some.inj h).symm⟩
      · have htarget := Bool.eq_false_iff.mpr htarget
        by_cases hend : isEnd g = true
        · rw [framesDownTo_of_end htarget hend] at h
          cases h
        · have hend := Bool.eq_false_iff.mpr hend
          rw [framesDownTo_of_passed htarget hend] at h
          obtain ⟨inner, target, rest, hinnermost, hfound⟩ := ih h
          refine ⟨g :: inner, target, rest, ⟨?_, hinnermost.found, fun g' hg' => ?_⟩, hfound⟩
          · rw [hinnermost.frames_eq, List.cons_append]
          · rcases List.mem_cons.mp hg' with rfl | hg'
            · exact ⟨htarget, hend⟩
            · exact hinnermost.passed g' hg'

theorem framesDownTo_eq_none_iff : framesDownTo isTarget isEnd frames = none ↔
    ∀ inner target rest, ¬ IsInnermost isTarget isEnd frames inner target rest := by
  refine ⟨fun hnone inner target rest h => ?_, fun hno => ?_⟩
  · rw [h.framesDownTo_eq] at hnone
    cases hnone
  · rcases hsome : framesDownTo isTarget isEnd frames with - | found
    · rfl
    · obtain ⟨inner, target, rest, h, -⟩ := exists_innermost hsome
      exact absurd h (hno inner target rest)

end

/-! ### What a jump leaves -/

theorem framesDownTo_suffix {isTarget isEnd : Frame → Bool} {frames found : List Frame}
    (h : framesDownTo isTarget isEnd frames = some found) : found <:+ frames := by
  obtain ⟨inner, target, rest, hinnermost, rfl⟩ := exists_innermost h
  rw [hinnermost.frames_eq]
  exact List.suffix_append inner _

/-- The machine has lost the frames above one of its own, and nothing else. -/
structure FallsTo (m m' : Machine) : Prop where
  frames : m'.frames <:+ m.frames
  completion : m'.completion = m.completion

section

variable {m m' : Machine}

theorem fallsTo_of_jump {found : Option (List Frame)} {failure : Failure}
    (hfound : ∀ frames, found = some frames → frames <:+ m.frames)
    (h : m.jump found failure = .ok m') : m.FallsTo m' := by
  cases found with
  | none => cases h
  | some frames =>
      cases h
      exact ⟨hfound frames rfl, rfl⟩

theorem breakTo_fallsTo {label : Option String} (h : m.breakTo label = .ok m') : m.FallsTo m' := by
  refine fallsTo_of_jump (fun frames hframes => ?_) h
  obtain ⟨above, habove, rfl⟩ := Option.map_eq_some_iff.mp hframes
  exact (List.tail_suffix above).trans (framesDownTo_suffix habove)

theorem continueAt_fallsTo {label : Option String} (h : m.continueAt label = .ok m') :
    m.FallsTo m' :=
  fallsTo_of_jump (fun _ hframes => framesDownTo_suffix hframes) h

/-- A `return` hands its value to the frame that it ends at. -/
theorem returnWith_fallsTo {v : Value} (h : m.returnWith v = .ok m') :
    ∃ m₁, m.FallsTo m₁ ∧ m' = m₁.deliverValue v := by
  obtain ⟨m₁, hjump, rfl⟩ := exists_of_map_eq_ok h
  exact ⟨m₁, fallsTo_of_jump (fun _ hframes => framesDownTo_suffix hframes) hjump, rfl⟩

end

/-- A jump that finds nothing is an error of syntax. -/
theorem jumpFailure_className (label : Option String) (kind : String) :
    (jumpFailure label kind).className = "SyntaxError" := by
  cases label <;> rfl

end Machine

end Stepwise
