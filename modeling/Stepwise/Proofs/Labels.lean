/-
What a `break` with a label leaves.

A label belongs to the frame that runs the labelled statement, and with that frame it goes.
A `break` has no frame any more when it looks for its label.  So it finds the labels of the
statements around it that have another frame above theirs, and the innermost of those is
the one it leaves, with the frame and everything above it.  It does not find a label when
nothing but labels and branches stands between: `L: break L` is an error, and so is
`L: if (c) break L`, while `L: { break L; }` leaves the block.

`Sited` is the invariant: every frame of a statement runs a statement of its body, at the
end of a path that the frames below it run too.
-/
import Stepwise.Proofs.Discipline
import Stepwise.Proofs.Instants
import Stepwise.Proofs.Occurrences

namespace Stepwise

/-! ### Finding a label on a path -/

namespace RunsAt

variable {root : Node} {path : Path} {f : Frame} {below frames : List Frame} {name : String}

theorem exists_node (h : RunsAt root path (f :: below)) :
    ∃ n, root.at? path = some n ∧ n.IsRunBy f.work := by
  cases h with
  | root _ _ hruns => exact ⟨_, rfl, hruns⟩
  | part _ hat _ hruns => exact ⟨_, hat, hruns⟩

/-- Another frame that runs the same statement. -/
theorem replace (h : RunsAt root path (f :: below)) {f' : Frame} (hsame : f'.SameSite f)
    (hruns : ∀ n, root.at? path = some n → n.IsRunBy f'.work) : RunsAt root path (f' :: below) := by
  obtain ⟨hscope, hlabels'⟩ := hsame
  have hsame : f'.opensScope = f.opensScope := by rw [Frame.opensScope, hscope, Frame.opensScope]
  cases h with
  | root hopens hlabels _ => exact .root (hsame.trans hopens) (hlabels'.trans hlabels) (hruns _ rfl)
  | part hbelow hat hpassed _ hopens hlabels =>
      exact .part hbelow hat hpassed (hruns _ hat) (hsame.trans hopens) (hlabels'.trans hlabels)

/-- A part of a statement begins above it. -/
theorem begin_part (h : RunsAt root path (f :: below)) {n part : Node} {i : Nat}
    (hat : root.at? path = some n) (hpart : n.below? (.part i) = some part) :
    RunsAt root (.part i :: path) (.ofNode part false :: f :: below) := by
  have hat' : root.at? ([] ++ .part i :: path) = some part := by
    rw [List.nil_append, Node.at?, hat]
    exact hpart
  exact RunsAt.part h hat' (fun d hd => by cases hd) .node rfl rfl

/-- What stands under a label, or a branch, takes the place of a statement. -/
theorem pass (h : RunsAt root path (f :: below)) (hopens : f.opensScope = false) {n inner : Node}
    {d : Descent} (hd : d.isPart = false) (hat : root.at? path = some n)
    (hinner : n.below? d = some inner) :
    RunsAt root (d :: path)
      ({ Frame.ofNode inner false with labels := f.labels ++ d.label?.toList } :: below) := by
  cases h with
  | root hopens' _ _ =>
      rw [hopens] at hopens'
      cases hopens'
  | @part _ g _ passed path i _ hbelow _ hpassed _ _ hlabels =>
      have hat' : root.at? ((d :: passed) ++ .part i :: path) = some inner := by
        rw [List.cons_append, Node.at?, hat]
        exact hinner
      refine RunsAt.part hbelow hat' ?_ .node rfl ?_
      · intro d' hd'
        rcases List.mem_cons.mp hd' with rfl | hd'
        · exact hd
        · exact hpassed d' hd'
      · rw [hlabels, Path.labels_cons]

private theorem isBreakTarget_iff {passed : Path} (h : f.labels = passed.labels) :
    f.isBreakTarget (some name) = true ↔ .label name ∈ passed := by
  rw [Frame.isBreakTarget, h, List.contains_iff_mem, Path.mem_labels]

/-- Without the label on the path, the search ends at the body. -/
theorem framesDownTo_of_not_mem (h : RunsAt root path frames) (hname : .label name ∉ path) :
    Machine.framesDownTo (Frame.isBreakTarget (some name)) Frame.opensScope frames = none := by
  induction h with
  | root hopens hlabels _ =>
      refine Machine.framesDownTo_of_end ?_ hopens _
      rw [Frame.isBreakTarget, hlabels]
      rfl
  | part _ _ _ _ hopens hlabels ih =>
      simp only [List.mem_append, List.mem_cons, reduceCtorEq, false_or, not_or] at hname
      have htarget := Bool.eq_false_iff.mpr fun h => hname.1 ((isBreakTarget_iff hlabels).mp h)
      rw [Machine.framesDownTo_of_passed htarget hopens]
      exact ih hname.2

/-- With the label on the path, the search ends at the frame of the innermost statement that has
it; since then that frame has passed labels and branches alone. -/
theorem exists_framesDownTo (h : RunsAt root path frames) {inner outer : Path}
    (hpath : path = inner ++ .label name :: outer) (hinner : .label name ∉ inner) :
    ∃ passed target rest,
      Machine.framesDownTo (Frame.isBreakTarget (some name)) Frame.opensScope frames =
        some (target :: rest) ∧
      (∀ d ∈ passed, d.isPart = false) ∧ RunsAt root (passed ++ .label name :: outer) (target :: rest) := by
  induction h generalizing inner with
  | root _ _ _ => exact absurd hpath.symm (by simp)
  | @part f g below passed path i n hbelow hat hpassed hruns hopens hlabels ih =>
      have hhere := RunsAt.part hbelow hat hpassed hruns hopens hlabels
      rcases List.append_eq_append_iff.mp hpath with ⟨more, rfl, hrest⟩ | ⟨more, rfl, hrest⟩
      · -- the label lies further out than the frame reaches
        have hname : .label name ∉ passed := fun h => hinner (List.mem_append_left more h)
        have htarget := Bool.eq_false_iff.mpr fun h => hname ((isBreakTarget_iff hlabels).mp h)
        cases more with
        | nil => cases hrest
        | cons d more =>
            obtain ⟨rfl, hmore⟩ := List.cons_eq_cons.mp hrest
            rw [Machine.framesDownTo_of_passed htarget hopens]
            exact ih hmore fun h => hinner (List.mem_append_right passed (List.mem_cons_of_mem _ h))
      · -- it is one of those that the frame has passed
        cases more with
        | nil => cases hrest
        | cons d more =>
            obtain ⟨rfl, -⟩ := List.cons_eq_cons.mp hrest
            have htarget := (isBreakTarget_iff hlabels).mpr
              (List.mem_append_right inner (List.mem_cons_self (a := Descent.label name)))
            refine ⟨inner, f, g :: below, Machine.framesDownTo_of_target htarget _,
              fun d hd => hpassed d (List.mem_append_left _ hd), ?_⟩
            rw [hpath] at hhere
            exact hhere

end RunsAt

/-! ### What an action leaves of a stack -/

/-- The frames that there may be after the action of a frame above these. -/
def Action.Leaves (below : List Frame) : Action → List Frame → Prop
  | .await f child, frames => frames = child :: f :: below
  | .invoke f _, frames => (∃ v, frames = handTo (.value v) below) ∨
      ∃ constructed body scope receiver,
        frames = .opening body scope receiver :: { f with work := .running constructed } :: below
  | .become f, frames | .again f, frames => frames = f :: below
  | .deliver c, frames => frames = handTo c below
  | .leave, frames | .complete _, frames => frames = below
  | .breakTo _, frames | .continueAt _, frames => frames <:+ below
  | .returnWith v, frames => ∃ found, found <:+ below ∧ frames = handTo (.value v) found

namespace Machine

variable {run : NestedRun} {fuel : Nat} {m m' : Machine} {s s' : Store}

private theorem invoke_leaves {f : Frame} {call : PendingCall}
    (h : invoke run fuel m f call s = (.ok m', s')) :
    (Action.invoke f call).Leaves m.frames m'.frames := by
  rcases exists_of_invoke_eq_ok h with ⟨v, rfl⟩ | ⟨code, _, receiver, _, scope, _, -, -, -, rfl⟩
  · exact .inl ⟨v, deliver_frames m _⟩
  · exact .inr ⟨call.constructed, code.body, scope, receiver, rfl⟩

theorem obey_leaves {a : Action} (h : obey run fuel m a s = (.ok m', s')) :
    a.Leaves m.frames m'.frames := by
  cases a with
  | await f child =>
      obtain ⟨rfl, -, -⟩ := push_eq_ok h
      rfl
  | invoke f call => exact invoke_leaves h
  | become f =>
      obtain ⟨rfl, -, -⟩ := push_eq_ok h
      rfl
  | again f => cases h; rfl
  | deliver c => cases h; exact deliver_frames m c
  | leave | complete v => cases h; rfl
  | breakTo label => exact (breakTo_fallsTo (congrArg Prod.fst h)).frames
  | continueAt label => exact (continueAt_fallsTo (congrArg Prod.fst h)).frames
  | returnWith v =>
      obtain ⟨found, hfound, rfl⟩ := returnWith_fallsTo (congrArg Prod.fst h)
      exact ⟨found.frames, hfound.frames, deliver_frames found _⟩

/-- A step is the choice of a frame that is carried out. -/
theorem exists_action_of_step {f : Frame} {below : List Frame} (hframes : m.frames = f :: below)
    (h : step run fuel m s = (.ok (some m'), s')) :
    ∃ c a heap, f.resume c s.toHeap = (.ok a, heap) ∧ a.Leaves below m'.frames := by
  obtain ⟨a, heap, hresume, hobey⟩ := exists_of_step_eq_ok hframes h
  exact ⟨_, a, heap, hresume, obey_leaves hobey⟩

end Machine

/-! ### Every statement has a place -/

/-- All frames of statements, and of bodies, run what stands at the end of some path. -/
def Sited : List Frame → Prop
  | [] => True
  | f :: below =>
    (f.work.isExpression = false → ∃ root path, RunsAt root path (f :: below)) ∧ Sited below

namespace Sited

variable {f : Frame} {below frames found : List Frame} {a : Action}

theorem suffix (h : Sited frames) (hfound : found <:+ frames) : Sited found := by
  induction frames with
  | nil => rwa [List.suffix_nil.mp hfound]
  | cons f below ih =>
      rcases List.suffix_cons_iff.mp hfound with rfl | hfound
      · exact h
      · exact ih h.2 hfound

/-- A result that is handed down does not change what a frame runs. -/
theorem handTo (h : Sited frames) (c : Completion) : Sited (handTo c frames) := by
  cases frames with
  | nil => trivial
  | cons f below =>
      refine ⟨fun hf => ?_, h.2⟩
      obtain ⟨root, path, hruns⟩ := h.1 hf
      obtain ⟨n, hat, hn⟩ := hruns.exists_node
      refine ⟨root, path, hruns.replace ⟨rfl, rfl⟩ fun n' hat' => ?_⟩
      rw [hat] at hat'
      cases hat'
      exact hn

theorem expression (h : Sited below) {promise : Shape} (hf : f.Plays (.expression promise)) :
    Sited (f :: below) := by
  have hw : f.work.isExpression = true := (Bool.and_eq_true_iff.mp hf.permits).1
  exact ⟨fun h => absurd hw (by rw [h]; exact Bool.false_ne_true), h⟩

/-- The frame of a body runs the body. -/
theorem body (h : Sited below) {ofProgram : Bool} (hf : f.Plays (.body ofProgram)) :
    Sited (f :: below) := by
  have hw : f.work.isBody ofProgram = true := hf.permits
  have hroot (root : Node) (hruns : root.IsRunBy f.work) : Sited (f :: below) :=
    ⟨fun _ => ⟨root, [], .root hf.scope (hf.labels rfl) hruns⟩, h⟩
  unfold Work.isBody at hw
  split at hw
  · rename_i hwork
    exact hroot _ (by rw [hwork]; exact .node)
  · rename_i hwork
    exact hroot _ (by rw [hwork]; exact .node)
  · rename_i p rest hwork
    cases p with
    | false => exact hroot (.block rest) (by rw [hwork]; exact .block (List.suffix_refl rest))
    | true => exact hroot (.program rest) (by rw [hwork]; exact .program (List.suffix_refl rest))
  · cases hw

/-- What an expression leaves. -/
private theorem after_expression (h : Sited below) {promise : Shape}
    (hfits : a.Fits (.expression promise)) (hleaves : a.Leaves below frames) : Sited frames := by
  cases a with
  | await f child =>
      obtain ⟨hf, above, hchild, hon⟩ := hfits
      obtain rfl := hleaves
      cases hon with
      | expression _ => exact (h.expression hf).expression hchild
      | call _ => exact (h.expression hf).body hchild
  | invoke f call =>
      rcases hleaves with ⟨v, rfl⟩ | ⟨constructed, body, scope, receiver, rfl⟩
      · exact h.handTo _
      · exact ⟨fun _ => ⟨body, [], .root rfl rfl .node⟩, h.expression (hfits constructed)⟩
  | become f | again f =>
      obtain rfl := hleaves
      exact h.expression hfits
  | deliver c =>
      obtain rfl := hleaves
      exact h.handTo c
  | leave | complete v | breakTo label | continueAt label | returnWith v => cases hfits

/-- What a statement, or a body, leaves. -/
private theorem after_statement {root n : Node} {path : Path} (h : Sited below)
    (hruns : RunsAt root path (f :: below)) (hat : root.at? path = some n) {role : Role}
    (hf : f.Plays role) (hfits : a.Fits role) (hkeeps : a.KeepsTo n f)
    (hleaves : a.Leaves below frames) : Sited frames := by
  have hagain {f' : Frame} (hn : n.IsRunBy f'.work) (hsame : f'.SameSite f) :
      RunsAt root path (f' :: below) := by
    refine hruns.replace hsame fun n' hat' => ?_
    rw [hat] at hat'
    cases hat'
    exact hn
  cases a with
  | await f' child =>
      obtain ⟨⟨hn, hsame⟩, hchild⟩ := hkeeps
      obtain rfl := hleaves
      refine ⟨fun hstatement => ?_, fun _ => ⟨root, path, hagain hn hsame⟩, h⟩
      rcases hchild with hexpression | ⟨i, part, hpart, rfl⟩
      · rw [hexpression] at hstatement
        cases hstatement
      · exact ⟨root, .part i :: path, (hagain hn hsame).begin_part hat hpart⟩
  | invoke f' call => cases hkeeps
  | become f' =>
      obtain ⟨d, inner, hd, hinner, rfl⟩ := hkeeps
      obtain rfl := hleaves
      have hopens : f.opensScope = false := by rw [Frame.opensScope, hf.scope, ← hfits.scope]; rfl
      exact ⟨fun _ => ⟨root, d :: path, hruns.pass hopens hd hat hinner⟩, h⟩
  | again f' =>
      obtain rfl := hleaves
      exact ⟨fun _ => ⟨root, path, hagain hkeeps.1 hkeeps.2⟩, h⟩
  | deliver c =>
      obtain rfl := hleaves
      exact h.handTo c
  | leave | complete v =>
      obtain rfl := hleaves
      exact h
  | breakTo label | continueAt label => exact h.suffix hleaves
  | returnWith v =>
      obtain ⟨found, hfound, rfl⟩ := hleaves
      exact (h.suffix hfound).handTo _

/-- A node that counts as a statement and as an expression is one that cannot be run. -/
private theorem unsupported_of_both {role : Role} (hf : f.Plays role) (hrole : role.Holds)
    (hw : f.work.isExpression = true) : ∃ wantsReference, f.work = .node .unsupported wantsReference := by
  have hpermits := hf.permits
  rcases f with ⟨work, value, scope, receiver, labels⟩
  cases hrole with
  | statement =>
      cases work with
      | node n wantsReference =>
          cases n with
          | unsupported => exact ⟨_, rfl⟩
          | _ => first | exact absurd hw Bool.false_ne_true | exact absurd hpermits Bool.false_ne_true
      | _ => first | exact absurd hw Bool.false_ne_true | exact absurd hpermits Bool.false_ne_true
  | body ofProgram =>
      cases work with
      | node n wantsReference => cases n <;> first | exact absurd hw Bool.false_ne_true | exact absurd hpermits Bool.false_ne_true
      | _ => first | exact absurd hw Bool.false_ne_true | exact absurd hpermits Bool.false_ne_true

/-- **A step leaves every statement at a place.** -/
theorem after_action {floor role : Role} (h : Sited (f :: below))
    (htower : Tower floor role (f :: below)) {c : Context} {s heap : Heap}
    (hresume : f.resume c s = (.ok a, heap)) (hleaves : a.Leaves below frames) : Sited frames := by
  have hf := htower.plays
  have hfits : a.Fits role := Frame.resume_fits c hf s a heap hresume
  have hholds (hrole : role.Holds) : Sited frames := by
    rcases hexpression : f.work.isExpression with - | -
    · obtain ⟨root, path, hruns⟩ := h.1 hexpression
      obtain ⟨n, hat, hn⟩ := hruns.exists_node
      exact h.2.after_statement hruns hat hf hfits (Frame.resume_keepsTo c hf hrole hn s a heap hresume)
        hleaves
    · obtain ⟨wantsReference, hwork⟩ := unsupported_of_both hf hrole hexpression
      simp only [Frame.resume, hwork] at hresume
      cases hresume
  cases role with
  | expression promise => exact h.2.after_expression hfits hleaves
  | statement => exact hholds .statement
  | body ofProgram => exact hholds (.body ofProgram)

end Sited

/-- Whatever a well-formed program leads to, every statement has a place. -/
theorem Machine.Reached.sited {here : Machine × Store} (h : Reached here) : Sited here.1.frames := by
  induction h with
  | start hp hs scope receiver =>
      exact Sited.body trivial (Program.opening_plays hp scope receiver)
  | next h hnext ih =>
      cases hnext with
      | host hs => exact ih
      | step fuel hstep =>
          rename_i m m' s s'
          rcases h.sound.1 with hempty | ⟨role, htower⟩
          · rcases m with ⟨frames, completion⟩
            obtain rfl : frames = [] := hempty
            cases hstep
          · rcases m with ⟨- | ⟨f, below⟩, completion⟩
            · cases htower
            · obtain ⟨c, a, heap, hresume, hleaves⟩ := exists_action_of_step rfl hstep
              exact ih.after_action htower hresume hleaves

/-! ### What a `break` leaves -/

/-- A label on a path is followed by other statements that have frames, as `inner` shows; none
of them is under the same label, unless it has no frame more above it. -/
structure Path.Separates (path : Path) (name : String) (inner outer : Path) : Prop where
  path_eq : path = inner ++ .label name :: outer
  separated : ∃ d ∈ inner, d.isPart = true
  innermost : ∀ inner₁ inner₂, inner = inner₁ ++ .label name :: inner₂ → ∀ d ∈ inner₁, d.isPart = false

section

variable {passed path inner outer : Path} {i : Nat} {name : String}

theorem Path.Separates.beyond (h : Path.Separates (passed ++ .part i :: path) name inner outer)
    (hpassed : ∀ d ∈ passed, d.isPart = false) :
    ∃ inner', path = inner' ++ .label name :: outer ∧ .label name ∉ inner' := by
  obtain ⟨d, hd, hpart⟩ := h.separated
  rcases List.append_eq_append_iff.mp h.path_eq with ⟨more, hinner, hrest⟩ | ⟨more, hinner, -⟩
  · cases more with
    | nil => cases hrest
    | cons d' more =>
        obtain ⟨rfl, hpath⟩ := List.cons_eq_cons.mp hrest
        refine ⟨more, hpath, fun hname => ?_⟩
        obtain ⟨inner₁, inner₂, rfl⟩ := List.append_of_mem hname
        have hfree := h.innermost (passed ++ .part i :: inner₁) inner₂ (by rw [hinner]; simp)
        exact absurd (hfree (.part i) (by simp)) (by simp [Descent.isPart])
  · rw [hinner] at hpassed
    exact absurd (hpassed d (List.mem_append_left more hd)) (by rw [hpart]; simp)

theorem Path.not_mem_of_not_separated
    (h : ∀ inner outer, passed ++ .part i :: path = inner ++ .label name :: outer →
      ∀ d ∈ inner, d.isPart = false) : .label name ∉ path := by
  intro hname
  obtain ⟨inner, outer, rfl⟩ := List.append_of_mem hname
  have hfree := h (passed ++ .part i :: inner) outer (by simp)
  exact absurd (hfree (.part i) (by simp)) (by simp [Descent.isPart])

end

/-- A label on a path is that of a statement there. -/
theorem Node.exists_labeled {root n : Node} {name : String} {inner outer : Path}
    (h : root.at? (inner ++ .label name :: outer) = some n) :
    ∃ body, root.at? outer = some (.labeled name body) := by
  induction inner generalizing n with
  | nil =>
      obtain ⟨parent, hparent, hbelow⟩ := Option.bind_eq_some_iff.mp h
      cases parent with
      | labeled l body =>
          by_cases heq : l = name
          · exact ⟨body, by rw [hparent, heq]⟩
          · rw [Node.below?, if_neg heq] at hbelow
            cases hbelow
      | _ => cases hbelow
  | cons d inner ih =>
      obtain ⟨parent, hparent, -⟩ := Option.bind_eq_some_iff.mp h
      exact ih hparent

namespace Machine

variable {run : NestedRun} {fuel : Nat} {m : Machine} {s : Store} {f : Frame} {below : List Frame}

private theorem step_break (run : NestedRun) (fuel : Nat) (s : Store) {label : Option String}
    {wantsReference : Bool} (hframes : m.frames = f :: below) (hwork : f.work = .node (.breakStatement label) wantsReference) :
    step run fuel m s =
      match framesAfterBreak label below with
      | some frames => (.ok (some { m with frames }), s)
      | none => (.error (jumpFailure label "break"), s) := by
  rcases m with ⟨frames, completion⟩
  obtain rfl : frames = f :: below := hframes
  rcases f with ⟨work, value, scope, receiver, labels⟩
  obtain rfl : work = .node (.breakStatement label) wantsReference := hwork
  have hjump : turn run fuel ⟨below, completion⟩ ⟨.node (.breakStatement label) wantsReference, value,
      scope, receiver, labels⟩ s = (breakTo ⟨below, completion⟩ label, s) := rfl
  rcases hfound : framesAfterBreak label below with - | found
  · rw [breakTo, hfound] at hjump
    exact bind_of_error hjump
  · rw [breakTo, hfound] at hjump
    exact bind_of_ok hjump

theorem Reached.plays_statement (hreached : Reached (m, s)) {label : Option String}
    {wantsReference : Bool} (hframes : m.frames = f :: below)
    (hwork : f.work = .node (.breakStatement label) wantsReference) : f.Plays .statement := by
  obtain ⟨role, hplays⟩ := hreached.exists_plays hframes
  have hpermits := hplays.permits
  rw [hwork] at hpermits
  cases role with
  | statement => exact hplays
  | expression promise => cases hpermits
  | body ofProgram => cases wantsReference <;> cases hpermits

/-- **A `break` leaves the innermost statement with its label that has another frame above its
own.**  Every `break` that is run stands at a path in the body of its function or program.
If a statement around it has the label, and one of the statements between the two has a
frame, then the step succeeds: the frame of the innermost such statement is gone, with all
that stands above it, and what it stood on goes on.  If there is none, the step fails, also
where the label stands right above the `break`. -/
theorem labelled_break_leaves_its_statement (hreached : Reached (m, s)) {name : String}
    {wantsReference : Bool} (hframes : m.frames = f :: below)
    (hwork : f.work = .node (.breakStatement (some name)) wantsReference) (run : NestedRun) (fuel : Nat) :
    (∃ root path, RunsAt root path m.frames) ∧
      ∀ root path, RunsAt root path m.frames →
        root.at? path = some (.breakStatement (some name)) ∧
        (∀ inner outer, path.Separates name inner outer →
          (∃ body, root.at? outer = some (.labeled name body)) ∧
            ∃ above target rest passed, below = above ++ target :: rest ∧
              (∀ d ∈ passed, d.isPart = false) ∧
              RunsAt root (passed ++ .label name :: outer) (target :: rest) ∧
              step run fuel m s = (.ok (some { m with frames := rest }), s)) ∧
        ((∀ inner outer, path = inner ++ .label name :: outer → ∀ d ∈ inner, d.isPart = false) →
          step run fuel m s = (.error (.misplaced ("Undefined label '" ++ name ++ "'")), s)) := by
  have hstep := step_break run fuel s hframes hwork
  have hplays : f.Plays .statement := hreached.plays_statement hframes hwork
  have hbare : f.opensScope = false := hplays.scope
  refine ⟨?_, fun root path hruns => ?_⟩
  · have hsited := hreached.sited
    rw [hframes] at hsited ⊢
    exact hsited.1 (by rw [hwork]; rfl)
  · rw [hframes] at hruns
    cases hruns with
    | root hopens _ _ =>
        rw [hbare] at hopens
        cases hopens
    | @part _ g rest passed path i n hbelow hat hpassed hruns _ _ =>
        rw [hwork] at hruns
        cases hruns
        refine ⟨hat, fun inner outer hseparates => ?_, fun hno => ?_⟩
        · obtain ⟨inner', rfl, hinner'⟩ := hseparates.beyond hpassed
          obtain ⟨passed', target, below', hfound, hpassed', htarget⟩ :=
            hbelow.exists_framesDownTo rfl hinner'
          have hlabeled := Node.exists_labeled (hseparates.path_eq ▸ hat)
          obtain ⟨above, habove⟩ := Machine.framesDownTo_suffix hfound
          refine ⟨hlabeled, above, target, below', passed', habove.symm, hpassed', htarget, ?_⟩
          rw [hstep, framesAfterBreak, hfound]
          rfl
        · rw [hstep, framesAfterBreak, hbelow.framesDownTo_of_not_mem (Path.not_mem_of_not_separated hno)]
          rfl

/-- An evaluator of a program of one labelled statement, some steps on. -/
def runningLabelled (body : Node) (steps : Nat) : Evaluator :=
  (Evaluator.run 0 steps ⟨.holding #[], .ofProgram ⟨[.labeled "L" body]⟩ ⟨0⟩ .undefined⟩).2

/-- The statement under the label stands on the program. -/
theorem runningLabelled_runsAt (body : Node) :
    RunsAt (.program [.labeled "L" body]) [.label "L", .part 0]
      [{ Frame.ofNode body false with labels := ["L"] },
        { Frame.opening body ⟨0⟩ .undefined with work := .statements true [] }] := by
  have hroot : RunsAt (.program [.labeled "L" body]) []
      [{ Frame.opening body ⟨0⟩ .undefined with work := .statements true [] }] :=
    .root rfl rfl (.program List.nil_suffix)
  exact (hroot.begin_part rfl rfl).pass (d := .label "L") rfl rfl rfl rfl

/-- `L: break L` does not find its label, which is right above it on the path. -/
theorem break_misses_the_label_above_it :
    let e := runningLabelled (.breakStatement (some "L")) 2
    let root : Node := .program [.labeled "L" (.breakStatement (some "L"))]
    Reached (e.machine, e.store) ∧ RunsAt root [.label "L", .part 0] e.machine.frames ∧
      root.at? [.part 0] = some (.labeled "L" (.breakStatement (some "L"))) ∧
      (e.step 0).1 = .error (.misplaced "Undefined label 'L'") := by
  intro e root
  have hstart : Reached (.ofProgram ⟨[.labeled "L" (.breakStatement (some "L"))]⟩ ⟨0⟩ .undefined,
      .holding #[]) := .start rfl Store.holding_grammatical ⟨0⟩ .undefined
  have hreached : Reached (e.machine, e.store) := .next (.next hstart (.step 0 rfl)) (.step 0 rfl)
  exact ⟨hreached, runningLabelled_runsAt _, rfl, rfl⟩

/-- `L: { break L; }` leaves the block. -/
theorem labelled_break_leaves_its_statement_block :
    let e := runningLabelled (.block [.breakStatement (some "L")]) 3
    let root : Node := .program [.labeled "L" (.block [.breakStatement (some "L")])]
    let path : Path := [.part 0, .label "L", .part 0]
    RunsAt root path e.machine.frames ∧ path.Separates "L" [.part 0] [.part 0] ∧
      ∃ above target rest passed, e.machine.frames.tail = above ++ target :: rest ∧
        RunsAt root (passed ++ [.label "L", .part 0]) (target :: rest) ∧
        step (runNested 0) 0 e.machine e.store = (.ok (some { e.machine with frames := rest }), e.store) := by
  intro e root path
  have hstart : Reached (.ofProgram ⟨[.labeled "L" (.block [.breakStatement (some "L")])]⟩ ⟨0⟩ .undefined,
      .holding #[]) := .start rfl Store.holding_grammatical ⟨0⟩ .undefined
  have hreached : Reached (e.machine, e.store) :=
    .next (.next (.next hstart (.step 0 rfl)) (.step 0 rfl)) (.step 0 rfl)
  have hblock : RunsAt root [.label "L", .part 0]
      ({ Frame.ofNode (.block [.breakStatement (some "L")]) false with
          work := .statements false [], labels := ["L"] } :: e.machine.frames.drop 2) :=
    (runningLabelled_runsAt (.block [.breakStatement (some "L")])).replace ⟨rfl, rfl⟩
      fun n hn => by cases hn; exact .block List.nil_suffix
  have hruns : RunsAt root path e.machine.frames := hblock.begin_part rfl rfl
  have hseparates : path.Separates "L" [.part 0] [.part 0] := by
    refine ⟨rfl, ⟨_, List.mem_cons_self, rfl⟩, fun inner₁ inner₂ h => ?_⟩
    rcases inner₁ with - | ⟨d, - | ⟨d', inner₁⟩⟩ <;> cases h
  obtain ⟨-, habove⟩ :=
    labelled_break_leaves_its_statement hreached (f := .ofNode (.breakStatement (some "L")) false) rfl rfl
      (runNested 0) 0
  obtain ⟨-, hleaves, -⟩ := habove root path hruns
  obtain ⟨-, above, target, rest, passed, hframes, -, htarget, hstep⟩ := hleaves _ _ hseparates
  exact ⟨hruns, hseparates, above, target, rest, passed, hframes, htarget, hstep⟩

end Machine

end Stepwise
