/-
Statements where they stand.

A statement has a place in the body of a function or a program: the path that leads down to
it.  Most statements have a frame of their own above the frame of the statement around
them; what stands under a label, and the branch of an `if`, takes the frame over instead.
A path tells the two apart.

`RunsAt` says that a stack runs the statement at the end of a path: from the frame of the
body up, each frame runs a statement on the path, and has the labels that were passed
since the frame below.  Whatever a statement does, the frames that it leaves run on along
such a path; `resume_keepsTo` says so for one frame.
-/
import Stepwise.Proofs.Towers

namespace Stepwise

/-! ### Paths in a tree -/

/-- A step from a statement down to a statement in it. -/
inductive Descent where
  /-- To the statement under a label. -/
  | label (name : String)
  /-- To a branch of an `if`. -/
  | branch (alternate : Bool)
  /-- To a statement that has a frame above. -/
  | part (index : Nat)
deriving DecidableEq

namespace Descent

def isPart : Descent → Bool
  | part _ => true
  | _ => false

def label? : Descent → Option String
  | label name => some name
  | _ => none

end Descent

/-- A path, with the last step first. -/
abbrev Path := List Descent

namespace Node

/-- The statements in a statement that have frames above its own. -/
def parts : Node → List Node
  | .program body | .block body => body
  | .variableDeclaration _ declarators => declarators
  | .forStatement init _ _ body => body :: init.toList
  | .forInStatement _ _ body | .whileStatement _ body | .doWhileStatement _ body => [body]
  | _ => []

def below? : Node → Descent → Option Node
  | .labeled l body, .label name => if l = name then some body else none
  | .ifStatement _ consequent _, .branch false => some consequent
  | .ifStatement _ _ alternate, .branch true => alternate
  | n, .part i => n.parts[i]?
  | _, _ => none

theorem below?_part (n : Node) (i : Nat) : n.below? (.part i) = n.parts[i]? := by
  cases n <;> rfl

/-- The statement at the end of a path. -/
def at? (root : Node) : Path → Option Node
  | [] => some root
  | d :: path => (root.at? path).bind fun n => n.below? d

end Node

/-- The labels that the end of a path has passed, the outermost first. -/
def Path.labels (path : Path) : List String := (path.filterMap Descent.label?).reverse

theorem Path.mem_labels {path : Path} {name : String} : name ∈ path.labels ↔ .label name ∈ path := by
  simp only [labels, List.mem_reverse, List.mem_filterMap]
  constructor
  · rintro ⟨d, hd, hname⟩
    cases d <;> cases hname
    exact hd
  · exact fun h => ⟨_, h, rfl⟩

theorem Path.labels_cons (d : Descent) (path : Path) :
    Path.labels (d :: path) = path.labels ++ d.label?.toList := by
  cases d <;> simp [labels, List.filterMap_cons, Descent.label?]

/-! ### Frames of statements -/

/-- What may be left to do of a statement that is under way. -/
inductive Node.IsRunBy : Node → Work → Prop
  | node {n : Node} : IsRunBy n (.node n false)
  | block {body rest : List Node} (h : rest <:+ body) : IsRunBy (.block body) (.statements false rest)
  | program {body rest : List Node} (h : rest <:+ body) : IsRunBy (.program body) (.statements true rest)
  | expression {e : Node} : IsRunBy (.expressionStatement e) .expression
  | declarators {kind : VariableKind} {all rest : List Node} (h : rest <:+ all) :
      IsRunBy (.variableDeclaration kind all) (.declarators rest)
  | initializer {name : String} {e : Node} :
      IsRunBy (.variableDeclarator name (some e)) (.initializer name)
  | branch {test consequent : Node} {alternate : Option Node} :
      IsRunBy (.ifStatement test consequent alternate) (.branch consequent alternate)
  | forTest {init : Option Node} {loop : ForLoop} :
      IsRunBy (.forStatement init loop.test loop.update loop.body) (.forTest loop)
  | forBody {init : Option Node} {loop : ForLoop} :
      IsRunBy (.forStatement init loop.test loop.update loop.body) (.forBody loop)
  | forUpdate {init : Option Node} {loop : ForLoop} :
      IsRunBy (.forStatement init loop.test loop.update loop.body) (.forUpdate loop)
  | whileNext {test body : Node} : IsRunBy (.whileStatement test body) (.whileNext test body)
  | whileTest {test body : Node} : IsRunBy (.whileStatement test body) (.whileTest test body)
  | doBody {test body : Node} : IsRunBy (.doWhileStatement test body) (.doBody body test)
  | doTest {test body : Node} : IsRunBy (.doWhileStatement test body) (.doTest body test)
  | forInTarget {target object body : Node} :
      IsRunBy (.forInStatement target object body) (.forInTarget object body)
  | forInObject {target object body : Node} {place : Reference} :
      IsRunBy (.forInStatement target object body) (.forInObject place body)
  | forInNext {target object body : Node} {names : Enumeration} :
      IsRunBy (.forInStatement target object body) (.forInNext names body)
  | returnValue {argument : Option Node} : IsRunBy (.returnStatement argument) .returnValue
  | throwValue {e : Node} : IsRunBy (.throwStatement e) .throwValue

/-- The stack runs the statement at the end of a path from the body of a function or a
program; the frames of the caller lie below that of the body. -/
inductive RunsAt (root : Node) : Path → List Frame → Prop
  | root {f : Frame} {below : List Frame} (hopens : f.opensScope = true) (hlabels : f.labels = [])
      (hruns : root.IsRunBy f.work) : RunsAt root [] (f :: below)
  | part {f g : Frame} {below : List Frame} {passed path : Path} {i : Nat} {n : Node}
      (hbelow : RunsAt root path (g :: below)) (hat : root.at? (passed ++ .part i :: path) = some n)
      (hpassed : ∀ d ∈ passed, d.isPart = false) (hruns : n.IsRunBy f.work)
      (hopens : f.opensScope = false) (hlabels : f.labels = Path.labels passed) :
      RunsAt root (passed ++ .part i :: path) (f :: g :: below)

/-! ### What a frame leaves -/

/-- A frame that has run the statement `n` runs it still or is gone; what begins above it runs
a part of it or is an expression, and what takes its place runs what stands under a label
or a branch. -/
def Action.KeepsTo (n : Node) (f : Frame) : Action → Prop
  | .await f' child => (n.IsRunBy f'.work ∧ f'.scope = f.scope ∧ f'.labels = f.labels) ∧
      (child.work.isExpression = true ∨ ∃ i part, n.below? (.part i) = some part ∧ child = .ofNode part false)
  | .again f' => n.IsRunBy f'.work ∧ f'.scope = f.scope ∧ f'.labels = f.labels
  | .become f' => ∃ d inner, d.isPart = false ∧ n.below? d = some inner ∧
      f' = { Frame.ofNode inner false with labels := f.labels ++ d.label?.toList }
  | .invoke _ _ => False
  | _ => True

namespace Frame

variable {f g : Frame} {n : Node} {w : Work}

/-- Two frames that stand for the same statement. -/
def SameSite (f g : Frame) : Prop := f.scope = g.scope ∧ f.labels = g.labels

theorem awaitExpression_keepsTo {e : Node} (hsame : g.SameSite f) (hw : n.IsRunBy w)
    (he : e.isExpression = true) : (g.awaitValue w e).KeepsTo n f :=
  ⟨⟨hw, hsame⟩, .inl he⟩

theorem awaitPart_keepsTo {part : Node} (hsame : g.SameSite f) (hw : n.IsRunBy w) (i : Nat)
    (hpart : n.parts[i]? = some part) : (g.awaitValue w part).KeepsTo n f :=
  ⟨⟨hw, hsame⟩, .inr ⟨i, part, (n.below?_part i).trans hpart, rfl⟩⟩

/-- The next one in a list of statements. -/
private theorem awaitNext_keepsTo {all rest : List Node} {part : Node} (hsame : g.SameSite f)
    (hw : n.IsRunBy w) (hparts : n.parts = all) (h : part :: rest <:+ all) :
    (g.awaitValue w part).KeepsTo n f := by
  obtain ⟨before, rfl⟩ := h
  refine awaitPart_keepsTo hsame hw before.length ?_
  rw [hparts, List.getElem?_append_right (Nat.le_refl _), Nat.sub_self]
  rfl

private theorem nextStatement_keepsTo {ofProgram : Bool} {all rest : List Node}
    (hruns : ∀ rest, rest <:+ all → n.IsRunBy (.statements ofProgram rest)) (hparts : n.parts = all)
    (h : rest <:+ all) : (f.nextStatement ofProgram rest).KeepsTo n f := by
  cases rest with
  | nil => trivial
  | cons part rest =>
      exact awaitNext_keepsTo ⟨rfl, rfl⟩ (hruns rest ((List.suffix_cons part rest).trans h)) hparts h

private theorem nextDeclarator_keepsTo {kind : VariableKind} {all rest : List Node} (h : rest <:+ all) :
    (f.nextDeclarator rest).KeepsTo (.variableDeclaration kind all) f := by
  cases rest with
  | nil => trivial
  | cons part rest =>
      exact awaitNext_keepsTo ⟨rfl, rfl⟩ (.declarators ((List.suffix_cons part rest).trans h)) rfl h

private theorem awaitIfAny_keepsTo {e : Option Node} (hsame : g.SameSite f) (hw : n.IsRunBy w)
    (he : isExpressionIfAny e = true) : (g.awaitIfAny w e).KeepsTo n f := by
  cases e with
  | none => exact ⟨hw, hsame⟩
  | some e => exact awaitExpression_keepsTo hsame hw he

private theorem awaitInit_keepsTo {init : Option Node} {test update : Option Node} {body : Node}
    (hsame : g.SameSite f) (hinit : isInitIfAny init = true) :
    (g.awaitIfAny (.forTest ⟨test, update, body⟩) init).KeepsTo (.forStatement init test update body) f := by
  have hw (init : Option Node) := @Node.IsRunBy.forTest init ⟨test, update, body⟩
  cases init with
  | none => exact ⟨hw none, hsame⟩
  | some node =>
      cases node with
      | variableDeclaration kind declarators => exact awaitPart_keepsTo hsame (hw _) 1 rfl
      | _ => exact awaitExpression_keepsTo hsame (hw _) hinit

private theorem runBody_keepsTo {body : Node} (hsame : g.SameSite f) (hw : n.IsRunBy w)
    (hbody : n.parts[0]? = some body) (holds : Bool) : (g.runBody holds w body).KeepsTo n f := by
  cases holds with
  | false => trivial
  | true => exact awaitPart_keepsTo hsame hw 0 hbody

private theorem runBranch_keepsTo {test consequent : Node} {alternate : Option Node} (holds : Bool) :
    (f.runBranch (if holds then some consequent else alternate)).KeepsTo
      (.ifStatement test consequent alternate) f := by
  have hlabels : f.labels = f.labels ++ [] := f.labels.append_nil.symm
  cases holds with
  | true => exact ⟨.branch false, consequent, rfl, rfl, congrArg (Frame.mk _ _ _ _) hlabels⟩
  | false =>
      cases alternate with
      | none => trivial
      | some alternate => exact ⟨.branch true, alternate, rfl, rfl, congrArg (Frame.mk _ _ _ _) hlabels⟩

private theorem nextName_keepsTo {body : Node} (c : Context) (names : Enumeration)
    (hsame : g.SameSite f) (hw : ∀ names, n.IsRunBy (.forInNext names body))
    (hbody : n.parts[0]? = some body) :
    Edit.Yields (Action.KeepsTo n f) (g.nextName c names body) := by
  refine .bind fun next => ?_
  split
  · exact .pure trivial
  · exact .bind fun _ => .pure (awaitPart_keepsTo hsame (hw _) 0 hbody)

/-- What a statement does when it begins. -/
private theorem begin_keepsTo (c : Context) (hn : n.isStatement = true) :
    Edit.Yields (Action.KeepsTo n f) (f.begin c false n) := by
  have hself : f.SameSite f := ⟨rfl, rfl⟩
  cases n with
  | block body =>
      exact .pure (nextStatement_keepsTo (fun _ h => .block h) rfl (List.suffix_refl body))
  | expressionStatement e => exact .pure (awaitExpression_keepsTo hself .expression hn)
  | variableDeclaration kind declarators =>
      exact .pure (nextDeclarator_keepsTo (List.suffix_refl declarators))
  | variableDeclarator name init =>
      cases init with
      | none => exact .pure trivial
      | some e => exact .pure (awaitExpression_keepsTo hself .initializer hn)
  | functionDeclaration code | empty => exact .pure trivial
  | breakStatement label | continueStatement label => exact .pure trivial
  | unsupported => exact .throw _
  | ifStatement test consequent alternate =>
      simp only [Node.isStatement, Bool.and_eq_true] at hn
      exact .pure (awaitExpression_keepsTo hself .branch hn.1)
  | forStatement init test update body =>
      simp only [Node.isStatement, Bool.and_eq_true] at hn
      exact .pure (awaitInit_keepsTo hself hn.1)
  | forInStatement target object body =>
      simp only [Node.isStatement, Bool.and_eq_true, Bool.or_eq_true] at hn
      obtain ⟨htarget, hobject, -⟩ := hn
      cases hd : declaredTarget? target with
      | none =>
          rw [hd, Option.isSome_none] at htarget
          simp only [begin, hd]
          exact .pure ⟨⟨.forInTarget, hself⟩, .inl (htarget.resolve_right Bool.false_ne_true)⟩
      | some name =>
          simp only [begin, hd]
          exact .pure (awaitExpression_keepsTo hself .forInObject hobject)
  | whileStatement test body =>
      simp only [Node.isStatement, Bool.and_eq_true] at hn
      exact .pure (awaitExpression_keepsTo hself .whileTest hn.1)
  | doWhileStatement test body => exact .pure (awaitPart_keepsTo hself .doBody 0 rfl)
  | returnStatement argument =>
      cases argument with
      | none => exact .pure trivial
      | some e => exact .pure (awaitExpression_keepsTo hself .returnValue hn)
  | throwStatement e => exact .pure (awaitExpression_keepsTo hself .throwValue hn)
  | labeled label body =>
      refine .pure ⟨.label label, body, rfl, ?_, rfl⟩
      simp only [Node.below?, if_true]
  | _ => cases hn

/-- What a statement that is under way does next. -/
private theorem resume_statement_keepsTo (c : Context) (hf : f.Plays .statement)
    (hruns : n.IsRunBy f.work) : Edit.Yields (Action.KeepsTo n f) (f.resume c) := by
  have hself : f.SameSite f := ⟨rfl, rfl⟩
  have htaken : f.taken.SameSite f := ⟨rfl, rfl⟩
  have hw : f.work.isStatement = true := hf.permits
  rcases f with ⟨work, value, scope, receiver, labels⟩
  cases hruns with
  | node =>
      simp only [Work.isStatement, Bool.and_eq_true] at hw
      exact begin_keepsTo c hw.1
  | block h => exact .pure (nextStatement_keepsTo (fun _ h => .block h) rfl h)
  | program h => cases hw
  | expression | returnValue => exact .pure trivial
  | throwValue => exact .query fun s x hx => by cases hx
  | declarators h => exact .pure (nextDeclarator_keepsTo h)
  | initializer => exact .bind fun _ => .pure trivial
  | branch => exact .pure (runBranch_keepsTo _)
  | forTest =>
      simp only [Work.isStatement, ForLoop.isGrammatical, Bool.and_eq_true] at hw
      exact .pure (awaitIfAny_keepsTo htaken .forBody hw.1)
  | forBody =>
      refine .pure (runBody_keepsTo ?_ .forUpdate rfl _)
      split
      · exact htaken
      · exact hself
  | forUpdate =>
      simp only [Work.isStatement, ForLoop.isGrammatical, Bool.and_eq_true] at hw
      exact .pure (awaitIfAny_keepsTo hself .forTest hw.2.1)
  | whileNext =>
      simp only [Work.isStatement, Bool.and_eq_true] at hw
      exact .pure (awaitExpression_keepsTo hself .whileTest hw.1)
  | whileTest => exact .pure (runBody_keepsTo htaken .whileNext rfl _)
  | doBody =>
      simp only [Work.isStatement, Bool.and_eq_true] at hw
      exact .pure (awaitExpression_keepsTo hself .doTest hw.1)
  | doTest => exact .pure (runBody_keepsTo htaken .doBody rfl _)
  | forInTarget =>
      simp only [Work.isStatement, Bool.and_eq_true] at hw
      exact .bind fun place => .pure (awaitExpression_keepsTo htaken .forInObject hw.1)
  | forInObject =>
      exact .bind fun names => nextName_keepsTo c names htaken (fun _ => .forInNext) rfl
  | forInNext => exact nextName_keepsTo c _ hself (fun _ => .forInNext) rfl

/-- What the body of a function or a program does. -/
private theorem resume_body_keepsTo (c : Context) {ofProgram : Bool} (hf : f.Plays (.body ofProgram))
    (hruns : n.IsRunBy f.work) : Edit.Yields (Action.KeepsTo n f) (f.resume c) := by
  have hw : f.work.isBody ofProgram = true := hf.permits
  rcases f with ⟨work, value, scope, receiver, labels⟩
  cases hruns with
  | node =>
      cases n with
      | block body =>
          exact .pure (nextStatement_keepsTo (fun _ h => .block h) rfl (List.suffix_refl body))
      | program body =>
          exact .pure (nextStatement_keepsTo (fun _ h => .program h) rfl (List.suffix_refl body))
      | _ => cases hw
  | block h => exact .pure (nextStatement_keepsTo (fun _ h => .block h) rfl h)
  | program h => exact .pure (nextStatement_keepsTo (fun _ h => .program h) rfl h)
  | _ => cases hw

/-- **What the frame of a statement leaves is on the way down from that statement.** -/
theorem resume_keepsTo (c : Context) {role : Role} (hf : f.Plays role) (hrole : role.Holds)
    (hruns : n.IsRunBy f.work) : Edit.Yields (Action.KeepsTo n f) (f.resume c) := by
  cases hrole with
  | statement => exact resume_statement_keepsTo c hf hruns
  | body ofProgram => exact resume_body_keepsTo c hf hruns

end Frame

end Stepwise
