/-
Initializers of variables.

`var x = e` does not write to the scope that it stands in.  It looks for the name once more,
when `e` has come to a value, and writes where the name is then.  Hoisting has bound the name
in the scope before the body began, and so that is the scope, as long as nothing has taken the
name away again.

What hoisting has bound is followed along the frames.  A frame declares what is still to come
of its statement (`Work.declared`), and what it hands on to other frames is part of that; the
scope in which that has to be bound is the one that opens at the frame or next below it.
`BoundIn` is the invariant.  A name that was bound and is not any more has been lost in some
step of the run, and then the initializer of the variable misses it.
-/
import Stepwise.Proofs.Compound
import Stepwise.Proofs.Hoisting
import Stepwise.Proofs.Labels
import Stepwise.Proofs.Lexical
import Stepwise.Proofs.Permanence

namespace Stepwise

/-! ### What is still to come declares -/

namespace Work

/-- What is declared by what is left to do. -/
def declared : Work → List Declaration
  | .node (.program body) _ => declarationsOf body
  | .node n _ => n.declarations
  | .statements _ rest => declarationsOf rest
  | .declarators rest => declaredVariables rest
  | .branch consequent alternate => consequent.declarations ++ declarationsOfPart alternate
  | .forTest loop | .forBody loop | .forUpdate loop => loop.body.declarations
  | .whileNext _ body | .whileTest _ body | .doBody body _ | .doTest body _ => body.declarations
  | .forInTarget _ body | .forInObject _ body | .forInNext _ body => body.declarations
  | _ => []

/-- The variable of a declarator that is under way. -/
def declarator? : Work → Option String
  | .node (.variableDeclarator name _) _ => some name
  | .initializer name => some name
  | _ => none

/-- Is it a declaration of variables under way? -/
def isDeclaration : Work → Bool
  | .declarators _ => true
  | _ => false

theorem declared_of_isExpression {e : Node} (h : e.isExpression = true) (wantsReference : Bool) :
    (Work.node e wantsReference).declared = [] := by
  cases e <;> first | rfl | cases h

theorem declared_of_isStatement {n : Node} (h : n.isStatement = true) :
    (Work.node n false).declared = n.declarations := by
  cases n <;> first | rfl | cases h

end Work

theorem Work.declarator?_of_isExpression {w : Work} (h : w.isExpression = true) :
    w.declarator? = none := by
  cases w with
  | node e wantsReference => cases e <;> first | rfl | cases h
  | _ => first | rfl | cases h

/-- What an action makes of a frame declares no more than the frame did, and a declarator goes on
as one.  Above a variable declaration there is one of its declarators. -/
def Action.Within (f : Frame) : Action → Prop
  | .await f' child =>
    (f'.scope = f.scope ∧ f'.work.declared ⊆ f.work.declared ∧
      (f.work.declarator? = none ∨ f'.work.declarator? = f.work.declarator?)) ∧
    child.scope = none ∧ child.work.declared ⊆ f.work.declared ∧
      ∀ rest, f'.work = .declarators rest →
        ∃ name, child.work.declarator? = some name ∧ .variable name ∈ f.work.declared
  | .become f' | .again f' =>
    f'.scope = f.scope ∧ f'.work.declared ⊆ f.work.declared ∧ f.work.declarator? = none
  | .invoke f' _ => f'.scope = f.scope ∧ f.work.declarator? = none
  | _ => True

namespace Frame

variable {f g : Frame} {w : Work}

theorem await_within {child : Node} {wantsReference : Bool} (hscope : g.scope = f.scope)
    (hw : w.declared ⊆ f.work.declared)
    (hdeclarator : f.work.declarator? = none ∨ w.declarator? = f.work.declarator?)
    (hplain : w.isDeclaration = false)
    (hchild : (Work.node child wantsReference).declared ⊆ f.work.declared) :
    (g.await w child wantsReference).Within f :=
  ⟨⟨hscope, hw, hdeclarator⟩, rfl, hchild, fun rest (h : w = _) => by
    rw [h] at hplain
    cases hplain⟩

/-- An expression declares nothing. -/
theorem awaitExpression_within {e : Node} {wantsReference : Bool} (hscope : g.scope = f.scope)
    (hw : w.declared ⊆ f.work.declared)
    (hdeclarator : f.work.declarator? = none ∨ w.declarator? = f.work.declarator?)
    (hplain : w.isDeclaration = false) (he : e.isExpression = true) :
    (g.await w e wantsReference).Within f := by
  refine await_within hscope hw hdeclarator hplain ?_
  rw [Work.declared_of_isExpression he]
  exact List.nil_subset _

/-- What an expression goes on with declares nothing either. -/
theorem awaitOperand_within {e : Node} {wantsReference : Bool} (hscope : g.scope = f.scope)
    (hw : w.declared = []) (hnone : f.work.declarator? = none)
    (hplain : w.isDeclaration = false) (he : e.isExpression = true) :
    (g.await w e wantsReference).Within f := by
  refine awaitExpression_within hscope ?_ (.inl hnone) hplain he
  rw [hw]
  exact List.nil_subset _

theorem become_within {n : Node} {labels : List String} (hscope : f.scope = none)
    (hnone : f.work.declarator? = none) (hn : (Work.node n false).declared ⊆ f.work.declared) :
    (Action.become { ofNode n false with labels }).Within f :=
  ⟨hscope.symm, hn, hnone⟩

/-! ### Expressions -/

private theorem nextElement_within (hscope : g.scope = f.scope) (hnone : f.work.declarator? = none)
    (array : ObjectId) : ∀ (elements : List (Option Node)) (index : Nat), areElements elements = true →
      Edit.Yields (Action.Within f) (g.nextElement array index elements) := by
  intro elements
  induction elements with
  | nil => intro index _; exact .bind fun _ => .pure trivial
  | cons element rest ih =>
      intro index h
      simp only [areElements, Bool.and_eq_true] at h
      cases element with
      | none => exact ih (index + 1) h.2
      | some e => exact .pure (awaitOperand_within hscope rfl hnone rfl h.1)

private theorem nextEntry_within (hscope : g.scope = f.scope) (hnone : f.work.declarator? = none)
    (object : ObjectId) (entries : List (Entry Node)) (h : areEntries entries = true) :
    Edit.Yields (Action.Within f) (g.nextEntry object entries) := by
  cases entries with
  | nil => exact .pure trivial
  | cons entry rest =>
      obtain ⟨kind, computed, key, value⟩ := entry
      simp only [areEntries, Bool.and_eq_true] at h
      exact .bind fun key => .pure (awaitOperand_within hscope rfl hnone rfl h.1)

private theorem nextInSequence_within (hscope : g.scope = f.scope) (hnone : f.work.declarator? = none)
    (expressions : List Node) (h : areExpressions expressions = true) :
    (g.nextInSequence expressions).Within f := by
  cases expressions with
  | nil => trivial
  | cons e rest =>
      simp only [areExpressions, Bool.and_eq_true] at h
      exact awaitOperand_within hscope rfl hnone rfl h.1

private theorem nextArgument_within (hscope : g.scope = f.scope) (hnone : f.work.declarator? = none)
    (call : PendingCall) (arguments : List Node) (h : areExpressions arguments = true) :
    (g.nextArgument call arguments).Within f := by
  cases arguments with
  | nil => exact ⟨hscope, hnone⟩
  | cons e rest =>
      simp only [areExpressions, Bool.and_eq_true] at h
      exact awaitOperand_within hscope rfl hnone rfl h.1

private theorem begin_expression_within (c : Context) (e : Node) (wantsReference : Bool)
    (he : e.isExpression = true) (hnone : f.work.declarator? = none) :
    Edit.Yields (Action.Within f) (f.begin c wantsReference e) := by
  have hawait {w : Work} {child : Node} (wants : Bool) (hw : w.declared = [])
      (hplain : w.isDeclaration = false) (hchild : child.isExpression = true) :
      Edit.Yields (Action.Within f) (Pure.pure (f.await w child wants) : Edit Action) :=
    .pure (awaitOperand_within rfl hw hnone hplain hchild)
  cases e with
  | identifier name =>
      cases wantsReference with
      | true => exact .pure trivial
      | false => exact .bind fun v => .pure trivial
  | literal value isRegex => exact .bind fun v => .pure trivial
  | thisValue => exact .pure trivial
  | functionExpression code => exact .bind fun v => .pure trivial
  | unsupported => exact .throw _
  | arrayLiteral elements => exact .bind fun array => nextElement_within rfl hnone array elements 0 he
  | objectLiteral entries => exact .bind fun object => nextEntry_within rfl hnone object entries he
  | binary op left right | logical op left right | assignment op left right =>
      simp only [Node.isExpression, Bool.and_eq_true] at he
      exact hawait _ rfl rfl he.1
  | update op leading target | unary op target => exact hawait _ rfl rfl he
  | conditional test consequent alternate | member computed test property =>
      simp only [Node.isExpression, Bool.and_eq_true] at he
      exact hawait _ rfl rfl he.1
  | call callee arguments | construct callee arguments =>
      simp only [Node.isExpression, Bool.and_eq_true] at he
      exact hawait _ rfl rfl he.1
  | sequence expressions => exact .pure (nextInSequence_within rfl hnone expressions he)
  | _ => cases he

private theorem resume_expression_within (c : Context) {promise : Shape}
    (hf : f.Plays (.expression promise)) : Edit.Yields (Action.Within f) (f.resume c) := by
  have hpermits := hf.permits
  simp only [Role.permits, Bool.and_eq_true] at hpermits
  obtain ⟨hw, -⟩ := hpermits
  have hnone := Work.declarator?_of_isExpression hw
  have hscope : f.scope = none := Option.not_isSome_iff_eq_none.mp (by rw [hf.scope]; exact Bool.false_ne_true)
  have htaken : f.taken.scope = f.scope := rfl
  rcases f with ⟨work, value, scope, receiver, labels⟩
  cases work with
  | node e wantsReference => exact begin_expression_within c e wantsReference hw hnone
  | element array index rest => exact .bind fun _ => nextElement_within htaken hnone array rest _ hw
  | entry object key rest => exact .bind fun _ => nextEntry_within htaken hnone object rest hw
  | left op right => exact .pure (awaitOperand_within rfl rfl hnone rfl hw)
  | logicalLeft op right =>
      refine .bind fun decided => ?_
      cases decided with
      | true => exact .pure trivial
      | false => exact .pure (awaitOperand_within rfl rfl hnone rfl hw)
  | assignTarget op value =>
      exact .bind fun target => .bind fun current => .pure (awaitOperand_within rfl rfl hnone rfl hw)
  | right | operand => exact .bind fun v => .pure trivial
  | assignValue | update => exact .bind fun _ => .bind fun _ => .pure trivial
  | choice consequent alternate =>
      simp only [Work.isExpression, Bool.and_eq_true] at hw
      refine .pure (become_within hscope hnone ?_)
      rw [Work.declared_of_isExpression (by split <;> simp only [hw])]
      exact List.nil_subset _
  | memberObject computed property wantsReference =>
      cases computed with
      | true => exact .pure (awaitOperand_within rfl rfl hnone rfl hw)
      | false => exact .bind fun key => .bind fun c => .pure trivial
  | memberKey base wantsReference => exact .bind fun key => .bind fun c => .pure trivial
  | sequence rest => exact .pure (nextInSequence_within rfl hnone rest hw)
  | callee constructs arguments =>
      exact .bind fun call => .pure (nextArgument_within htaken hnone call arguments hw)
  | argument call rest => exact .pure (nextArgument_within htaken hnone _ rest hw)
  | logicalRight | running => exact .pure trivial
  | _ => cases hw

/-! ### Statements -/

/-- A statement in a statement declares what that declares. -/
private theorem awaitPart_within {n : Node} (hscope : g.scope = f.scope)
    (hw : w.declared ⊆ f.work.declared) (hnone : f.work.declarator? = none)
    (hplain : w.isDeclaration = false) (hn : n.isStatement = true)
    (hchild : n.declarations ⊆ f.work.declared) : (g.await w n false).Within f := by
  refine await_within hscope hw (.inl hnone) hplain ?_
  rw [Work.declared_of_isStatement hn]
  exact hchild

private theorem nextStatement_within (ofProgram : Bool) (hnone : f.work.declarator? = none)
    (body : List Node) (h : areStatements body = true) (hbody : declarationsOf body ⊆ f.work.declared) :
    (f.nextStatement ofProgram body).Within f := by
  cases body with
  | nil => trivial
  | cons n rest =>
      simp only [areStatements, Bool.and_eq_true] at h
      obtain ⟨hn, hrest⟩ := List.append_subset.mp hbody
      exact awaitPart_within rfl hrest hnone rfl h.1 hn

/-- Above a variable declaration begins its next declarator. -/
private theorem nextDeclarator_within (hnone : f.work.declarator? = none) (declarators : List Node)
    (h : areDeclarators declarators = true) (hall : declaredVariables declarators ⊆ f.work.declared) :
    (f.nextDeclarator declarators).Within f := by
  cases declarators with
  | nil => trivial
  | cons n rest =>
      cases n with
      | variableDeclarator name init =>
          obtain ⟨hname, hrest⟩ := List.cons_subset.mp hall
          exact ⟨⟨rfl, hrest, .inl hnone⟩, rfl, List.nil_subset _, fun rest' _ => ⟨name, rfl, hname⟩⟩
      | _ => cases h

private theorem awaitIfAny_within {child : Option Node} (hscope : g.scope = f.scope)
    (hw : w.declared ⊆ f.work.declared) (hnone : f.work.declarator? = none)
    (hplain : w.isDeclaration = false) (hchild : isExpressionIfAny child = true) :
    (g.awaitIfAny w child).Within f := by
  cases child with
  | none => exact ⟨hscope, hw, hnone⟩
  | some e => exact awaitExpression_within hscope hw (.inl hnone) hplain hchild

private theorem awaitInit_within {init : Option Node} (hscope : g.scope = f.scope)
    (hw : w.declared ⊆ f.work.declared) (hnone : f.work.declarator? = none)
    (hplain : w.isDeclaration = false) (hinit : isInitIfAny init = true)
    (hall : declarationsOfPart init ⊆ f.work.declared) : (g.awaitIfAny w init).Within f := by
  cases init with
  | none => exact ⟨hscope, hw, hnone⟩
  | some n =>
      cases n with
      | variableDeclaration kind declarators => exact awaitPart_within hscope hw hnone hplain hinit hall
      | _ => exact awaitIfAny_within hscope hw hnone hplain hinit

private theorem runBody_within {body : Node} (hscope : g.scope = f.scope)
    (hw : w.declared ⊆ f.work.declared) (hnone : f.work.declarator? = none)
    (hplain : w.isDeclaration = false) (hbody : body.isStatement = true)
    (hall : body.declarations ⊆ f.work.declared) (holds : Bool) : (g.runBody holds w body).Within f := by
  cases holds with
  | false => trivial
  | true => exact awaitPart_within hscope hw hnone hplain hbody hall

private theorem nextName_within (c : Context) {body : Node} (hscope : g.scope = f.scope)
    (hnone : f.work.declarator? = none) (hbody : body.isStatement = true)
    (hall : body.declarations ⊆ f.work.declared) (names : Enumeration) :
    Edit.Yields (Action.Within f) (g.nextName c names body) := by
  refine .bind fun next => ?_
  split
  · exact .pure trivial
  · exact .bind fun _ => .pure (awaitPart_within hscope hall hnone rfl hbody hall)

private theorem begin_statement_within (c : Context) (n : Node) (hn : n.isStatement = true)
    (hwork : f.work = .node n false) (hscope : f.scope = none) :
    Edit.Yields (Action.Within f) (f.begin c false n) := by
  have hdeclared : f.work.declared = n.declarations := by
    rw [hwork, Work.declared_of_isStatement hn]
  have hexpression {w : Work} {e : Node} (wants : Bool) (hw : w.declared ⊆ n.declarations)
      (hdeclarator : f.work.declarator? = none ∨ w.declarator? = f.work.declarator?)
      (hplain : w.isDeclaration = false) (he : e.isExpression = true) :
      Edit.Yields (Action.Within f) (Pure.pure (f.await w e wants) : Edit Action) :=
    .pure (awaitExpression_within rfl (hdeclared ▸ hw) hdeclarator hplain he)
  cases n with
  | block body =>
      exact .pure (nextStatement_within false (by rw [hwork]; rfl) body hn (hdeclared ▸ List.Subset.refl _))
  | expressionStatement e => exact hexpression _ (List.nil_subset _) (.inl (by rw [hwork]; rfl)) rfl hn
  | variableDeclaration kind declarators =>
      exact .pure (nextDeclarator_within (by rw [hwork]; rfl) declarators hn (hdeclared ▸ List.Subset.refl _))
  | variableDeclarator name init =>
      cases init with
      | none => exact .pure trivial
      | some e =>
          refine hexpression _ (List.nil_subset _) (.inr ?_) rfl hn
          rw [hwork]
          rfl
  | functionDeclaration code | empty => exact .pure trivial
  | breakStatement label | continueStatement label => exact .pure trivial
  | unsupported => exact .throw _
  | ifStatement test consequent alternate =>
      simp only [Node.isStatement, Bool.and_eq_true] at hn
      exact hexpression _ (List.Subset.refl _) (.inl (by rw [hwork]; rfl)) rfl hn.1
  | forStatement init test update body =>
      simp only [Node.isStatement, Bool.and_eq_true] at hn
      have hall : declarationsOfPart init ++ body.declarations ⊆ f.work.declared := by
        rw [hdeclared]
        exact List.Subset.refl _
      obtain ⟨hinit, hbody⟩ := List.append_subset.mp hall
      exact .pure (awaitInit_within rfl hbody (by rw [hwork]; rfl) rfl hn.1 hinit)
  | forInStatement target object body =>
      simp only [Node.isStatement, Bool.and_eq_true, Bool.or_eq_true] at hn
      obtain ⟨htarget, hobject, -⟩ := hn
      have hbody : body.declarations ⊆ (Node.forInStatement target object body).declarations :=
        List.subset_append_right _ _
      cases hd : declaredTarget? target with
      | none =>
          rw [hd, Option.isSome_none] at htarget
          simp only [begin, hd]
          exact hexpression true hbody (.inl (by rw [hwork]; rfl)) rfl
            (htarget.resolve_right Bool.false_ne_true)
      | some name =>
          simp only [begin, hd]
          exact hexpression false hbody (.inl (by rw [hwork]; rfl)) rfl hobject
  | whileStatement test body =>
      simp only [Node.isStatement, Bool.and_eq_true] at hn
      exact hexpression _ (List.Subset.refl _) (.inl (by rw [hwork]; rfl)) rfl hn.1
  | doWhileStatement test body =>
      simp only [Node.isStatement, Bool.and_eq_true] at hn
      have hall : body.declarations ⊆ f.work.declared := hdeclared ▸ List.Subset.refl _
      exact .pure (awaitPart_within rfl hall (by rw [hwork]; rfl) rfl hn.2 hall)
  | returnStatement argument =>
      cases argument with
      | none => exact .pure trivial
      | some e => exact hexpression _ (List.nil_subset _) (.inl (by rw [hwork]; rfl)) rfl hn
  | throwStatement e => exact hexpression _ (List.nil_subset _) (.inl (by rw [hwork]; rfl)) rfl hn
  | labeled label body =>
      refine .pure (become_within hscope (by rw [hwork]; rfl) ?_)
      have hbody : body.isStatement = true := hn
      rw [Work.declared_of_isStatement hbody, hdeclared]
      exact List.Subset.refl _
  | _ => cases hn

private theorem runBranch_within {consequent : Node} {alternate : Option Node} (hscope : f.scope = none)
    (hnone : f.work.declarator? = none) (hconsequent : consequent.isStatement = true)
    (halternate : isStatementIfAny alternate = true)
    (hall : consequent.declarations ++ declarationsOfPart alternate ⊆ f.work.declared) (holds : Bool) :
    (f.runBranch (if holds then some consequent else alternate)).Within f := by
  obtain ⟨hfirst, hsecond⟩ := List.append_subset.mp hall
  cases holds with
  | true =>
      refine become_within hscope hnone ?_
      rw [Work.declared_of_isStatement hconsequent]
      exact hfirst
  | false =>
      cases alternate with
      | none => trivial
      | some n =>
          refine become_within hscope hnone ?_
          rw [Work.declared_of_isStatement halternate]
          exact hsecond

private theorem resume_statement_within (c : Context) (hf : f.Plays .statement) :
    Edit.Yields (Action.Within f) (f.resume c) := by
  have hw : f.work.isStatement = true := hf.permits
  have hscope : f.scope = none := Option.not_isSome_iff_eq_none.mp (by rw [hf.scope]; exact Bool.false_ne_true)
  have htaken : f.taken.scope = f.scope := rfl
  rcases f with ⟨work, value, scope, receiver, labels⟩
  cases work with
  | node n wantsReference =>
      simp only [Work.isStatement, Bool.and_eq_true, Bool.not_eq_true'] at hw
      obtain ⟨hn, rfl⟩ := hw
      exact begin_statement_within c n hn rfl hscope
  | statements ofProgram rest =>
      simp only [Work.isStatement, Bool.and_eq_true] at hw
      exact .pure (nextStatement_within ofProgram rfl rest hw.2 (fun _ h => h))
  | declarators rest => exact .pure (nextDeclarator_within rfl rest hw (fun _ h => h))
  | initializer name => exact .bind fun _ => .pure trivial
  | expression | returnValue => exact .pure trivial
  | throwValue => exact .query fun s x hx => by cases hx
  | branch consequent alternate =>
      simp only [Work.isStatement, Bool.and_eq_true] at hw
      exact .pure (runBranch_within hscope rfl hw.1 hw.2 (fun _ h => h) _)
  | forTest loop =>
      simp only [Work.isStatement, ForLoop.isGrammatical, Bool.and_eq_true] at hw
      exact .pure (awaitIfAny_within htaken (fun _ h => h) rfl rfl hw.1)
  | forBody loop =>
      simp only [Work.isStatement, ForLoop.isGrammatical, Bool.and_eq_true] at hw
      refine .pure (runBody_within (w := .forUpdate loop) ?_ ?_ rfl rfl hw.2.2 ?_ _)
      · split <;> rfl
      · exact List.Subset.refl _
      · exact List.Subset.refl _
  | forUpdate loop =>
      simp only [Work.isStatement, ForLoop.isGrammatical, Bool.and_eq_true] at hw
      exact .pure (awaitIfAny_within rfl (fun _ h => h) rfl rfl hw.2.1)
  | whileNext test body =>
      simp only [Work.isStatement, Bool.and_eq_true] at hw
      exact .pure (awaitExpression_within rfl (fun _ h => h) (.inl rfl) rfl hw.1)
  | whileTest test body =>
      simp only [Work.isStatement, Bool.and_eq_true] at hw
      refine .pure (runBody_within (w := .whileNext test body) htaken ?_ rfl rfl hw.2 ?_ _)
      · exact List.Subset.refl _
      · exact List.Subset.refl _
  | doBody body test =>
      simp only [Work.isStatement, Bool.and_eq_true] at hw
      exact .pure (awaitExpression_within rfl (fun _ h => h) (.inl rfl) rfl hw.1)
  | doTest body test =>
      simp only [Work.isStatement, Bool.and_eq_true] at hw
      refine .pure (runBody_within (w := .doBody body test) htaken ?_ rfl rfl hw.2 ?_ _)
      · exact List.Subset.refl _
      · exact List.Subset.refl _
  | forInTarget object body =>
      simp only [Work.isStatement, Bool.and_eq_true] at hw
      refine .bind fun target => .pure (awaitExpression_within (w := .forInObject target body) htaken ?_
        (.inl rfl) rfl hw.1)
      exact List.Subset.refl _
  | forInObject target body =>
      exact .bind fun names => nextName_within c htaken rfl hw (List.Subset.refl body.declarations) names
  | forInNext names body =>
      refine nextName_within c ?_ ?_ hw ?_ names
      · rfl
      · rfl
      · exact List.Subset.refl _
  | _ => cases hw

private theorem resume_body_within (c : Context) {ofProgram : Bool} (hf : f.Plays (.body ofProgram)) :
    Edit.Yields (Action.Within f) (f.resume c) := by
  have hw : f.work.isBody ofProgram = true := hf.permits
  have hnext (body : List Node) (hbody : areStatements body = true) (hnone : f.work.declarator? = none)
      (hall : declarationsOf body ⊆ f.work.declared) :
      Edit.Yields (Action.Within f) (Pure.pure (f.nextStatement ofProgram body) : Edit Action) :=
    .pure (nextStatement_within ofProgram hnone body hbody hall)
  rcases f with ⟨work, value, scope, receiver, labels⟩
  cases work with
  | node n wantsReference =>
      cases n with
      | block body =>
          cases wantsReference
          · simp only [Work.isBody, Bool.and_eq_true, Bool.not_eq_true'] at hw
            obtain ⟨rfl, hbody⟩ := hw
            exact hnext body hbody rfl (List.Subset.refl _)
          · cases hw
      | program body =>
          cases wantsReference
          · simp only [Work.isBody, Bool.and_eq_true] at hw
            obtain ⟨rfl, hbody⟩ := hw
            exact hnext body hbody rfl (List.Subset.refl _)
          · cases hw
      | _ => cases hw
  | statements p rest =>
      simp only [Work.isBody, Bool.and_eq_true, beq_iff_eq] at hw
      obtain ⟨rfl, hrest⟩ := hw
      exact hnext rest hrest rfl (List.Subset.refl _)
  | _ => cases hw

/-- **What a frame hands on declares no more than the frame did.** -/
theorem resume_within (c : Context) {role : Role} (hf : f.Plays role) :
    Edit.Yields (Action.Within f) (f.resume c) := by
  cases role with
  | expression promise => exact resume_expression_within c hf
  | statement => exact resume_statement_within c hf
  | body ofProgram => exact resume_body_within c hf

end Frame

/-! ### The variables of a scope -/

namespace Object

variable {o : Object} {key : Key}

theorem contains_put (h : o.properties.contains key = true) (key' : Key) (v : Value) :
    (o.put key' v).properties.contains key = true := by
  unfold put
  split
  · split
    · exact h
    · rw [Properties.contains_insert, h, Bool.or_true]
  · rw [add, Properties.contains_insert, h, Bool.or_true]

theorem contains_define (h : o.properties.contains key = true) (key' : Key) (p : Property) :
    (o.define key' p).properties.contains key = true := by
  unfold define
  split
  · dsimp only
    split
    · exact h
    · rw [Properties.contains_insert, h, Bool.or_true]
  · rw [add, Properties.contains_insert, h, Bool.or_true]

theorem contains_erase (h : o.properties.contains key = true) {key' : Key} (hne : key ≠ key') :
    (o.erase key').properties.contains key = true := by
  rw [erase, Properties.contains, Properties.get?_erase, if_neg (Ne.symm hne)]
  exact h

end Object

namespace Heap

/-- A scope has a variable of its own. -/
def HasVariable (s : Heap) (scope : ObjectId) (key : Key) : Prop :=
  ∃ o outer, s.object? scope = some o ∧ o.kind = .scope outer ∧ o.properties.contains key = true

/-- A variable of a scope is taken away on the way from one heap to another. -/
def Deletes (scope : ObjectId) (key : Key) (s s' : Heap) : Prop :=
  ∃ t : Heap, s.Moves (.of fun _ => True) t ∧ t.HasVariable scope key ∧
    (t.change scope fun o => o.erase key).Moves (.of fun _ => True) s'

variable {l : Licence} {s s' : Heap} {scope : ObjectId} {key : Key}

namespace HasVariable

/-- What is done to an object takes no variable of it away. -/
theorem change (h : s.HasVariable scope key) {id : ObjectId} {f : Object → Object}
    (hf : ∀ o outer, id = scope → s.object? id = some o → o.kind = .scope outer →
      o.properties.contains key = true →
      (f o).kind = .scope outer ∧ (f o).properties.contains key = true) :
    (s.change id f).HasVariable scope key := by
  obtain ⟨o, outer, ho, hkind, hkey⟩ := h
  by_cases hid : scope = id
  · subst hid
    obtain ⟨hkind', hkey'⟩ := hf o outer rfl ho hkind hkey
    exact ⟨f o, outer, by rw [object?_change, if_pos rfl, ho]; rfl, hkind', hkey'⟩
  · exact ⟨o, outer, by rw [object?_change, if_neg hid, ho], hkind, hkey⟩

/-- **A variable stays, unless it is deleted.** -/
theorem move (h : s.HasVariable scope key) (hmove : Move l s s') :
    s'.HasVariable scope key ∨ s' = s.change scope fun o => o.erase key := by
  cases hmove with
  | alloc o hbounds hkeys hlinks hcode =>
      obtain ⟨x, outer, hx, hkind, hkey⟩ := h
      exact .inl ⟨x, outer, object?_push_of_eq_some hx o, hkind, hkey⟩
  | define id key' p hkey' =>
      refine .inl (h.change fun o outer _ _ hkind hkey => ?_)
      have hkeeps : o.Keeps (fun _ => False) (o.define key' p) := .define o key' p
      exact ⟨hkeeps.scope outer hkind, Object.contains_define hkey key' p⟩
  | put id key' v hkey' =>
      refine .inl (h.change fun o outer _ _ hkind hkey => ?_)
      have hkeeps : o.Keeps (fun _ => False) (o.put key' v) := .put o key' v
      exact ⟨hkeeps.scope outer hkind, Object.contains_put hkey key' v⟩
  | erase id key' hfree =>
      by_cases hsame : id = scope ∧ key' = key
      · obtain ⟨rfl, rfl⟩ := hsame
        exact .inr rfl
      · refine .inl (h.change fun o outer hid _ hkind hkey => ⟨hkind, Object.contains_erase hkey ?_⟩)
        exact fun heq => hsame ⟨hid, heq.symm⟩
  | resize id length hcuts =>
      refine .inl (h.change fun o outer _ _ hkind hkey => ?_)
      have hresize : o.resize length = o := by rw [Object.resize, hkind]
      rw [hresize]
      exact ⟨hkind, hkey⟩
  | setKind id kind hboxed hconvertible =>
      -- a scope is not turned into anything else
      refine .inl (h.change fun o outer _ ho hkind _ => ?_)
      have hfree := hconvertible o ho
      rw [hkind] at hfree
      cases hfree
  | reseed | record => exact .inl h

theorem moves (h : s.HasVariable scope key) (hmoves : s.Moves (.of fun _ => True) s') :
    s'.HasVariable scope key ∨ s.Deletes scope key s' := by
  induction hmoves with
  | refl => exact .inl h
  | tail hmoves hlast ih =>
      rcases ih with hthere | ⟨t, hbefore, ht, hafter⟩
      · rcases hthere.move hlast with hthere' | rfl
        · exact .inl hthere'
        · exact .inr ⟨_, hmoves, hthere, .refl⟩
      · exact .inr ⟨t, hbefore, ht, hafter.tail hlast⟩

/-- A variable of its own is found first. -/
theorem resolve? (h : s.HasVariable scope key) : s.resolve? scope key = some scope := by
  obtain ⟨o, outer, ho, -, hkey⟩ := h
  obtain ⟨p, hp⟩ := Option.isSome_iff_exists.mp hkey
  have hfind : s.find? scope key = some p := by
    simp only [find?, walkFuel, findFrom, List.contains_nil, Bool.false_eq_true, if_false, ho, hp]
  have hhas : s.hasOf scope key = true := by
    rw [hasOf, hfind, Option.isSome_some, Bool.or_true]
  simp only [Heap.resolve?, walkFuel, resolveFrom, List.contains_nil, Bool.false_eq_true, if_false, hhas,
    if_true]

end HasVariable

/-- A variable of a scope has got a value, unless it is read-only, and nothing else has changed. -/
structure Assigned (scope : ObjectId) (key : Key) (v : Value) (s s' : Heap) : Prop where
  eq_change : s' = s.change scope fun o => o.put key v
  written : ∃ p, s.own? scope key = some p ∧
    s'.own? scope key = some (if p.readonly then p else { p with value := v })
  others : ∀ id key', id ≠ scope ∨ key' ≠ key → s'.own? id key' = s.own? id key'

/-- A scope takes a write of a variable that it has. -/
theorem HasVariable.setProperty (h : s.HasVariable scope key) (v : Value) :
    ∃ s', Store.setProperty (.object scope) key v s = (.ok (), s') ∧ Assigned scope key v s s' := by
  obtain ⟨o, outer, ho, hkind, hkey⟩ := h
  obtain ⟨p, hp⟩ := Option.isSome_iff_exists.mp hkey
  have hplan : s.planWrite (.object scope) key v = .ok (.put scope key v) := by
    simp [planWrite, stringData?, isArray, objectOf?, Value.objectId?, ho, hkind, Object.isArray,
      Object.arrayLength?]
    rfl
  have hquery : Edit.query (fun s => s.planWrite (.object scope) key v) s = (.ok (.put scope key v), s) :=
    congrArg (fun result => (result, s)) hplan
  have hput (key' : Key) : (o.put key v).properties.get? key' =
      if key = key' then some (if p.readonly then p else { p with value := v })
      else o.properties.get? key' := by
    simp only [Object.put, hp]
    split
    · split
      · rename_i heq
        rw [← heq, hp]
      · rfl
    · rw [Properties.get?_insert]
  refine ⟨_, bind_of_ok hquery, rfl, ⟨p, ?_, ?_⟩, fun id key' hother => ?_⟩
  · rw [own?, ho]
    exact hp
  · show Heap.own? (s.change scope fun o => o.put key v) scope key = _
    rw [own?, object?_change, if_pos rfl, ho]
    exact (hput key).trans (if_pos rfl)
  · show Heap.own? (s.change scope fun o => o.put key v) id key' = _
    rw [own?, own?, object?_change]
    by_cases hid : id = scope
    · have hne : key ≠ key' := fun heq => hother.elim (absurd hid) (absurd heq.symm)
      rw [if_pos hid, hid, ho]
      exact (hput key').trans (if_neg hne)
    · rw [if_neg hid]

end Heap

/-! ### What a call binds -/

namespace Heap

variable {s s' : Heap} {scope outer : ObjectId}

theorem Encloses.exists_object (h : s.Encloses outer scope) :
    ∃ o, s.object? scope = some o ∧ o.kind = .scope (some outer) := by
  obtain ⟨o, ho, houter⟩ := Option.bind_eq_some_iff.mp h
  refine ⟨o, ho, ?_⟩
  rcases o with ⟨parent, properties, kind⟩
  cases kind <;> cases houter
  rfl

end Heap

theorem Edit.Succeeds.keeps {α : Type} {P : Heap → Prop} {act : Edit α} {x : α} {s s' : Heap}
    (h : Edit.Succeeds P act) (hs : P s) (hact : act s = (.ok x, s')) : P s' := by
  obtain ⟨y, t, hy, ht⟩ := h s hs
  rw [hact] at hy
  cases hy
  exact ht

/-- What a body declares is bound in the scope where it is hoisted. -/
theorem Store.hoist_hasVariable {s : Heap} {scope : ObjectId} {o : Object} {outer : Option ObjectId}
    (ho : s.object? scope = some o) (hkind : o.kind = .scope outer) (body : List Node) :
    ∀ d ∈ declarationsOf body, (hoist body scope s).2.HasVariable scope d.key := by
  obtain ⟨o', hbinds⟩ := Binds.all ho hkind (declarationsOf body)
  intro d hd
  exact ⟨o', outer, hbinds.after, hbinds.kind.trans hkind, (hbinds.contains d.key).mpr (.inr ⟨d, hd, rfl⟩)⟩

/-- A call binds what the body of the function declares in the scope that it opens. -/
theorem activate_hasVariable {code : FunctionCode} {closure scope : ObjectId} {args : List Value}
    {s s' : Heap} (h : activate code closure args s = (.ok scope, s')) :
    ∀ d ∈ declarationsOf [code.body], s'.HasVariable scope d.key := by
  obtain ⟨made, s₁, hscope, hrest⟩ := exists_of_run_bind_eq_ok h
  obtain ⟨u, s₂, hbind, hpure⟩ := exists_of_run_bind_eq_ok hrest
  cases hpure
  unfold bindCall at hbind
  obtain ⟨list, s₃, hlist, hbind⟩ := exists_of_run_bind_eq_ok hbind
  obtain ⟨u₄, s₄, harguments, hbind⟩ := exists_of_run_bind_eq_ok hbind
  obtain ⟨u₅, s₅, hparams, hhoist⟩ := exists_of_run_bind_eq_ok hbind
  have hmade : s₁.Encloses closure scope := by
    cases hscope
    show (Heap.object? { s with objects := s.objects.push _ } _).bind Object.outerScope? = some closure
    rw [Heap.object?_push, if_pos rfl]
    rfl
  have hlist' := (Store.alloc_succeeds _).keeps hmade hlist
  have harguments' := (Store.define_succeeds _ _ _).keeps hlist' harguments
  have hparams' := (Edit.Succeeds.forM (fun p => Store.define_succeeds _ _ _) _).keeps harguments' hparams
  obtain ⟨o, ho, hkind⟩ := hparams'.exists_object
  have hbound := Store.hoist_hasVariable ho hkind [code.body]
  rw [hhoist] at hbound
  exact hbound

/-! ### What is declared is bound -/

/-- The scope that frames run in. -/
def scopeOf (frames : List Frame) : ObjectId := (frames.findSome? Frame.scope).getD Intrinsic.globalScope

/-- What the frames declare is bound in the scopes that they run in.  Above a variable declaration
there is one of its declarators. -/
def BoundIn (bound : ObjectId → Key → Prop) : List Frame → Prop
  | [] => True
  | f :: below =>
    (∀ d ∈ f.work.declared, bound (scopeOf (f :: below)) d.key) ∧
    (∀ g rest, below.head? = some g → g.work = .declarators rest →
      ∃ name, f.work.declarator? = some name ∧ bound (scopeOf (f :: below)) (.ofText name)) ∧
    BoundIn bound below

section

variable {f g : Frame} {below frames : List Frame} {bound bound' : ObjectId → Key → Prop}

theorem scopeOf_cons (f : Frame) (below : List Frame) : scopeOf (f :: below) = f.scope.getD (scopeOf below) := by
  rw [scopeOf, List.findSome?_cons]
  cases f.scope <;> rfl

/-- Only the scope of the first frame counts. -/
theorem scopeOf_congr (h : f.scope = g.scope) (below : List Frame) :
    scopeOf (f :: below) = scopeOf (g :: below) := by
  rw [scopeOf_cons, scopeOf_cons, h]

theorem scopeOf_of_none (h : f.scope = none) (below : List Frame) : scopeOf (f :: below) = scopeOf below := by
  rw [scopeOf_cons, h, Option.getD_none]

namespace BoundIn

theorem mono (h : BoundIn bound frames) (hmono : ∀ scope key, bound scope key → bound' scope key) :
    BoundIn bound' frames := by
  induction frames with
  | nil => trivial
  | cons f below ih =>
      obtain ⟨hall, hdeclarator, hbelow⟩ := h
      refine ⟨fun d hd => hmono _ _ (hall d hd), fun g rest hg hrest => ?_, ih hbelow⟩
      obtain ⟨name, hname, hbound⟩ := hdeclarator g rest hg hrest
      exact ⟨name, hname, hmono _ _ hbound⟩

theorem suffix {found : List Frame} (h : BoundIn bound frames) (hfound : found <:+ frames) :
    BoundIn bound found := by
  induction frames with
  | nil => rwa [List.suffix_nil.mp hfound]
  | cons f below ih =>
      rcases List.suffix_cons_iff.mp hfound with rfl | hfound
      · exact h
      · exact ih h.2.2 hfound

theorem handTo (h : BoundIn bound frames) (c : Completion) : BoundIn bound (handTo c frames) := by
  cases frames with
  | nil => trivial
  | cons f below =>
      have hsame : scopeOf ({ f with value := some c } :: below) = scopeOf (f :: below) :=
        scopeOf_congr rfl below
      obtain ⟨hall, hdeclarator, hbelow⟩ := h
      rw [← hsame] at hall hdeclarator
      exact ⟨hall, hdeclarator, hbelow⟩

/-- A frame in the place of another one that declares as much. -/
theorem replace (h : BoundIn bound (f :: below)) (hscope : g.scope = f.scope)
    (hdeclared : g.work.declared ⊆ f.work.declared)
    (hdeclarator : f.work.declarator? = none ∨ g.work.declarator? = f.work.declarator?) :
    BoundIn bound (g :: below) := by
  obtain ⟨hall, hon, hbelow⟩ := h
  rw [← scopeOf_congr hscope below] at hall hon
  refine ⟨fun d hd => hall d (hdeclared hd), fun g' rest hg' hrest => ?_, hbelow⟩
  obtain ⟨name, hname, hbound⟩ := hon g' rest hg' hrest
  refine ⟨name, ?_, hbound⟩
  rcases hdeclarator with hnone | hsame
  · rw [hnone] at hname
    cases hname
  · rw [hsame, hname]

end BoundIn

end

namespace Machine

variable {run : NestedRun} {fuel : Nat} {m m' : Machine} {s s' : Store} {f : Frame} {below : List Frame}
  {a : Action} {bound : ObjectId → Key → Prop}

/-- A call that runs the body of a function has bound what that declares. -/
theorem invoke_opens {call : PendingCall} (hs : s.Grammatical)
    (h : invoke run fuel m f call s = (.ok m', s')) :
    (∃ v, m'.frames = handTo (.value v) m.frames) ∨
      ∃ constructed body scope receiver,
        m'.frames =
          .opening (.block body) scope receiver :: { f with work := .running constructed } :: m.frames ∧
        ∀ d ∈ declarationsOf body, s'.HasVariable scope d.key := by
  rcases exists_of_invoke_eq_ok h with
    ⟨v, rfl⟩ | ⟨code, closure, receiver, args, scope, heap, hresolve, hactivate, rfl, rfl⟩
  · exact .inl ⟨v, deliver_frames m _⟩
  · obtain ⟨id, o, ho, hcode⟩ := Invocation.resolve_script hresolve
    obtain ⟨body, hbody, -⟩ := Code.exists_block (hs.functions id o code closure ho hcode)
    have hbound := activate_hasVariable hactivate
    rw [hbody, declarationsOf, declarationsOf, List.append_nil] at hbound
    refine .inr ⟨call.constructed, body, scope, receiver, ?_, hbound⟩
    rw [hbody]
    rfl

/-- What an action leaves has its declarations bound, if the frame had. -/
theorem obey_boundIn (hs : s.Grammatical) (hwithin : a.Within f) (h : BoundIn bound (f :: m.frames))
    (hbound : ∀ scope key, s'.HasVariable scope key → bound scope key)
    (hobey : obey run fuel m a s = (.ok m', s')) : BoundIn bound m'.frames := by
  have hleaves := obey_leaves hobey
  cases a with
  | await f' child =>
      obtain ⟨⟨hscope, hdeclared, hdeclarator⟩, hchild, hall, habove⟩ := hwithin
      have hf' : BoundIn bound (f' :: m.frames) := h.replace hscope hdeclared hdeclarator
      have hsame : scopeOf (child :: f' :: m.frames) = scopeOf (f :: m.frames) :=
        (scopeOf_of_none hchild _).trans (scopeOf_congr hscope _)
      rw [show m'.frames = child :: f' :: m.frames from hleaves]
      refine ⟨fun d hd => ?_, fun g rest hg hrest => ?_, hf'⟩
      · rw [hsame]
        exact h.1 d (hall hd)
      · cases hg
        obtain ⟨name, hname, hmem⟩ := habove rest hrest
        refine ⟨name, hname, ?_⟩
        rw [hsame]
        exact h.1 _ hmem
  | invoke f' call =>
      obtain ⟨hscope, hnone⟩ := hwithin
      rcases invoke_opens hs hobey with ⟨v, hframes⟩ | ⟨constructed, body, scope, receiver, hframes, hall⟩
      · rw [hframes]
        exact h.2.2.handTo _
      · rw [hframes]
        refine ⟨fun d hd => hbound _ _ (hall d hd), fun g rest hg hrest => ?_, ?_⟩
        · cases hg
          cases hrest
        · exact h.replace hscope (List.nil_subset _) (.inl hnone)
  | become f' | again f' =>
      obtain ⟨hscope, hdeclared, hnone⟩ := hwithin
      rw [show m'.frames = f' :: m.frames from hleaves]
      exact h.replace hscope hdeclared (.inl hnone)
  | deliver c =>
      rw [show m'.frames = handTo c m.frames from hleaves]
      exact h.2.2.handTo c
  | leave | complete v =>
      rw [show m'.frames = m.frames from hleaves]
      exact h.2.2
  | breakTo label | continueAt label => exact h.2.2.suffix hleaves
  | returnWith v =>
      obtain ⟨found, hfound, hframes⟩ := hleaves
      rw [hframes]
      exact (h.2.2.suffix hfound).handTo _

/-- **A step leaves what is declared bound.** -/
theorem step_boundIn {role : Role} (hframes : m.frames = f :: below) (hf : f.Plays role)
    (hs : s.Grammatical) (h : BoundIn bound (f :: below))
    (hbound : ∀ scope key, s'.HasVariable scope key → bound scope key)
    (hstep : step run fuel m s = (.ok (some m'), s')) : BoundIn bound m'.frames := by
  obtain ⟨a, heap, hresume, hobey⟩ := exists_of_step_eq_ok hframes hstep
  have hmoves : Edit.Moves (.of Grammatical) (f.resume (context { m with frames := below })) :=
    (f.resume_cutsLast _ f.keyedBy_any fun _ _ hwork => hf.grammatical_of_work hwork).moves trivial
  have hheap := hmoves.grammatical hs
  rw [hresume] at hheap
  exact obey_boundIn hheap (Frame.resume_within _ hf _ _ _ hresume) h hbound hobey

/-! ### Runs -/

/-- A variable of a scope has been lost before an instant of a run. -/
def LostBefore (run : Nat → Machine × Store) (i : Nat) (scope : ObjectId) (key : Key) : Prop :=
  ∃ k < i, (run k).2.HasVariable scope key ∧ ¬ (run (k + 1)).2.HasVariable scope key

variable {run : Nat → Machine × Store} {i : Nat} {scope : ObjectId} {key : Key}

theorem LostBefore.succ (h : LostBefore run i scope key) : LostBefore run (i + 1) scope key := by
  obtain ⟨k, hk, hlost⟩ := h
  exact ⟨k, Nat.lt_succ_of_lt hk, hlost⟩

/-- What follows a machine has its declarations bound, if the machine had. -/
theorem Next.boundIn {here there : Machine × Store} (hnext : Next here there) (hreached : Reached here)
    (h : BoundIn bound here.1.frames)
    (hbound : ∀ scope key, there.2.HasVariable scope key → bound scope key) :
    BoundIn bound there.1.frames := by
  cases hnext with
  | host hs => exact h
  | step fuel hstep =>
      rename_i m m' s s'
      obtain ⟨hsound, hheap⟩ := hreached.sound
      rcases m with ⟨- | ⟨f, below⟩, completion⟩
      · cases hstep
      · rcases hsound with hempty | ⟨role, htower⟩
        · cases hempty
        · exact step_boundIn rfl htower.plays hheap h hbound hstep

/-- **What the frames declare is bound, or has been and was lost.** -/
theorem run_boundIn {p : Program} (hp : p.isGrammatical = true) {receiver : Value}
    {s : Store} (hs : s.Grammatical) {o : Object} {outer : Option ObjectId}
    (ho : s.object? scope = some o) (hkind : o.kind = .scope outer)
    (hstart : run 0 = (ofProgram p scope receiver, (Run.edit (Store.hoist p.body scope) s).2)) :
    ∀ n, (∀ i < n, Next (run i) (run (i + 1))) →
      Reached (run n) ∧
        BoundIn (fun scope key => (run n).2.HasVariable scope key ∨ LostBefore run n scope key)
          (run n).1.frames := by
  intro n
  induction n with
  | zero =>
      intro _
      have hmoves : Edit.Moves (.of Grammatical) (Store.hoist p.body scope) :=
        Store.hoist_moves p.body scope fun name code hd => declarationsOf_grammatical p.body hp _ hd
      have hhoisted : (Run.edit (Store.hoist p.body scope) s).2.Grammatical := hmoves.grammatical hs
      rw [hstart]
      refine ⟨.start hp hhoisted scope receiver, fun d hd => .inl ?_, fun g rest hg => ?_, trivial⟩
      · exact Store.hoist_hasVariable ho hkind p.body d hd
      · cases hg
  | succ n ih =>
      intro hnext
      obtain ⟨hreached, hbound⟩ := ih fun i hi => hnext i (Nat.lt_succ_of_lt hi)
      have hlast := hnext n (Nat.lt_succ_self n)
      refine ⟨.next hreached hlast, hlast.boundIn hreached (hbound.mono fun scope key h => ?_) fun _ _ => .inl⟩
      rcases h with hthere | hlost
      · by_cases hstill : (run (n + 1)).2.HasVariable scope key
        · exact .inl hstill
        · exact .inr ⟨n, Nat.lt_succ_self n, hthere, hstill⟩
      · exact .inr hlost.succ

/-- A variable is lost in a step only if it is deleted there, by a script or by what a script calls. -/
theorem Next.deletes {here there : Machine × Store} (hnext : Next here there)
    (h : here.2.HasVariable scope key) (hlost : ¬ there.2.HasVariable scope key) :
    here.2.Deletes scope key there.2.toHeap ∨ there.1 = here.1 := by
  cases hnext with
  | host hs => exact .inr rfl
  | step fuel hstep =>
      rename_i m m' s s'
      have hmoves : Run.Moves (.of fun _ => True) (Machine.step (runNested fuel) fuel m) :=
        step_moves (fun _ => trivial) trivial (runNested_moves fuel) fun f _ => f.keyedBy_any
      have hheap := hmoves s fun _ _ _ _ _ => trivial
      rw [hstep] at hheap
      exact .inl ((h.moves hheap).resolve_left hlost)

/-! ### Initializers -/

/-- How the step of an initializer ends in which the value `v` lies; `below` are the frames that it
stands on. -/
structure Initializes (name : String) (v : Value) (below : List Frame) (here : Machine × Store) : Prop where
  /-- A variable of the scope around it gets the value, and nothing else changes. -/
  own : here.2.HasVariable here.1.scope (.ofText name) →
    ∃ heap, Heap.Assigned here.1.scope (.ofText name) v here.2.toHeap heap ∧
      ∀ fuel, step (runNested fuel) fuel here.1 here.2 =
        (.ok (some { here.1 with frames := below }), { here.2 with toHeap := heap })
  /-- Otherwise it is written where it is found. -/
  elsewhere : ∀ holder, here.2.resolve? here.1.scope (.ofText name) = some holder →
    ∀ fuel, step (runNested fuel) fuel here.1 here.2 =
      match Store.setProperty (.object holder) (.ofText name) v here.2.toHeap with
      | (.ok _, heap) => (.ok (some { here.1 with frames := below }), { here.2 with toHeap := heap })
      | (.error e, heap) => (.error e, { here.2 with toHeap := heap })
  /-- A name that no scope has is an error. -/
  nowhere : here.2.resolve? here.1.scope (.ofText name) = none →
    ∀ fuel, step (runNested fuel) fuel here.1 here.2 = (.error (.undefinedName name), here.2)

/-- The step of an initializer is an assignment. -/
theorem step_initializer {m : Machine} {name : String} {v : Value} (hframes : m.frames = f :: below)
    (hwork : f.work = .initializer name) (hvalue : f.value = some (.value v)) (run : NestedRun)
    (fuel : Nat) (s : Store) :
    step run fuel m s =
      match Store.assign m.scope name v s.toHeap with
      | (.ok _, heap) => (.ok (some { m with frames := below }), { s with toHeap := heap })
      | (.error e, heap) => (.error e, { s with toHeap := heap }) := by
  rcases m with ⟨frames, completion⟩
  obtain rfl : frames = f :: below := hframes
  have hscope : f.scopeIn (context ⟨below, completion⟩) = scope ⟨f :: below, completion⟩ :=
    (scopeOf_cons f below).symm
  have hresult : f.result = v := by rw [Frame.result, hvalue]
  have hresume : f.resume (context ⟨below, completion⟩) =
      Store.assign (scope ⟨f :: below, completion⟩) name v >>= fun _ => return .leave := by
    rw [← hscope, ← hresult, Frame.resume, hwork]
  rcases hassign : Store.assign (scope ⟨f :: below, completion⟩) name v s.toHeap with ⟨e | u, heap⟩
  · have hedit : f.resume (context ⟨below, completion⟩) s.toHeap = (.error e, heap) := by
      rw [hresume]
      exact bind_of_error hassign
    exact bind_of_error (bind_of_error (Run.liftM_eq hedit))
  · have hedit : f.resume (context ⟨below, completion⟩) s.toHeap = (.ok .leave, heap) := by
      rw [hresume]
      exact bind_of_ok hassign
    exact bind_of_ok (bind_of_ok (Run.liftM_eq hedit))

theorem initializes_of_frames {here : Machine × Store} {name : String} {v : Value}
    (hframes : here.1.frames = f :: below) (hwork : f.work = .initializer name)
    (hvalue : f.value = some (.value v)) : Initializes name v below here := by
  have hstep (fuel : Nat) := step_initializer hframes hwork hvalue (runNested fuel) fuel here.2
  have hfound {holder : ObjectId} (h : here.2.resolve? here.1.scope (.ofText name) = some holder) :
      Store.assign here.1.scope name v here.2.toHeap =
        Store.setProperty (.object holder) (.ofText name) v here.2.toHeap := by
    have haddress : (Reference.variable name).address? here.2.toHeap here.1.scope =
        some (.object holder, .ofText name) := by
      rw [Reference.address?, h]
      rfl
    exact Reference.write_of_address haddress v
  constructor
  · intro hthere
    obtain ⟨heap, hset, hassigned⟩ := hthere.setProperty v
    refine ⟨heap, hassigned, fun fuel => ?_⟩
    rw [hstep, hfound hthere.resolve?, hset]
  · intro holder hholder fuel
    rw [hstep, hfound hholder]
  · intro hnone fuel
    have haddress : (Reference.variable name).address? here.2.toHeap here.1.scope = none := by
      rw [Reference.address?, hnone]
      rfl
    obtain ⟨name', heq, hwrite⟩ := Reference.write_of_no_address haddress v
    cases heq
    rw [hstep, show Store.assign here.1.scope name v here.2.toHeap = _ from hwrite]

/-- **An initializer writes to the variable of its own scope, unless that has been deleted.**

A program runs in a scope in which its declarations have been bound.  Whenever in the course of
the run an initializer has come to a value, the innermost scope has the variable, or it has had it
and lost it in an earlier step: then the variable was deleted in that step, or the host put other
objects in its place.  If the scope has the variable, that is where the value goes, and nothing
else changes; if not, the value goes wherever the name is found then, and the step fails where it
is not found. -/
theorem initializer_writes_to_its_own_scope {p : Program} (hp : p.isGrammatical = true)
    {receiver : Value} {s : Store} (hs : s.Grammatical) {o : Object} {outer : Option ObjectId}
    (ho : s.object? scope = some o) (hkind : o.kind = .scope outer)
    (hstart : run 0 = (ofProgram p scope receiver, (Run.edit (Store.hoist p.body scope) s).2))
    {n : Nat} (hnext : ∀ i < n, Next (run i) (run (i + 1))) {g : Frame} {rest : List Node}
    {name : String} {v : Value} (hframes : (run n).1.frames = f :: g :: below)
    (hwork : f.work = .initializer name) (hdeclaration : g.work = .declarators rest)
    (hvalue : f.value = some (.value v)) :
    let own := (run n).1.scope
    Initializes name v (g :: below) (run n) ∧
      ((run n).2.HasVariable own (.ofText name) ∨
        ∃ k < n, (run k).2.HasVariable own (.ofText name) ∧
          ¬ (run (k + 1)).2.HasVariable own (.ofText name) ∧
          ((run k).2.Deletes own (.ofText name) (run (k + 1)).2.toHeap ∨
            (run (k + 1)).1 = (run k).1)) := by
  intro own
  refine ⟨initializes_of_frames hframes hwork hvalue, ?_⟩
  obtain ⟨-, hbound⟩ := run_boundIn hp hs ho hkind hstart n hnext
  rw [hframes] at hbound
  obtain ⟨name', hname, hthere⟩ := hbound.2.1 g rest rfl hdeclaration
  obtain rfl : name = name' := by
    rw [hwork] at hname
    exact Option.some.inj hname
  have hscope : scopeOf (f :: g :: below) = own := by
    rw [← hframes]
    rfl
  rw [hscope] at hthere
  refine hthere.imp_right fun ⟨k, hk, hbefore, hafter⟩ => ⟨k, hk, hbefore, hafter, ?_⟩
  exact (hnext k hk).deletes hbefore hafter

/-- The program `var x = init`. -/
def declaringX (init : Node) : Program :=
  ⟨[.variableDeclaration .varDeclared [.variableDeclarator "x" (some init)]]⟩

/-- A store with an empty scope. -/
def withEmptyScope : Store := .holding #[.new none (.scope none)]

theorem withEmptyScope_grammatical : withEmptyScope.Grammatical where
  functions := fun ⟨index⟩ o code closure ho hcode => by
    cases index with
    | zero => cases ho; cases hcode
    | succ index => cases ho
  texts := fun source p hp => by cases hp

/-- The run of `var x = init` from its declarations on. -/
def runDeclaringX (init : Node) (i : Nat) : Machine × Store :=
  let store := (Run.edit (Store.hoist (declaringX init).body ⟨0⟩) withEmptyScope).2
  let e := (Evaluator.run 0 i ⟨store, .ofProgram (declaringX init) ⟨0⟩ .undefined⟩).2
  (e.machine, e.store)

/-- In `var x = delete x` the variable is there, and the initializer comes to a value; but there
is nothing to write it to. -/
theorem initializer_misses_a_deleted_variable :
    let here := runDeclaringX (.unary .delete (.identifier "x"))
    (∀ i < 6, Next (here i) (here (i + 1))) ∧
      (here 0).2.HasVariable ⟨0⟩ (.ofText "x") ∧
      ∃ f g below, (here 6).1.frames = f :: g :: below ∧ f.work = .initializer "x" ∧
        g.work = .declarators [] ∧ f.value = some (.value (.boolean true)) ∧
        step (runNested 0) 0 (here 6).1 (here 6).2 = (.error (.undefinedName "x"), (here 6).2) := by
  intro here
  refine ⟨fun i hi => ?_, ⟨_, none, rfl, rfl, rfl⟩, _, _, _, rfl, rfl, rfl, rfl, rfl⟩
  match i, hi with
  | 0, _ | 1, _ | 2, _ | 3, _ | 4, _ | 5, _ => exact .step 0 rfl

/-- `var x = null` writes to the variable of the program. -/
theorem initializer_writes_to_its_own_scope_null :
    let here := runDeclaringX (.literal .null false)
    (∀ i < 4, Next (here i) (here (i + 1))) ∧ ∃ below, Initializes "x" .null below (here 4) ∧
      ((here 4).2.HasVariable ⟨0⟩ (.ofText "x") ∨
        ∃ k < 4, (here k).2.HasVariable ⟨0⟩ (.ofText "x") ∧
          ¬ (here (k + 1)).2.HasVariable ⟨0⟩ (.ofText "x")) := by
  intro here
  have hnext : ∀ i < 4, Next (here i) (here (i + 1)) := by
    intro i hi
    match i, hi with
    | 0, _ | 1, _ | 2, _ | 3, _ => exact .step 0 rfl
  have hstart : here 0 = (ofProgram (declaringX (.literal .null false)) ⟨0⟩ .undefined,
      (Run.edit (Store.hoist (declaringX (.literal .null false)).body ⟨0⟩) withEmptyScope).2) := rfl
  obtain ⟨hinitializes, hthere⟩ := initializer_writes_to_its_own_scope (o := .new none (.scope none)) rfl
    withEmptyScope_grammatical rfl rfl hstart hnext rfl rfl rfl rfl
  refine ⟨hnext, _, hinitializes, hthere.imp_right fun ⟨k, hk, hbefore, hafter, _⟩ =>
    ⟨k, hk, hbefore, hafter⟩⟩

end Machine

end Stepwise
