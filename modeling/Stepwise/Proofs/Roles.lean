/-
What frames may do.

A frame plays a role.  A frame of an expression owes the frame below one result, of a
shape that was settled when it began: a place if the frame below asked for one and the
expression is a name or a member, a value in all other cases.  A frame of a statement owes
nothing.  The frame of a body opens a scope, and is that of a function or of a program.

The one result here is `resume_fits`: whatever a frame of a well-formed tree does when its
turn comes, it keeps its role or hands down what it owes, and what it begins above itself
is something whose result it can take.  All that is said later about stacks rests on this
and not on the single nodes.
-/
import Stepwise.Machine.Resume
import Stepwise.Proofs.Grammar
import Stepwise.Proofs.Library

namespace Stepwise

/-! ### What an edit ends with -/

/-- Whatever an edit ends with has the property, if it is a value. -/
def Edit.Yields {α : Type} (P : α → Prop) (act : Edit α) : Prop :=
  ∀ s x s', act s = (.ok x, s') → P x

namespace Edit.Yields

variable {α β : Type} {P : β → Prop}

theorem pure {x : β} (h : P x) : Edit.Yields P (Pure.pure x : Edit β) := by
  intro s y s' hy
  cases hy
  exact h

theorem throw (e : Failure) : Edit.Yields P (MonadExcept.throw e : Edit β) := by
  intro s y s' hy
  cases hy

theorem bind_of {Q : α → Prop} {act : Edit α} {next : α → Edit β} (hact : Edit.Yields Q act)
    (hnext : ∀ x, Q x → Edit.Yields P (next x)) : Edit.Yields P (act >>= next) := by
  intro s y s' hy
  rcases hr : act s with ⟨e | x, s₁⟩
  · rw [bind_of_error hr] at hy
    cases hy
  · rw [bind_of_ok hr] at hy
    exact hnext x (hact s x s₁ hr) s₁ y s' hy

theorem bind {act : Edit α} {next : α → Edit β} (hnext : ∀ x, Edit.Yields P (next x)) :
    Edit.Yields P (act >>= next) :=
  bind_of (Q := fun _ => True) (fun _ _ _ _ => trivial) fun x _ => hnext x

theorem query {f : Heap → Except Failure β} (h : ∀ s x, f s = .ok x → P x) :
    Edit.Yields P (Edit.query f) := by
  intro s x s' hx
  exact h s x (congrArg Prod.fst hx)

end Edit.Yields

/-! ### Shapes -/

/-- What a result looks like to the frame that takes it. -/
inductive Shape where
  | value
  | variable
  | property
deriving DecidableEq

def Completion.shape : Completion → Shape
  | .value _ => .value
  | .reference (.variable _) => .variable
  | .reference (.property _ _) => .property

def Completion.isReference : Completion → Bool
  | .value _ => false
  | .reference _ => true

theorem Completion.isReference_eq (c : Completion) : c.isReference = (c.shape != .value) := by
  rcases c with v | name | ⟨base, key⟩ <;> rfl

/-- Does a node stand for a place? -/
def Node.isPlace : Node → Bool
  | .identifier _ | .member _ _ _ => true
  | _ => false

/-- What a node comes to, when it is begun for its value or for its place. -/
def Node.promise : Node → (wantsReference : Bool) → Shape
  | .identifier _, true => .variable
  | .member _ _ _, true => .property
  | _, _ => .value

theorem Node.promise_isReference (node : Node) (wantsReference : Bool) :
    (node.promise wantsReference != .value) = (wantsReference && node.isPlace) := by
  cases wantsReference <;> cases node <;> rfl

theorem Node.promise_false (node : Node) : node.promise false = .value := by
  cases node <;> rfl

/-- The parts of a loop that are still needed are well-formed. -/
def ForLoop.isGrammatical (loop : ForLoop) : Bool :=
  isExpressionIfAny loop.test && (isExpressionIfAny loop.update && loop.body.isStatement)

namespace Work

/-- What is owed where this is left to do. -/
def promise : Work → Shape
  | .node e wantsReference => e.promise wantsReference
  | .memberObject _ _ wantsReference | .memberKey _ wantsReference =>
    if wantsReference then .property else .value
  | _ => .value

/-- Does the frame look at the place that its child stands for? -/
def looksAtPlace : Work → Bool
  | .assignTarget _ _ | .update _ _ | .callee _ _ | .forInTarget _ _ => true
  | .operand .delete | .operand .typeOf => true
  | _ => false

/-- Can a result of this shape be taken?  All take values, and some look at the place. -/
def accepts : Work → Shape → Bool
  | _, .value => true
  | .operand .typeOf, .property => false
  | w, _ => w.looksAtPlace

@[simp] theorem accepts_value (w : Work) : w.accepts .value = true := by
  cases w <;> rfl

/-- A frame that does not look at a place takes nothing but values. -/
theorem shape_of_accepts {w : Work} {shape : Shape} (h : w.looksAtPlace = false)
    (haccepts : w.accepts shape = true) : shape = .value := by
  unfold accepts at haccepts
  split at haccepts
  · rfl
  · cases haccepts
  · rw [h] at haccepts
    cases haccepts

/-- Is it an expression that is under way? -/
def isExpression : Work → Bool
  | .node e _ => e.isExpression
  | .element _ _ rest => areElements rest
  | .entry _ _ rest => areEntries rest
  | .left _ e | .logicalLeft _ e => e.isExpression
  | .assignTarget _ value => value.isExpression
  | .choice consequent alternate => consequent.isExpression && alternate.isExpression
  | .memberObject _ property _ => property.isExpression
  | .sequence rest => areExpressions rest
  | .callee _ arguments => areExpressions arguments
  | .argument _ rest => areExpressions rest
  | .right _ _ | .logicalRight | .assignValue _ _ | .update _ _ | .operand _ | .memberKey _ _
  | .running _ => true
  | _ => false

/-- Is it a statement that is under way? -/
def isStatement : Work → Bool
  | .node n wantsReference => n.isStatement && !wantsReference
  | .statements ofProgram rest => !ofProgram && areStatements rest
  | .declarators rest => areDeclarators rest
  | .branch consequent alternate => consequent.isStatement && isStatementIfAny alternate
  | .forTest loop | .forBody loop | .forUpdate loop => loop.isGrammatical
  | .whileNext test body | .whileTest test body | .doBody body test | .doTest body test =>
    test.isExpression && body.isStatement
  | .forInTarget object body => object.isExpression && body.isStatement
  | .forInObject _ body | .forInNext _ body => body.isStatement
  | .expression | .initializer _ | .returnValue | .throwValue => true
  | _ => false

/-- Is it the body of a function, or of a program? -/
def isBody (ofProgram : Bool) : Work → Bool
  | .node (.block body) false => !ofProgram && areStatements body
  | .node (.program body) false => ofProgram && areStatements body
  | .statements p rest => p == ofProgram && areStatements rest
  | _ => false

end Work

/-! ### Roles -/

inductive Role where
  /-- An expression that owes a result. -/
  | expression (promise : Shape)
  | statement
  /-- The body of a function that has been called, or of a program. -/
  | body (ofProgram : Bool)
deriving DecidableEq

namespace Role

/-- What may be left to do in a frame of this role. -/
def permits : Role → Work → Bool
  | expression promise, w => w.isExpression && w.promise == promise
  | statement, w => w.isStatement
  | body ofProgram, w => w.isBody ofProgram

/-- Bodies open a scope and bind a receiver, and no jump goes to them. -/
def opens : Role → Bool
  | body _ => true
  | _ => false

/-- The shape of what the role hands down, if it hands anything down. -/
def hands : Role → Shape
  | expression promise => promise
  | _ => .value

end Role

/-- A frame plays a role. -/
structure Frame.Plays (f : Frame) (role : Role) : Prop where
  permits : role.permits f.work = true
  scope : f.scope.isSome = role.opens
  receiver : f.receiver.isSome = role.opens
  labels : role.opens = true → f.labels = []
  /-- What lies in the frame can be taken. -/
  slot : ∀ c, f.value = some c → f.work.accepts c.shape = true

/-- A frame keeps its role with whatever is left to do in it then. -/
def Frame.GoesOn (f : Frame) (role : Role) : Prop :=
  ∀ w, role.permits w = true → ({ f with work := w } : Frame).Plays role

/-- A frame may begin above another one, which can take what it will hand down. -/
inductive Role.On : Role → Role → Frame → Prop where
  | expression {promise : Shape} {below : Role} {g : Frame} (h : g.work.accepts promise = true) :
      On (.expression promise) below g
  | ofStatement {g : Frame} : On .statement .statement g
  | ofBody {ofProgram : Bool} {g : Frame} : On .statement (.body ofProgram) g
  | call {promise : Shape} {g : Frame} (h : g.work.isRunning = true) :
      On (.body false) (.expression promise) g

/-- An action that becomes the role. -/
def Action.Fits (role : Role) : Action → Prop
  | .await f child => f.Plays role ∧ ∃ above, child.Plays above ∧ above.On role f
  | .invoke f _ => ∀ constructed, ({ f with work := .running constructed } : Frame).Plays role
  | .become f | .again f => f.Plays role
  | .deliver c => c.shape = role.hands
  | .leave | .complete _ | .breakTo _ | .continueAt _ | .returnWith _ => role = .statement

/-! ### Keeping a role -/

theorem Frame.ofNode_plays_expression {e : Node} (h : e.isExpression = true) (wantsReference : Bool) :
    (ofNode e wantsReference).Plays (.expression (e.promise wantsReference)) where
  permits := by simp [Role.permits, ofNode, Work.isExpression, Work.promise, h]
  scope := rfl
  receiver := rfl
  labels := fun h => by cases h
  slot := fun c h => by cases h

theorem Frame.ofNode_plays_statement {n : Node} (h : n.isStatement = true) (labels : List String) :
    ({ ofNode n false with labels } : Frame).Plays .statement where
  permits := by simp [Role.permits, ofNode, Work.isStatement, h]
  scope := rfl
  receiver := rfl
  labels := fun h => by cases h
  slot := fun c h => by cases h

private theorem Frame.opening_plays {n : Node} (ofProgram : Bool)
    (h : (Work.node n false).isBody ofProgram = true) (scope : ObjectId) (receiver : Value) :
    (opening n scope receiver).Plays (.body ofProgram) where
  permits := h
  scope := rfl
  receiver := rfl
  labels := fun _ => rfl
  slot := fun c h => by cases h

theorem Program.opening_plays {p : Program} (h : p.isGrammatical = true) (scope : ObjectId)
    (receiver : Value) : (Frame.opening (.program p.body) scope receiver).Plays (.body true) :=
  Frame.opening_plays (n := .program p.body) true h scope receiver

theorem Code.opening_plays {code : FunctionCode} (h : Grammatical code) (scope : ObjectId)
    (receiver : Value) : (Frame.opening code.body scope receiver).Plays (.body false) := by
  obtain ⟨body, hbody, hstatements⟩ := Code.exists_block h
  rw [hbody]
  exact Frame.opening_plays (n := .block body) false hstatements scope receiver

namespace Frame.Plays

variable {f : Frame} {role : Role}

/-- A frame in which nothing but a value lies can go on with anything that its role permits. -/
theorem goOn (hf : f.Plays role) (h : f.work.looksAtPlace = false) : f.GoesOn role := by
  intro w hw
  refine ⟨hw, hf.scope, hf.receiver, hf.labels, fun c hc => ?_⟩
  rw [Work.shape_of_accepts h (hf.slot c hc)]
  exact w.accepts_value

/-- And so can a frame whose value was taken. -/
theorem goOn_taken (hf : f.Plays role) : f.taken.GoesOn role :=
  fun _ hw => ⟨hw, hf.scope, hf.receiver, hf.labels, fun c hc => by cases hc⟩

/-- A function that a frame is about to make is well-formed. -/
theorem grammatical_of_work (hf : f.Plays role) {code : FunctionCode} {wantsReference : Bool}
    (hwork : f.work = .node (.functionExpression code) wantsReference) : Grammatical code := by
  have hw := hf.permits
  rw [hwork] at hw
  rcases role with promise | - | ofProgram
  · simp only [Role.permits, Work.isExpression, Node.isExpression_functionExpression,
      Bool.and_eq_true] at hw
    exact hw.1
  · cases hw
  · cases hw

/-- A result that can be taken is put in the frame. -/
theorem withValue (hf : f.Plays role) {c : Completion} (hc : f.work.accepts c.shape = true) :
    ({ f with value := some c } : Frame).Plays role :=
  ⟨hf.permits, hf.scope, hf.receiver, hf.labels, fun c' hc' => by cases hc'; exact hc⟩

end Frame.Plays

namespace Frame

variable {f : Frame} {role : Role} {w : Work}

theorem awaitValue_fits {e : Node} (hf : f.GoesOn role) (hw : role.permits w = true)
    (he : e.isExpression = true) : (f.awaitValue w e).Fits role := by
  refine ⟨hf w hw, _, ofNode_plays_expression he false, .expression ?_⟩
  rw [e.promise_false]
  exact w.accepts_value

theorem becomeValue_fits {e : Node} (he : e.isExpression = true) :
    (Action.become (ofNode e false)).Fits (.expression .value) := by
  have hplays := ofNode_plays_expression he false
  rwa [e.promise_false] at hplays

theorem awaitReference_fits {e : Node} (hf : f.GoesOn role) (hw : role.permits w = true)
    (he : e.isExpression = true) (haccepts : ∀ shape, w.accepts shape = true) :
    (f.awaitReference w e).Fits role :=
  ⟨hf w hw, _, ofNode_plays_expression he true, .expression (haccepts _)⟩

theorem awaitStatement_fits {n : Node} (hf : f.GoesOn .statement) (hw : w.isStatement = true)
    (hn : n.isStatement = true) : (f.awaitValue w n).Fits .statement :=
  ⟨hf w hw, _, ofNode_plays_statement hn [], .ofStatement⟩

/-! ### Expressions -/

private theorem permits_expression {promise : Shape} {w : Work} (hw : w.isExpression = true)
    (hp : w.promise = promise) : (Role.expression promise).permits w = true := by
  simp only [Role.permits, hw, hp, beq_self_eq_true, Bool.and_self]

private theorem nextElement_fits (hf : f.GoesOn (.expression .value)) (array : ObjectId) :
    ∀ (elements : List (Option Node)) (index : Nat), areElements elements = true →
      Edit.Yields (Action.Fits (.expression .value)) (f.nextElement array index elements) := by
  intro elements
  induction elements with
  | nil => exact fun index _ => .bind fun _ => .pure rfl
  | cons element rest ih =>
      intro index h
      simp only [areElements, Bool.and_eq_true] at h
      cases element with
      | none => exact ih (index + 1) h.2
      | some e => exact .pure (awaitValue_fits hf (permits_expression h.2 rfl) h.1)

private theorem nextEntry_fits (hf : f.GoesOn (.expression .value)) (object : ObjectId)
    (entries : List (Entry Node)) (h : areEntries entries = true) :
    Edit.Yields (Action.Fits (.expression .value)) (f.nextEntry object entries) := by
  cases entries with
  | nil => exact .pure rfl
  | cons entry rest =>
      simp only [areEntries, Bool.and_eq_true] at h
      exact .bind fun key => .pure (awaitValue_fits hf (permits_expression h.2 rfl) h.1)

private theorem nextInSequence_fits (hf : f.GoesOn (.expression .value)) (expressions : List Node)
    (h : areExpressions expressions = true) :
    (f.nextInSequence expressions).Fits (.expression .value) := by
  cases expressions with
  | nil => rfl
  | cons e rest =>
      simp only [areExpressions, Bool.and_eq_true] at h
      exact awaitValue_fits hf (permits_expression h.2 rfl) h.1

private theorem nextArgument_fits (hf : f.GoesOn (.expression .value)) (call : PendingCall)
    (arguments : List Node) (h : areExpressions arguments = true) :
    (f.nextArgument call arguments).Fits (.expression .value) := by
  cases arguments with
  | nil => exact fun constructed => hf _ rfl
  | cons e rest =>
      simp only [areExpressions, Bool.and_eq_true] at h
      exact awaitValue_fits hf (permits_expression h.2 rfl) h.1

/-- An operator that asks for the place of its operand can take it. -/
private theorem operand_accepts (op : UnaryOp) (e : Node) :
    (Work.operand op).accepts (e.promise (op.wantsPlace e)) = true := by
  cases op <;> cases e <;> rfl

private theorem memberOf_shape {s : Heap} {base : Value} {key : Key} {wantsReference : Bool}
    {c : Completion} (h : memberOf s base key wantsReference = .ok c) :
    c.shape = if wantsReference then .property else .value := by
  cases wantsReference with
  | true =>
      cases h
      rfl
  | false =>
      obtain ⟨v, -, hv⟩ := exists_of_bind_eq_ok h
      cases hv
      rfl

/-- What an expression does when it begins. -/
private theorem begin_expression_fits (c : Context) (e : Node) (wantsReference : Bool)
    (he : e.isExpression = true) (hf : f.GoesOn (.expression (e.promise wantsReference))) :
    Edit.Yields (Action.Fits (.expression (e.promise wantsReference)))
      (f.begin c wantsReference e) := by
  cases e with
  | identifier name =>
      cases wantsReference with
      | true => exact .pure rfl
      | false => exact .bind fun v => .pure rfl
  | literal value isRegex => exact .bind fun v => .pure rfl
  | thisValue => exact .pure rfl
  | functionExpression code => exact .bind fun v => .pure rfl
  | unsupported => exact .throw _
  | arrayLiteral elements => exact .bind fun array => nextElement_fits hf array elements 0 he
  | objectLiteral entries => exact .bind fun object => nextEntry_fits hf object entries he
  | binary op left right | logical op left right =>
      simp only [Node.isExpression, Bool.and_eq_true] at he
      exact .pure (awaitValue_fits hf (permits_expression he.2 rfl) he.1)
  | assignment op target value =>
      simp only [Node.isExpression, Bool.and_eq_true] at he
      exact .pure (awaitReference_fits hf (permits_expression he.2 rfl) he.1
        fun σ => by cases σ <;> rfl)
  | update op leading target =>
      exact .pure (awaitReference_fits hf rfl he fun σ => by cases σ <;> rfl)
  | unary op operand =>
      exact .pure ⟨hf _ rfl, _, ofNode_plays_expression (e := operand) he _,
        .expression (operand_accepts op operand)⟩
  | conditional test consequent alternate =>
      simp only [Node.isExpression, Bool.and_eq_true] at he
      refine .pure (awaitValue_fits hf (permits_expression ?_ rfl) he.1)
      simp only [Work.isExpression, he.2.1, he.2.2, Bool.and_self]
  | call callee arguments | construct callee arguments =>
      simp only [Node.isExpression, Bool.and_eq_true] at he
      exact .pure (awaitReference_fits hf (permits_expression he.2 rfl) he.1
        fun σ => by cases σ <;> rfl)
  | member computed object property =>
      simp only [Node.isExpression, Bool.and_eq_true] at he
      refine .pure (awaitValue_fits hf (permits_expression he.2 ?_) he.1)
      cases wantsReference <;> rfl
  | sequence expressions => exact .pure (nextInSequence_fits hf expressions he)
  | _ => cases he

/-- What an expression that is under way does next. -/
private theorem resume_expression_fits (c : Context) {promise : Shape}
    (hf : f.Plays (.expression promise)) :
    Edit.Yields (Action.Fits (.expression promise)) (f.resume c) := by
  have htaken := hf.goOn_taken
  have hfree := hf.goOn
  have hpermits := hf.permits
  simp only [Role.permits, Bool.and_eq_true, beq_iff_eq] at hpermits
  obtain ⟨hw, rfl⟩ := hpermits
  rcases f with ⟨work, value, scope, receiver, labels⟩
  cases work with
  | node e wantsReference =>
      exact begin_expression_fits c e wantsReference hw (hfree rfl)
  | element array index rest => exact .bind fun _ => nextElement_fits htaken array rest _ hw
  | entry object key rest => exact .bind fun _ => nextEntry_fits htaken object rest hw
  | left op right => exact .pure (awaitValue_fits htaken rfl hw)
  | right op left => exact .bind fun v => .pure rfl
  | logicalLeft op right =>
      refine .bind fun decided => ?_
      cases decided with
      | true => exact .pure rfl
      | false => exact .pure (awaitValue_fits htaken rfl hw)
  | logicalRight => exact .pure rfl
  | assignTarget op value =>
      exact .bind fun target => .bind fun current => .pure (awaitValue_fits htaken rfl hw)
  | assignValue target current => exact .bind fun v => .bind fun _ => .pure rfl
  | update op leading => exact .bind fun target => .bind fun v => .pure rfl
  | operand op => exact .bind fun v => .pure rfl
  | choice consequent alternate =>
      simp only [Work.isExpression, Bool.and_eq_true] at hw
      exact .pure (becomeValue_fits (by split <;> simp only [hw]))
  | memberObject computed property wantsReference =>
      cases computed with
      | true => exact .pure (awaitValue_fits htaken (permits_expression rfl rfl) hw)
      | false =>
          exact .bind fun key => .bind_of (.query fun s c hc => memberOf_shape hc) fun c hc => .pure hc
  | memberKey base wantsReference =>
      exact .bind fun key => .bind_of (.query fun s c hc => memberOf_shape hc) fun c hc => .pure hc
  | sequence rest =>
      exact .pure (nextInSequence_fits (hfree rfl) rest hw)
  | callee constructs arguments =>
      exact .bind fun call => .pure (nextArgument_fits htaken call arguments hw)
  | argument call rest => exact .pure (nextArgument_fits htaken _ rest hw)
  | running constructed => exact .pure rfl
  | _ => cases hw

/-! ### Statements -/

private theorem awaitIfAny_fits {child : Option Node} (hf : f.GoesOn .statement)
    (hw : w.isStatement = true) (hchild : isExpressionIfAny child = true) :
    (f.awaitIfAny w child).Fits .statement := by
  cases child with
  | none => exact hf w hw
  | some e => exact awaitValue_fits hf hw hchild

private theorem awaitInit_fits {init : Option Node} (hf : f.GoesOn .statement)
    (hw : w.isStatement = true) (hinit : isInitIfAny init = true) :
    (f.awaitIfAny w init).Fits .statement := by
  cases init with
  | none => exact hf w hw
  | some node =>
      cases node with
      | variableDeclaration kind declarators => exact awaitStatement_fits hf hw hinit
      | _ => exact awaitValue_fits hf hw hinit

/-- The next statement of a block, or of the body of a function or a program. -/
private theorem nextStatement_fits (ofProgram : Bool) (hf : f.Plays role)
    (hon : ∀ g, Role.On .statement role g) (hhands : role.hands = .value)
    (hpermits : ∀ rest, areStatements rest = true → role.permits (.statements ofProgram rest) = true)
    (body : List Node) (h : areStatements body = true) :
    (f.nextStatement ofProgram body).Fits role := by
  cases body with
  | nil => exact hhands.symm
  | cons n rest =>
      simp only [areStatements, Bool.and_eq_true] at h
      exact ⟨hf.goOn_taken _ (hpermits rest h.2), _, ofNode_plays_statement h.1 [], hon _⟩

private theorem nextInBlock_fits (hf : f.Plays .statement) (body : List Node)
    (h : areStatements body = true) : (f.nextStatement false body).Fits .statement :=
  nextStatement_fits false hf (fun _ => .ofStatement) rfl
    (fun _ hrest => hrest) body h

private theorem nextDeclarator_fits (hf : f.GoesOn .statement) (declarators : List Node)
    (h : areDeclarators declarators = true) : (f.nextDeclarator declarators).Fits .statement := by
  cases declarators with
  | nil => rfl
  | cons n rest =>
      cases n with
      | variableDeclarator name init =>
          simp only [areDeclarators, Bool.and_eq_true] at h
          exact awaitStatement_fits hf h.2 h.1
      | _ => cases h

private theorem runBranch_fits {n : Option Node} (h : isStatementIfAny n = true) :
    (f.runBranch n).Fits .statement := by
  cases n with
  | none => rfl
  | some n => exact ofNode_plays_statement h f.labels

private theorem runBody_fits {body : Node} (hf : f.GoesOn .statement) (holds : Bool)
    (hw : w.isStatement = true) (hbody : body.isStatement = true) :
    (f.runBody holds w body).Fits .statement := by
  cases holds with
  | false => rfl
  | true => exact awaitStatement_fits hf hw hbody

private theorem nextName_fits (c : Context) (hf : f.GoesOn .statement) (names : Enumeration)
    {body : Node} (hbody : body.isStatement = true) :
    Edit.Yields (Action.Fits .statement) (f.nextName c names body) := by
  refine .bind fun next => ?_
  split
  · exact .pure rfl
  · exact .bind fun _ => .pure (awaitStatement_fits hf hbody hbody)

/-- What a statement does when it begins. -/
private theorem begin_statement_fits (c : Context) (n : Node) (hn : n.isStatement = true)
    (hf : f.Plays .statement) (hfree : f.GoesOn .statement) :
    Edit.Yields (Action.Fits .statement) (f.begin c false n) := by
  cases n with
  | block body => exact .pure (nextInBlock_fits hf body hn)
  | expressionStatement e => exact .pure (awaitValue_fits hfree rfl hn)
  | variableDeclaration kind declarators => exact .pure (nextDeclarator_fits hfree declarators hn)
  | variableDeclarator name init =>
      cases init with
      | none => exact .pure rfl
      | some e => exact .pure (awaitValue_fits hfree rfl hn)
  | functionDeclaration code | empty => exact .pure rfl
  | breakStatement label | continueStatement label => exact .pure rfl
  | unsupported => exact .throw _
  | ifStatement test consequent alternate =>
      simp only [Node.isStatement, Bool.and_eq_true] at hn
      refine .pure (awaitValue_fits hfree ?_ hn.1)
      simp only [Role.permits, Work.isStatement, hn.2.1, hn.2.2, Bool.and_self]
  | forStatement init test update body =>
      simp only [Node.isStatement, Bool.and_eq_true] at hn
      refine .pure (awaitInit_fits hfree ?_ hn.1)
      simp only [Work.isStatement, ForLoop.isGrammatical, hn.2.1, hn.2.2.1, hn.2.2.2, Bool.and_self]
  | forInStatement target object body =>
      simp only [Node.isStatement, Bool.and_eq_true] at hn
      obtain ⟨htarget, hobject, hbody⟩ := hn
      cases hd : declaredTarget? target with
      | none =>
          rw [hd, Option.isSome_none, Bool.or_false] at htarget
          simp only [begin, hd]
          refine .pure (awaitReference_fits hfree ?_ htarget fun σ => by cases σ <;> rfl)
          simp only [Role.permits, Work.isStatement, hobject, hbody, Bool.and_self]
      | some name =>
          simp only [begin, hd]
          exact .pure (awaitValue_fits hfree hbody hobject)
  | whileStatement test body =>
      simp only [Node.isStatement, Bool.and_eq_true] at hn
      refine .pure (awaitValue_fits hfree ?_ hn.1)
      simp only [Role.permits, Work.isStatement, hn.1, hn.2, Bool.and_self]
  | doWhileStatement test body =>
      simp only [Node.isStatement, Bool.and_eq_true] at hn
      refine .pure (awaitStatement_fits hfree ?_ hn.2)
      simp only [Work.isStatement, hn.1, hn.2, Bool.and_self]
  | returnStatement argument =>
      cases argument with
      | none => exact .pure rfl
      | some e => exact .pure (awaitValue_fits hfree rfl hn)
  | throwStatement e => exact .pure (awaitValue_fits hfree rfl hn)
  | labeled label body => exact .pure (ofNode_plays_statement (n := body) hn _)
  | _ => cases hn

/-- What a statement that is under way does next. -/
private theorem resume_statement_fits (c : Context) (hf : f.Plays .statement) :
    Edit.Yields (Action.Fits .statement) (f.resume c) := by
  have htaken := hf.goOn_taken
  have hplain := hf.goOn
  have hw : f.work.isStatement = true := hf.permits
  rcases f with ⟨work, value, scope, receiver, labels⟩
  cases work with
  | node n wantsReference =>
      simp only [Work.isStatement, Bool.and_eq_true, Bool.not_eq_true'] at hw
      obtain ⟨hn, rfl⟩ := hw
      exact begin_statement_fits c n hn hf (hplain rfl)
  | statements ofProgram rest =>
      simp only [Work.isStatement, Bool.and_eq_true, Bool.not_eq_true'] at hw
      obtain ⟨rfl, hrest⟩ := hw
      exact .pure (nextInBlock_fits hf rest hrest)
  | expression | returnValue => exact .pure rfl
  | throwValue => exact .query fun s x hx => by cases hx
  | initializer name => exact .bind fun _ => .pure rfl
  | declarators rest =>
      exact .pure (nextDeclarator_fits (hplain rfl) rest hw)
  | branch consequent alternate =>
      simp only [Work.isStatement, Bool.and_eq_true] at hw
      exact .pure (runBranch_fits (by split <;> simp only [isStatementIfAny, hw]))
  | forTest loop =>
      have hloop := hw
      simp only [Work.isStatement, ForLoop.isGrammatical, Bool.and_eq_true] at hw
      exact .pure (awaitIfAny_fits htaken hloop hw.1)
  | forBody loop =>
      have hloop := hw
      simp only [Work.isStatement, ForLoop.isGrammatical, Bool.and_eq_true] at hw
      refine .pure (runBody_fits ?_ _ hloop hw.2.2)
      split
      · exact htaken
      · exact hplain rfl
  | forUpdate loop =>
      have hloop := hw
      simp only [Work.isStatement, ForLoop.isGrammatical, Bool.and_eq_true] at hw
      exact .pure (awaitIfAny_fits (hplain rfl) hloop hw.2.1)
  | whileNext test body =>
      have hloop := hw
      simp only [Work.isStatement, Bool.and_eq_true] at hw
      exact .pure (awaitValue_fits (hplain rfl) hloop hw.1)
  | whileTest test body =>
      have hloop := hw
      simp only [Work.isStatement, Bool.and_eq_true] at hw
      exact .pure (runBody_fits htaken _ hloop hw.2)
  | doBody body test =>
      have hloop := hw
      simp only [Work.isStatement, Bool.and_eq_true] at hw
      exact .pure (awaitValue_fits (hplain rfl) hloop hw.1)
  | doTest body test =>
      have hloop := hw
      simp only [Work.isStatement, Bool.and_eq_true] at hw
      exact .pure (runBody_fits htaken _ hloop hw.2)
  | forInTarget object body =>
      simp only [Work.isStatement, Bool.and_eq_true] at hw
      exact .bind fun target => .pure (awaitValue_fits htaken hw.2 hw.1)
  | forInObject target body => exact .bind fun names => nextName_fits c htaken names hw
  | forInNext names body =>
      exact nextName_fits c (hplain rfl) names hw
  | _ => cases hw

/-- What the body of a function or a program does. -/
private theorem resume_body_fits (c : Context) {ofProgram : Bool} (hf : f.Plays (.body ofProgram)) :
    Edit.Yields (Action.Fits (.body ofProgram)) (f.resume c) := by
  have hw : f.work.isBody ofProgram = true := hf.permits
  have hnext := nextStatement_fits ofProgram hf (fun _ => .ofBody) rfl fun rest hrest => by
    simp only [Role.permits, Work.isBody, beq_self_eq_true, hrest, Bool.and_self]
  rcases f with ⟨work, value, scope, receiver, labels⟩
  cases work with
  | node n wantsReference =>
      cases n with
      | block body =>
          cases wantsReference
          · simp only [Work.isBody, Bool.and_eq_true, Bool.not_eq_true'] at hw
            obtain ⟨rfl, hbody⟩ := hw
            exact .pure (hnext body hbody)
          · cases hw
      | program body =>
          cases wantsReference
          · simp only [Work.isBody, Bool.and_eq_true] at hw
            obtain ⟨rfl, hbody⟩ := hw
            exact .pure (hnext body hbody)
          · cases hw
      | _ => cases hw
  | statements p rest =>
      simp only [Work.isBody, Bool.and_eq_true, beq_iff_eq] at hw
      obtain ⟨rfl, hrest⟩ := hw
      exact .pure (hnext rest hrest)
  | _ => cases hw

/-- **A frame keeps its role.** -/
theorem resume_fits (c : Context) (hf : f.Plays role) :
    Edit.Yields (Action.Fits role) (f.resume c) := by
  cases role with
  | expression promise => exact resume_expression_fits c hf
  | statement => exact resume_statement_fits c hf
  | body ofProgram => exact resume_body_fits c hf

end Frame

end Stepwise
