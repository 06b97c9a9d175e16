/-
Well-formed trees, and heaps that hold nothing else.

A tree may hold any node anywhere.  The machine relies on three things that every parser
grants: an expression stands wherever a value is waited for, a statement stands wherever
one is run, and the body of a function is a block.  `isExpression` and `isStatement` say
so, down through the functions that are written inside a tree.

A heap is grammatical if the code of all its functions is, and if its reader reads nothing
else.  No move can spoil that, and so no edit can.
-/
import Stepwise.Machine.Begin
import Stepwise.Proofs.Moves

namespace Stepwise

mutual

/-- Can a node stand where a value or a place is wanted? -/
def Node.isExpression : Node → Bool
  | .identifier _ | .literal _ _ | .thisValue | .unsupported => true
  | .functionExpression ⟨_, _, .block body⟩ => areStatements body
  | .arrayLiteral elements => areElements elements
  | .objectLiteral entries => areEntries entries
  | .binary _ left right => left.isExpression && right.isExpression
  | .logical _ left right => left.isExpression && right.isExpression
  | .assignment _ target value => target.isExpression && value.isExpression
  | .update _ _ target => target.isExpression
  | .unary _ operand => operand.isExpression
  | .conditional test consequent alternate =>
    test.isExpression && (consequent.isExpression && alternate.isExpression)
  | .call callee arguments => callee.isExpression && areExpressions arguments
  | .construct callee arguments => callee.isExpression && areExpressions arguments
  | .member _ object property => object.isExpression && property.isExpression
  | .sequence expressions => areExpressions expressions
  | _ => false

/-- Can a node stand in the body of a function or a program? -/
def Node.isStatement : Node → Bool
  | .variableDeclaration _ declarators => areDeclarators declarators
  | .variableDeclarator _ init => isExpressionIfAny init
  | .functionDeclaration ⟨_, _, .block body⟩ => areStatements body
  | .block body => areStatements body
  | .expressionStatement e => e.isExpression
  | .ifStatement test consequent alternate =>
    test.isExpression && (consequent.isStatement && isStatementIfAny alternate)
  | .forStatement init test update body =>
    isInitIfAny init && (isExpressionIfAny test && (isExpressionIfAny update && body.isStatement))
  | .forInStatement target object body =>
    (target.isExpression || (Frame.declaredTarget? target).isSome)
      && (object.isExpression && body.isStatement)
  | .whileStatement test body => test.isExpression && body.isStatement
  | .doWhileStatement test body => test.isExpression && body.isStatement
  | .returnStatement argument => isExpressionIfAny argument
  | .throwStatement e => e.isExpression
  | .labeled _ body => body.isStatement
  | .breakStatement _ | .continueStatement _ | .empty | .unsupported => true
  | _ => false

def isExpressionIfAny : Option Node → Bool
  | some node => node.isExpression
  | none => true

def isStatementIfAny : Option Node → Bool
  | some node => node.isStatement
  | none => true

/-- A loop may begin with a declaration of variables or with an expression. -/
def isInitIfAny : Option Node → Bool
  | some (.variableDeclaration _ declarators) => areDeclarators declarators
  | some node => node.isExpression
  | none => true

def areExpressions : List Node → Bool
  | [] => true
  | node :: rest => node.isExpression && areExpressions rest

def areStatements : List Node → Bool
  | [] => true
  | node :: rest => node.isStatement && areStatements rest

def areDeclarators : List Node → Bool
  | [] => true
  | .variableDeclarator _ init :: rest => isExpressionIfAny init && areDeclarators rest
  | _ :: _ => false

def areElements : List (Option Node) → Bool
  | [] => true
  | element :: rest => isExpressionIfAny element && areElements rest

def areEntries : List (Entry Node) → Bool
  | [] => true
  | ⟨_, _, _, value⟩ :: rest => value.isExpression && areEntries rest

end

/-- The body of a function is a block of statements. -/
def Code.isGrammatical : FunctionCode → Bool
  | ⟨_, _, .block body⟩ => areStatements body
  | _ => false

def Program.isGrammatical (p : Program) : Bool := areStatements p.body

@[simp] theorem Node.isExpression_functionExpression (code : FunctionCode) :
    (Node.functionExpression code).isExpression = code.isGrammatical := by
  rcases code with ⟨name, params, body⟩
  cases body <;> rfl

@[simp] theorem Node.isStatement_functionDeclaration (code : FunctionCode) :
    (Node.functionDeclaration code).isStatement = code.isGrammatical := by
  rcases code with ⟨name, params, body⟩
  cases body <;> rfl

/-- The body of a well-formed function, as the block that it is. -/
theorem Code.exists_block {code : FunctionCode} (h : code.isGrammatical = true) :
    ∃ body, code.body = .block body ∧ areStatements body = true := by
  rcases code with ⟨name, params, body⟩
  cases body <;> first | exact ⟨_, rfl, h⟩ | cases h

/-! ### What well-formed statements declare -/

/-- Is the code of a declared function well-formed? -/
def Declaration.isGrammatical : Declaration → Bool
  | .variable _ => true
  | .function _ code => code.isGrammatical

theorem declaredVariables_grammatical (declarators : List Node) :
    ∀ d ∈ declaredVariables declarators, d.isGrammatical = true := by
  intro d hd
  obtain ⟨node, -, hnode⟩ := List.mem_filterMap.mp hd
  split at hnode
  · cases hnode
    rfl
  · cases hnode

theorem Node.declarations_of_isExpression {node : Node} (h : node.isExpression = true) :
    node.declarations = [] := by
  cases node <;> first | rfl | cases h

theorem declarationsOfInit_grammatical (init : Option Node) (h : isInitIfAny init = true) :
    ∀ d ∈ declarationsOfPart init, d.isGrammatical = true := by
  intro d hd
  rcases init with - | node
  · cases hd
  · cases node with
    | variableDeclaration kind declarators => exact declaredVariables_grammatical declarators d hd
    | _ => rw [declarationsOfPart, Node.declarations_of_isExpression h] at hd; cases hd

theorem Node.declarations_of_enumerated {target : Node}
    (h : (target.isExpression || (Frame.declaredTarget? target).isSome) = true) :
    ∀ d ∈ target.declarations, d.isGrammatical = true := by
  intro d hd
  rcases Bool.or_eq_true_iff.mp h with h | h
  · rw [declarations_of_isExpression h] at hd
    cases hd
  · cases target with
    | variableDeclaration kind declarators => exact declaredVariables_grammatical declarators d hd
    | _ => cases h

mutual

/-- A well-formed statement declares well-formed functions. -/
theorem Node.declarations_grammatical (node : Node) (h : node.isStatement = true) :
    ∀ d ∈ node.declarations, d.isGrammatical = true := by
  intro d hd
  cases node with
  | variableDeclaration kind declarators => exact declaredVariables_grammatical declarators d hd
  | functionDeclaration code =>
      rw [Node.isStatement_functionDeclaration] at h
      rcases code with ⟨name, params, body⟩
      rcases name with - | name
      · cases hd
      · rw [List.mem_singleton.mp hd]
        exact h
  | block body => exact declarationsOf_grammatical body h d hd
  | ifStatement test consequent alternate =>
      simp only [Node.isStatement, Bool.and_eq_true] at h
      rcases List.mem_append.mp hd with hd | hd
      · exact consequent.declarations_grammatical h.2.1 d hd
      · exact declarationsOfPart_grammatical alternate h.2.2 d hd
  | forStatement init test update body =>
      simp only [Node.isStatement, Bool.and_eq_true] at h
      rcases List.mem_append.mp hd with hd | hd
      · exact declarationsOfInit_grammatical init h.1 d hd
      · exact body.declarations_grammatical h.2.2.2 d hd
  | forInStatement target object body =>
      simp only [Node.isStatement, Bool.and_eq_true] at h
      rcases List.mem_append.mp hd with hd | hd
      · exact Node.declarations_of_enumerated h.1 d hd
      · exact body.declarations_grammatical h.2.2 d hd
  | whileStatement test body =>
      simp only [Node.isStatement, Bool.and_eq_true] at h
      exact body.declarations_grammatical h.2 d hd
  | doWhileStatement test body =>
      simp only [Node.isStatement, Bool.and_eq_true] at h
      exact body.declarations_grammatical h.2 d hd
  | labeled label body => exact body.declarations_grammatical h d hd
  | _ => cases hd

theorem declarationsOfPart_grammatical (part : Option Node) (h : isStatementIfAny part = true) :
    ∀ d ∈ declarationsOfPart part, d.isGrammatical = true := by
  cases part with
  | none => intro d hd; cases hd
  | some node => exact node.declarations_grammatical h

theorem declarationsOf_grammatical (body : List Node) (h : areStatements body = true) :
    ∀ d ∈ declarationsOf body, d.isGrammatical = true := by
  intro d hd
  cases body with
  | nil => cases hd
  | cons node rest =>
      simp only [areStatements, Bool.and_eq_true] at h
      rcases List.mem_append.mp hd with hd | hd
      · exact node.declarations_grammatical h.1 d hd
      · exact declarationsOf_grammatical rest h.2 d hd

end

/-! ### Heaps

Storing a property may make an array longer; it leaves what a function does when called.
-/

namespace Object

variable (o : Object) (key : Key)

@[simp] theorem callable?_add (p : Property) : (o.add key p).callable? = o.callable? := by
  rcases o with ⟨parent, properties, kind⟩
  cases kind <;> cases key <;> rfl

@[simp] theorem callable?_put (v : Value) : (o.put key v).callable? = o.callable? := by
  unfold put
  split
  · split <;> rfl
  · exact callable?_add o key _

@[simp] theorem callable?_define (p : Property) : (o.define key p).callable? = o.callable? := by
  unfold define
  split
  · split <;> rfl
  · exact callable?_add o key p

@[simp] theorem callable?_resize (length : Nat) : (o.resize length).callable? = o.callable? := by
  rcases o with ⟨parent, properties, kind⟩
  cases kind <;> rfl

end Object

/-- All functions of a heap are well-formed, and so is whatever it can read. -/
structure Heap.Grammatical (s : Heap) : Prop where
  functions : ∀ id o code closure, s.object? id = some o →
    o.callable? = some (.script code closure) → code.isGrammatical = true
  texts : ∀ source p, s.parse source = .ok p → p.isGrammatical = true

/-- Well-formed code, as what moves may store. -/
abbrev Grammatical (code : FunctionCode) : Prop := code.isGrammatical = true

/-- A function expression that is a statement of a well-formed program is well-formed. -/
theorem firstFunction_grammatical {body : List Node} {code : FunctionCode}
    (h : areStatements body = true) (hcode : Compiling.firstFunction? body = some code) :
    Grammatical code := by
  induction body with
  | nil => cases hcode
  | cons node rest ih =>
      simp only [areStatements, Bool.and_eq_true] at h
      unfold Compiling.firstFunction? at hcode ih
      rw [List.findSome?_cons] at hcode
      split at hcode
      · rename_i found hfound
        split at hfound
        · cases hfound
          cases hcode
          exact (Node.isExpression_functionExpression _).symm.trans h.1
        · cases hfound
      · exact ih h.2 hcode

/-- A store of some objects, which reads no source text and sets no limit to the stack. -/
def Store.holding (objects : Array Object) : Store where
  objects := objects
  reader := none
  clock := 0.0
  seed := 1
  journal := #[]
  config := {}
  evalDepth := 0
  outerFrames := 0

/-- A store without functions is grammatical. -/
theorem Store.holding_grammatical : (Store.holding #[]).Grammatical where
  functions := fun id o code closure ho => by cases ho
  texts := fun source p hp => by cases hp

namespace Heap

variable {s s' : Heap}

theorem Grammatical.supplies (h : s.Grammatical) : s.Supplies Stepwise.Grammatical :=
  fun source p _ hp => firstFunction_grammatical (h.texts source p hp)

/-- An object changed in a way that makes no function of it leaves the heap grammatical. -/
private theorem Grammatical.change (h : s.Grammatical) (id : ObjectId) {f : Object → Object}
    (hf : ∀ o code closure, (f o).callable? = some (.script code closure) →
      o.callable? = some (.script code closure)) : (s.change id f).Grammatical := by
  refine ⟨fun id' o code closure ho hcode => ?_, h.texts⟩
  have hget : (s.objects.modify id.index f)[id'.index]? = some o := ho
  rw [Array.getElem?_modify] at hget
  split at hget
  · obtain ⟨old, hold, rfl⟩ := Option.map_eq_some_iff.mp hget
    exact h.functions id' old code closure hold (hf old code closure hcode)
  · exact h.functions id' o code closure hget hcode

/-- No move spoils a grammatical heap. -/
theorem Move.grammatical (hmove : Move (.of Stepwise.Grammatical) s s') (h : s.Grammatical) :
    s'.Grammatical := by
  cases hmove with
  | alloc o _ _ _ hcode =>
      refine ⟨fun id o' code closure ho' => ?_, h.texts⟩
      have hget : (s.objects.push o)[id.index]? = some o' := ho'
      rw [Array.getElem?_push] at hget
      split at hget
      · cases hget
        exact hcode code closure
      · exact h.functions id o' code closure hget
  | define id key p _ => exact h.change id fun o code closure ho => by rwa [o.callable?_define] at ho
  | put id key v _ => exact h.change id fun o code closure ho => by rwa [o.callable?_put] at ho
  | erase id key _ => exact h.change id fun o code closure ho => ho
  | resize id length _ => exact h.change id fun o code closure ho => by rwa [o.callable?_resize] at ho
  | setKind id kind hkind _ =>
      refine h.change id fun o code closure ho => ?_
      cases kind with
      | date | wrapper => cases ho
      | _ => cases hkind
  | reseed seed => exact ⟨h.functions, h.texts⟩
  | record row => exact ⟨h.functions, h.texts⟩

theorem Moves.grammatical (hmoves : Moves (.of Stepwise.Grammatical) s s') (h : s.Grammatical) :
    s'.Grammatical :=
  hmoves.keeps (fun _ _ hmove => hmove.grammatical) h

end Heap

/-- An edit that only makes moves leaves a grammatical heap. -/
theorem Edit.Moves.grammatical {α : Type} {act : Edit α} (hact : Edit.Moves (.of Grammatical) act)
    {s : Heap} (h : s.Grammatical) : (act s).2.Grammatical :=
  (hact s h.supplies).grammatical h

end Stepwise
