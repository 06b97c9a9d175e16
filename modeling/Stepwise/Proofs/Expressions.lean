/-
The machine follows the recursion on expressions.

For each kind of node the frame passes through the stages of the evaluation one by one:
what lies in its slot when its turn comes is what the child before has come to, and what
is left to do is kept in the frame as it stands in the evaluation.  The induction is on
the expression, for any frames below; calls are followed by assumption, and shown to be
so afterwards for the functions that are native.
-/
import Stepwise.Proofs.Follows
import Stepwise.Proofs.Library

namespace Stepwise

namespace Machine.Setting

variable {w : Setting} {k : Nat} {call : Calls}

/-- The machine follows the calls. -/
def Faithful (w : Setting) (k : Nat) (call : Calls) : Prop :=
  ∀ (below : List Frame) (f : Frame) (called : PendingCall), w.height ≤ below.length →
    w.Follows k (fun completion => invoke w.run w.fuel ⟨below, completion⟩ f called)
      (call (siteOf below) called) (w.landing below Action.deliverValue)

/-- The machine follows the evaluation of an expression, above any frames. -/
def Evaluates (w : Setting) (k : Nat) (call : Calls) (e : Node) : Prop :=
  ∀ (below : List Frame) (wantsReference : Bool), w.height ≤ below.length →
    w.Follows k (fun completion => push ⟨below, completion⟩ (.ofNode e wantsReference))
      (e.evaluate call (siteOf below) wantsReference) (w.landing below Action.deliver)

variable {β : Type} {below : List Frame} {f : Frame} {e : Node} {next : Completion → Eval β}
  {land : β → Value → Run Machine}

/-- A frame waits for an expression: its turn comes again with the result in the slot. -/
theorem Follows.await {work : Work} {wantsReference : Bool} (hlow : w.height ≤ below.length)
    (hf : IsBare f) (he : w.Evaluates k call e)
    (hnext : ∀ c, w.Follows k
      (w.carryOut below (({ f with work, value := some c } : Frame).resume (siteOf below).context))
      (next c) land) :
    w.Follows k (w.carryOut below (Pure.pure (f.await work e wantsReference)))
      (e.evaluate call (siteOf below).inner wantsReference >>= next) land := by
  have hchild := he ({ f with work } :: below) wantsReference (Nat.le_succ_of_le hlow)
  rw [siteOf_cons (hf.after work f.value)] at hchild
  exact hchild.bind fun c => ((hnext c).turn hlow).of_le (Nat.le_succ k)

/-! ### Along lists -/

-- The equations by which a frame has its turn are unfolded in every proof below.
attribute [local simp] Frame.begin Frame.resume evaluateElements evaluateEntries evaluateInSequence
  evaluateArguments

section

variable (hlow : w.height ≤ below.length)
include hlow

theorem nextElement_follows (array : ObjectId) : ∀ (elements : List (Option Node)),
    (∀ e, some e ∈ elements → w.Evaluates k call e) → ∀ (index : Nat) (f : Frame), IsBare f →
      w.Follows k (w.carryOut below (f.nextElement array index elements))
        (evaluateElements call (siteOf below).inner array index elements >>= fun _ =>
          Pure.pure (.value (.object array)))
        (w.landing below Action.deliver) := by
  intro elements
  induction elements with
  | nil =>
      intro _ index f hf
      exact .edit ((Store.setLength_cutsLast _ _).moves trivial) fun _ => .done Action.deliver _
  | cons element rest ih =>
      intro he index f hf
      have hrest := ih fun e h => he e (List.mem_cons_of_mem _ h)
      cases element with
      | none => exact hrest (index + 1) f hf
      | some e =>
          rw [evaluateElements, bind_assoc]
          refine .await hlow hf (he e List.mem_cons_self) fun c => ?_
          simp only [bind_assoc, Frame.resume, Frame.result_some]
          exact .edit (Store.defineElement_moves _ _ _) fun _ => hrest (index + 1) _ (hf.after _ _).taken

theorem nextEntry_follows (object : ObjectId) : ∀ (entries : List (Entry Node)),
    (∀ entry ∈ entries, w.Evaluates k call entry.value) → ∀ f : Frame, IsBare f →
      w.Follows k (w.carryOut below (f.nextEntry object entries))
        (evaluateEntries call (siteOf below).inner object entries >>= fun _ =>
          Pure.pure (.value (.object object)))
        (w.landing below Action.deliver) := by
  intro entries
  induction entries with
  | nil =>
      intro _ f hf
      exact .done Action.deliver _
  | cons entry rest ih =>
      intro he f hf
      have hrest := ih fun e h => he e (List.mem_cons_of_mem _ h)
      rw [evaluateEntries, bind_assoc]
      refine .query fun key => ?_
      rw [bind_assoc]
      refine .await hlow hf (he entry List.mem_cons_self) fun c => ?_
      simp only [bind_assoc, Frame.resume, Frame.result_some]
      exact .edit (Store.define_moves _ trivial _) fun _ => hrest _ (hf.after _ _).taken

theorem nextInSequence_follows : ∀ (expressions : List Node),
    (∀ e ∈ expressions, w.Evaluates k call e) → ∀ f : Frame, IsBare f →
      w.Follows k (w.carryOut below (Pure.pure (f.nextInSequence expressions)))
        (evaluateInSequence call (siteOf below).inner f.result expressions >>= fun v =>
          Pure.pure (.value v))
        (w.landing below Action.deliver) := by
  intro expressions
  induction expressions with
  | nil =>
      intro _ f hf
      exact .done Action.deliver _
  | cons e rest ih =>
      intro he f hf
      have hrest := ih fun e h => he e (List.mem_cons_of_mem _ h)
      rw [evaluateInSequence, bind_assoc]
      refine .await hlow hf (he e List.mem_cons_self) fun c => ?_
      simp only [Frame.resume]
      have hnext := hrest _ (hf.after (.sequence rest) (some c))
      rw [Frame.result_some] at hnext
      exact hnext

theorem nextArgument_follows (hcall : w.Faithful k call) : ∀ (arguments : List Node),
    (∀ e ∈ arguments, w.Evaluates k call e) → ∀ (f : Frame) (called : PendingCall), IsBare f →
      w.Follows k (w.carryOut below (Pure.pure (f.nextArgument called arguments)))
        (evaluateArguments call (siteOf below).inner called arguments >>= fun called => do
          Pure.pure (.value (← call (siteOf below) called)))
        (w.landing below Action.deliver) := by
  intro arguments
  induction arguments with
  | nil =>
      intro _ f called hf
      exact .map (w.landing below Action.deliver) (hcall below f called hlow)
  | cons e rest ih =>
      intro he f called hf
      have hrest := ih fun e h => he e (List.mem_cons_of_mem _ h)
      rw [evaluateArguments, bind_assoc]
      refine .await hlow hf (he e List.mem_cons_self) fun c => ?_
      simp only [Frame.resume, Frame.result_some]
      exact hrest _ (called.with c.result) (hf.after _ _).taken

end

/-! ### Nodes

Where a node is reached, `Follows.enter` gives its frame the first turn.
-/

/-- A node is reached. -/
theorem Follows.reach {wantsReference : Bool} {ev : Eval β} (hlow : w.height ≤ below.length)
    (h : w.Follows k
      (w.carryOut below ((Frame.ofNode e wantsReference).begin (siteOf below).context wantsReference e))
      ev land) :
    w.Follows k (fun completion => Machine.push ⟨below, completion⟩ (.ofNode e wantsReference))
      (requireRoom (siteOf below) >>= fun _ => ev) land :=
  (Follows.enter (f := .ofNode e wantsReference) hlow h).of_le (Nat.le_succ k)

theorem identifier_evaluates (name : String) : w.Evaluates k call (.identifier name) := by
  intro below wantsReference hlow
  refine .reach hlow ?_
  simp only [Frame.begin]
  cases wantsReference with
  | true => exact .done Action.deliver _
  | false => exact .query fun v => .done Action.deliver _

theorem literal_evaluates (value : LiteralValue) (isRegex : Bool) :
    w.Evaluates k call (.literal value isRegex) := by
  intro below wantsReference hlow
  refine .reach hlow ?_
  simp only [Frame.begin]
  exact .query fun v => .done Action.deliver _

theorem thisValue_evaluates : w.Evaluates k call .thisValue := by
  intro below wantsReference hlow
  refine .reach hlow ?_
  simp only [Frame.begin]
  exact .done Action.deliver _

theorem functionExpression_evaluates {code : FunctionCode} (h : code.isGrammatical = true) :
    w.Evaluates k call (.functionExpression code) := by
  intro below wantsReference hlow
  refine .reach hlow ?_
  simp only [Frame.begin]
  exact .edit (Code.close_moves h _) fun id => .done Action.deliver _

theorem arrayLiteral_evaluates {elements : List (Option Node)}
    (h : ∀ e, some e ∈ elements → w.Evaluates k call e) :
    w.Evaluates k call (.arrayLiteral elements) := by
  intro below wantsReference hlow
  refine .reach hlow ?_
  simp only [Frame.begin]
  exact .edit (Store.allocArray_moves _) fun array =>
    nextElement_follows hlow array elements h 0 _ ⟨rfl, rfl⟩

theorem objectLiteral_evaluates {entries : List (Entry Node)}
    (h : ∀ entry ∈ entries, w.Evaluates k call entry.value) :
    w.Evaluates k call (.objectLiteral entries) := by
  intro below wantsReference hlow
  refine .reach hlow ?_
  simp only [Frame.begin]
  exact .edit Store.allocPlain_moves fun object =>
    nextEntry_follows hlow object entries h _ ⟨rfl, rfl⟩

variable {left right target value operand test consequent alternate object property : Node}

theorem binary_evaluates (op : BinaryOp) (hleft : w.Evaluates k call left)
    (hright : w.Evaluates k call right) : w.Evaluates k call (.binary op left right) := by
  intro below wantsReference hlow
  refine .reach hlow ?_
  simp only [Frame.begin]
  refine .await hlow ⟨rfl, rfl⟩ hleft fun l => ?_
  simp only [Frame.resume, Frame.result_some]
  refine .await hlow ⟨rfl, rfl⟩ hright fun r => ?_
  simp only [Frame.resume, Frame.result_some]
  exact .query fun v => .done Action.deliver _

theorem logical_evaluates (op : LogicalOp) (hleft : w.Evaluates k call left)
    (hright : w.Evaluates k call right) : w.Evaluates k call (.logical op left right) := by
  intro below wantsReference hlow
  refine .reach hlow ?_
  simp only [Frame.begin]
  refine .await hlow ⟨rfl, rfl⟩ hleft fun l => ?_
  simp only [Frame.resume, Frame.result_some]
  refine .query fun decided => ?_
  cases decided with
  | true => exact .done Action.deliver _
  | false =>
      refine .await hlow ⟨rfl, rfl⟩ hright fun r => ?_
      simp only [Frame.resume, Frame.result_some]
      exact .done Action.deliver _

theorem assignment_evaluates (op : AssignmentOp) (htarget : w.Evaluates k call target)
    (hvalue : w.Evaluates k call value) : w.Evaluates k call (.assignment op target value) := by
  intro below wantsReference hlow
  refine .reach hlow ?_
  simp only [Frame.begin]
  refine .await hlow ⟨rfl, rfl⟩ htarget fun t => ?_
  simp only [Frame.resume, Frame.target_some]
  refine .query fun place => .query fun current => ?_
  refine .await hlow ⟨rfl, rfl⟩ hvalue fun new => ?_
  simp only [Frame.resume, Frame.result_some]
  exact .query fun v => .edit ((Reference.write_cutsLast _ (Reference.keyedBy_any _) _).moves trivial)
    fun _ => .done Action.deliver _

theorem update_evaluates (op : UpdateOp) (leading : Bool) (htarget : w.Evaluates k call target) :
    w.Evaluates k call (.update op leading target) := by
  intro below wantsReference hlow
  refine .reach hlow ?_
  simp only [Frame.begin]
  refine .await hlow ⟨rfl, rfl⟩ htarget fun t => ?_
  simp only [Frame.resume, Frame.target_some]
  exact .query fun place =>
    .edit ((UpdateOp.perform_cutsLast _ _ _ (Reference.keyedBy_any _)).moves trivial) fun v =>
      .done Action.deliver _

theorem unary_evaluates (op : UnaryOp) (hoperand : w.Evaluates k call operand) :
    w.Evaluates k call (.unary op operand) := by
  intro below wantsReference hlow
  refine .reach hlow ?_
  simp only [Frame.begin]
  refine .await hlow ⟨rfl, rfl⟩ hoperand fun x => ?_
  simp only [Frame.resume]
  exact .edit (UnaryOp.perform_moves _ _ _) fun v => .done Action.deliver _

theorem conditional_evaluates (htest : w.Evaluates k call test)
    (hconsequent : w.Evaluates k call consequent) (halternate : w.Evaluates k call alternate) :
    w.Evaluates k call (.conditional test consequent alternate) := by
  intro below wantsReference hlow
  refine .reach hlow ?_
  simp only [Frame.begin]
  refine .await hlow ⟨rfl, rfl⟩ htest fun t => ?_
  simp only [Frame.resume, Frame.result_some]
  by_cases hholds : t.result.truthy = true
  · rw [if_pos hholds, if_pos hholds]
    exact hconsequent below false hlow
  · rw [if_neg hholds, if_neg hholds]
    exact halternate below false hlow

theorem member_evaluates (computed : Bool) (hobject : w.Evaluates k call object)
    (hproperty : w.Evaluates k call property) :
    w.Evaluates k call (.member computed object property) := by
  intro below wantsReference hlow
  refine .reach hlow ?_
  simp only [Frame.begin]
  refine .await hlow ⟨rfl, rfl⟩ hobject fun base => ?_
  simp only [Frame.resume, Frame.result_some]
  cases computed with
  | true =>
      refine .await hlow ⟨rfl, rfl⟩ hproperty fun key => ?_
      simp only [Frame.resume, Frame.result_some]
      refine .edit (.ask _) fun key => ?_
      rw [← bind_pure (liftM (Edit.query _))]
      exact .query fun c => .done Action.deliver _
  | false =>
      refine .query fun key => ?_
      rw [← bind_pure (liftM (Edit.query _))]
      exact .query fun c => .done Action.deliver _

theorem sequence_evaluates {expressions : List Node}
    (h : ∀ e ∈ expressions, w.Evaluates k call e) : w.Evaluates k call (.sequence expressions) := by
  intro below wantsReference hlow
  refine .reach hlow ?_
  simp only [Frame.begin]
  exact nextInSequence_follows hlow expressions h _ ⟨rfl, rfl⟩

/-- Calls, and the same with `new`. -/
theorem callee_follows (hcall : w.Faithful k call) {callee : Node} {arguments : List Node}
    (constructs : Bool) (hlow : w.height ≤ below.length) (hf : IsBare f)
    (hcallee : w.Evaluates k call callee) (harguments : ∀ e ∈ arguments, w.Evaluates k call e) :
    w.Follows k (w.carryOut below (Pure.pure (f.awaitReference (.callee constructs arguments) callee)))
      (do
        let called ← beginCall (siteOf below).scope constructs
          (some (← callee.evaluate call (siteOf below).inner true))
        return .value (← call (siteOf below)
          (← evaluateArguments call (siteOf below).inner called arguments)))
      (w.landing below Action.deliver) := by
  refine .await hlow hf hcallee fun c => ?_
  simp only [Frame.resume]
  exact .edit (beginCall_moves _ _ _) fun called =>
    nextArgument_follows hlow hcall arguments harguments _ called (hf.after _ _).taken

theorem call_evaluates (hcall : w.Faithful k call) {callee : Node} {arguments : List Node}
    (hcallee : w.Evaluates k call callee) (harguments : ∀ e ∈ arguments, w.Evaluates k call e) :
    w.Evaluates k call (.call callee arguments) := by
  intro below wantsReference hlow
  refine .reach hlow ?_
  simp only [Frame.begin]
  exact callee_follows hcall false hlow ⟨rfl, rfl⟩ hcallee harguments

theorem construct_evaluates (hcall : w.Faithful k call) {callee : Node} {arguments : List Node}
    (hcallee : w.Evaluates k call callee) (harguments : ∀ e ∈ arguments, w.Evaluates k call e) :
    w.Evaluates k call (.construct callee arguments) := by
  intro below wantsReference hlow
  refine .reach hlow ?_
  simp only [Frame.begin]
  exact callee_follows hcall true hlow ⟨rfl, rfl⟩ hcallee harguments

theorem unsupported_evaluates : w.Evaluates k call .unsupported := by
  intro below wantsReference hlow
  refine .reach hlow ?_
  simp only [Frame.begin]
  exact .fails _

/-! ### All expressions -/

mutual

/-- **The machine follows the evaluation of every expression**, if it follows the calls. -/
theorem evaluates (hcall : w.Faithful k call) (e : Node) (he : e.isExpression = true) :
    w.Evaluates k call e := by
  cases e with
  | identifier name => exact identifier_evaluates name
  | literal value isRegex => exact literal_evaluates value isRegex
  | thisValue => exact thisValue_evaluates
  | unsupported => exact unsupported_evaluates
  | functionExpression code =>
      rw [Node.isExpression_functionExpression] at he
      exact functionExpression_evaluates he
  | arrayLiteral elements => exact arrayLiteral_evaluates (elements_evaluate hcall elements he)
  | objectLiteral entries => exact objectLiteral_evaluates (entries_evaluate hcall entries he)
  | binary op left right =>
      simp only [Node.isExpression, Bool.and_eq_true] at he
      exact binary_evaluates op (evaluates hcall left he.1) (evaluates hcall right he.2)
  | logical op left right =>
      simp only [Node.isExpression, Bool.and_eq_true] at he
      exact logical_evaluates op (evaluates hcall left he.1) (evaluates hcall right he.2)
  | assignment op target value =>
      simp only [Node.isExpression, Bool.and_eq_true] at he
      exact assignment_evaluates op (evaluates hcall target he.1) (evaluates hcall value he.2)
  | update op leading target => exact update_evaluates op leading (evaluates hcall target he)
  | unary op operand => exact unary_evaluates op (evaluates hcall operand he)
  | conditional test consequent alternate =>
      simp only [Node.isExpression, Bool.and_eq_true] at he
      exact conditional_evaluates (evaluates hcall test he.1) (evaluates hcall consequent he.2.1)
        (evaluates hcall alternate he.2.2)
  | call callee arguments =>
      simp only [Node.isExpression, Bool.and_eq_true] at he
      exact call_evaluates hcall (evaluates hcall callee he.1)
        (expressions_evaluate hcall arguments he.2)
  | construct callee arguments =>
      simp only [Node.isExpression, Bool.and_eq_true] at he
      exact construct_evaluates hcall (evaluates hcall callee he.1)
        (expressions_evaluate hcall arguments he.2)
  | member computed object property =>
      simp only [Node.isExpression, Bool.and_eq_true] at he
      exact member_evaluates computed (evaluates hcall object he.1) (evaluates hcall property he.2)
  | sequence expressions => exact sequence_evaluates (expressions_evaluate hcall expressions he)
  | _ => cases he

theorem expressions_evaluate (hcall : w.Faithful k call) (expressions : List Node)
    (h : areExpressions expressions = true) :
    ∀ e ∈ expressions, w.Evaluates k call e := by
  cases expressions with
  | nil => intro e he; cases he
  | cons first rest =>
      simp only [areExpressions, Bool.and_eq_true] at h
      intro e he
      rcases List.mem_cons.mp he with hfirst | he
      · rw [hfirst]
        exact evaluates hcall first h.1
      · exact expressions_evaluate hcall rest h.2 e he

theorem elements_evaluate (hcall : w.Faithful k call) (elements : List (Option Node))
    (h : areElements elements = true) :
    ∀ e, some e ∈ elements → w.Evaluates k call e := by
  cases elements with
  | nil => intro e he; cases he
  | cons first rest =>
      simp only [areElements, Bool.and_eq_true] at h
      intro e he
      rcases List.mem_cons.mp he with hfirst | he
      · cases first with
        | none => cases hfirst
        | some node =>
            rw [Option.some.inj hfirst]
            exact evaluates hcall node h.1
      · exact elements_evaluate hcall rest h.2 e he

theorem entries_evaluate (hcall : w.Faithful k call) (entries : List (Entry Node))
    (h : areEntries entries = true) :
    ∀ entry ∈ entries, w.Evaluates k call entry.value := by
  cases entries with
  | nil => intro entry he; cases he
  | cons first rest =>
      rcases first with ⟨kind, computed, key, value⟩
      simp only [areEntries, Bool.and_eq_true] at h
      intro entry he
      rcases List.mem_cons.mp he with hfirst | he
      · rw [hfirst]
        exact evaluates hcall value h.1
      · exact entries_evaluate hcall rest h.2 entry he

end

/-! ### Calls of native functions -/

end Machine.Setting

namespace Machine

end Machine

end Stepwise
