/-
What a stack refers to.

Frames hold objects: the scope that opens in them, the receiver, the value that a child has
handed down, and in what is left to do the parts that are there already, such as a left
operand, the array under construction or the names still to visit.  A frame is known to a
heap if all of these are objects of the heap, and the scope is a scope.

A known frame whose turn it is keeps the heap intact and ends with a known action, and so
does a step of a known machine, to whatever depth it runs others within it.
-/
import Stepwise.Proofs.Instants
import Stepwise.Proofs.Jumps
import Stepwise.Proofs.Keeping

namespace Stepwise

/-! ### Known frames -/

/-- The place is a variable, or a property of something known. -/
def Reference.Known (s : Heap) : Reference → Prop
  | .variable _ => True
  | .property base _ => s.Knows base

def Completion.Known (s : Heap) : Completion → Prop
  | .value v => s.Knows v
  | .reference r => r.Known s

structure PendingCall.Known (s : Heap) (call : PendingCall) : Prop where
  callee : s.Has call.callee
  receiver : s.Knows call.receiver
  constructed : ∀ v, call.constructed = some v → s.Knows v
  arguments : s.KnowsAll call.arguments.toList

structure Enumeration.Known (s : Heap) (names : Enumeration) : Prop where
  target : names.target.Known s
  queue : ∀ queued ∈ names.queue, ∀ owner, queued.1 = some owner → s.Has owner
  chain : ∀ id ∈ names.chain, s.Has id

/-- What is left to do refers to known things only. -/
def Work.Known (s : Heap) : Work → Prop
  | .forInObject target _ => target.Known s
  | .forInNext names _ => names.Known s
  | .element array _ _ => s.Has array
  | .entry object _ _ => s.Has object
  | .right _ v => s.Knows v
  | .assignValue target current => target.Known s ∧ ∀ c, current = some c → s.Knows c.2
  | .memberKey base _ => s.Knows base
  | .argument call _ => call.Known s
  | .running constructed => ∀ v, constructed = some v → s.Knows v
  | _ => True

structure Frame.Known (s : Heap) (f : Frame) : Prop where
  work : f.work.Known s
  value : ∀ c, f.value = some c → c.Known s
  scope : ∀ id, f.scope = some id → s.IsScope id
  receiver : ∀ v, f.receiver = some v → s.Knows v

structure Context.Known (s : Heap) (c : Context) : Prop where
  scope : s.IsScope c.scope
  receiver : s.Knows c.receiver

def Action.Known (s : Heap) : Action → Prop
  | .await f child => f.Known s ∧ child.Known s
  | .invoke f call => f.Known s ∧ call.Known s
  | .become f | .again f => f.Known s
  | .deliver c => c.Known s
  | .complete v | .returnWith v => s.Knows v
  | .leave | .breakTo _ | .continueAt _ => True

structure Machine.Known (s : Heap) (m : Machine) : Prop where
  frames : ∀ f ∈ m.frames, f.Known s
  completion : s.Knows m.completion

section

variable {s s' : Heap} (hgrows : s.Grows s')

include hgrows

theorem Reference.Known.mono {r : Reference} (h : r.Known s) : r.Known s' := by
  rcases r with name | ⟨base, key⟩
  · trivial
  · exact hgrows.knows h

theorem Completion.Known.mono {c : Completion} (h : c.Known s) : c.Known s' := by
  cases c with
  | value v => exact hgrows.knows h
  | reference r => exact Reference.Known.mono hgrows h

theorem PendingCall.Known.mono {call : PendingCall} (h : call.Known s) : call.Known s' where
  callee := hgrows.has h.callee
  receiver := hgrows.knows h.receiver
  constructed := fun v hv => hgrows.knows (h.constructed v hv)
  arguments := hgrows.knowsAll h.arguments

theorem Enumeration.Known.mono {names : Enumeration} (h : names.Known s) : names.Known s' where
  target := h.target.mono hgrows
  queue := fun queued hqueued owner howner => hgrows.has (h.queue queued hqueued owner howner)
  chain := fun id hid => hgrows.has (h.chain id hid)

theorem Work.Known.mono {work : Work} (h : work.Known s) : work.Known s' := by
  cases work with
  | forInObject target body => exact Reference.Known.mono hgrows h
  | forInNext names body => exact Enumeration.Known.mono hgrows h
  | element array index rest => exact hgrows.has h
  | entry object key rest => exact hgrows.has h
  | right op left => exact hgrows.knows h
  | assignValue target current => exact ⟨h.1.mono hgrows, fun c hc => hgrows.knows (h.2 c hc)⟩
  | memberKey base wantsReference => exact hgrows.knows h
  | argument call rest => exact PendingCall.Known.mono hgrows h
  | running constructed => exact fun v hv => hgrows.knows (h v hv)
  | _ => trivial

theorem Frame.Known.mono {f : Frame} (h : f.Known s) : f.Known s' where
  work := h.work.mono hgrows
  value := fun c hc => (h.value c hc).mono hgrows
  scope := fun id hid => hgrows.isScope (h.scope id hid)
  receiver := fun v hv => hgrows.knows (h.receiver v hv)

theorem Machine.Known.mono {m : Machine} (h : m.Known s) : m.Known s' where
  frames := fun f hf => (h.frames f hf).mono hgrows
  completion := hgrows.knows h.completion

end

variable {roots : List ObjectId} {s : Heap}

theorem PendingCall.Known.more {call : PendingCall} (h : call.Known s) {v : Value} (hv : s.Knows v) :
    (call.with v).Known s := by
  refine ⟨h.callee, h.receiver, h.constructed, fun x hx => ?_⟩
  have hpush : (call.with v).arguments.toList = call.arguments.toList ++ [v] := Array.toList_push
  rw [hpush] at hx
  rcases List.mem_append.mp hx with hx | hx
  · exact h.arguments x hx
  · rw [List.mem_singleton.mp hx]
    exact hv

namespace Frame

variable {f : Frame}

theorem Known.withWork (h : f.Known s) {work : Work} (hwork : work.Known s) :
    ({ f with work } : Frame).Known s := ⟨hwork, h.value, h.scope, h.receiver⟩

theorem Known.taken (h : f.Known s) : f.taken.Known s :=
  ⟨h.work, nofun, h.scope, h.receiver⟩

theorem Known.result (h : f.Known s) : s.Knows f.result := by
  unfold Frame.result
  split
  · rename_i v hv
    exact h.value _ hv
  · exact Heap.knows_of_isPrimitive rfl

theorem Known.target (h : f.Known s) {r : Reference} (hr : f.target = .ok r) : r.Known s := by
  unfold Frame.target at hr
  split at hr
  · rename_i r' hr'
    cases hr
    exact h.value _ hr'
  · cases hr

theorem Known.scopeIn (h : f.Known s) {c : Context} (hc : c.Known s) :
    s.IsScope (f.scopeIn c) := by
  unfold Frame.scopeIn
  cases hscope : f.scope with
  | none => exact hc.scope
  | some id => exact h.scope id hscope

theorem ofNode_known (node : Node) (wantsReference : Bool) : (ofNode node wantsReference).Known s :=
  ⟨trivial, nofun, nofun, nofun⟩

theorem opening_known (node : Node) {scope : ObjectId} {receiver : Value} (hscope : s.IsScope scope)
    (hreceiver : s.Knows receiver) : (opening node scope receiver).Known s := by
  refine ⟨trivial, nofun, fun id hid => ?_, fun v hv => ?_⟩
  · cases hid
    exact hscope
  · cases hv
    exact hreceiver

/-! ### Known actions -/

theorem Known.await (h : f.Known s) (work : Work) (hwork : work.Known s) (child : Node)
    (wantsReference : Bool) : (f.await work child wantsReference).Known s :=
  ⟨h.withWork hwork, ofNode_known child wantsReference⟩

theorem Known.awaitIfAny (h : f.Known s) (work : Work) (hwork : work.Known s) (child : Option Node) :
    (f.awaitIfAny work child).Known s := by
  cases child with
  | some child => exact h.await work hwork child false
  | none => exact h.withWork hwork

theorem Known.nextStatement (h : f.Known s) (ofProgram : Bool) (rest : List Node) :
    (f.nextStatement ofProgram rest).Known s := by
  cases rest with
  | nil => exact Heap.knows_of_isPrimitive rfl
  | cons node rest => exact h.taken.await (.statements ofProgram rest) trivial node false

theorem Known.nextDeclarator (h : f.Known s) (rest : List Node) :
    (f.nextDeclarator rest).Known s := by
  cases rest with
  | nil => trivial
  | cons node rest => exact h.await (.declarators rest) trivial node false

theorem Known.nextInSequence (h : f.Known s) (rest : List Node) :
    (f.nextInSequence rest).Known s := by
  cases rest with
  | nil => exact h.result
  | cons node rest => exact h.await (.sequence rest) trivial node false

theorem Known.nextArgument (h : f.Known s) {call : PendingCall} (hcall : call.Known s)
    (rest : List Node) : (f.nextArgument call rest).Known s := by
  cases rest with
  | nil => exact ⟨h, hcall⟩
  | cons node rest => exact h.await (.argument call rest) hcall node false

theorem runBranch_known (f : Frame) (branch : Option Node) : (f.runBranch branch).Known s := by
  cases branch with
  | none => trivial
  | some node =>
      exact ⟨trivial, nofun, nofun, nofun⟩

theorem Known.runBody (h : f.Known s) (holds : Bool) (work : Work) (hwork : work.Known s)
    (body : Node) : (f.runBody holds work body).Known s := by
  cases holds with
  | true => exact h.await work hwork body false
  | false => trivial

/-! ### Turns -/

theorem nextElement_keeps (h : f.Known s) {array : ObjectId} (harray : s.Has array) :
    ∀ (elements : List (Option Node)) (index : Nat),
      (f.nextElement array index elements).Keeps roots s Action.Known := by
  intro elements
  induction elements with
  | nil =>
      intro index
      refine .bind (Store.setLength_keeps _ _) fun _ s' hgrows _ => .pure ?_
      exact Heap.knows_object.mpr (hgrows.has harray)
  | cons element rest ih =>
      intro index
      cases element with
      | none => exact ih (index + 1)
      | some e => exact .pure (h.await (.element array index rest) harray e false)

theorem nextEntry_keeps (h : f.Known s) {object : ObjectId} (hobject : s.Has object)
    (entries : List (Entry Node)) : (f.nextEntry object entries).Keeps roots s Action.Known := by
  cases entries with
  | nil => exact .pure (Heap.knows_object.mpr hobject)
  | cons entry rest =>
      refine .query_bind fun _ key _ => ?_
      exact .pure (h.await (.entry object key rest) hobject entry.value false)

end Frame

namespace Enumeration

theorem start_known (hs : s.Intact roots) {target : Reference} {v : Value}
    (htarget : target.Known s) (hv : s.Knows v) : (start s target v).Known s := by
  unfold start
  split
  · refine ⟨htarget, fun queued hqueued owner howner => ?_, Heap.chain_has hs hv⟩
    obtain ⟨key, -, rfl⟩ := List.mem_map.mp hqueued
    cases howner
  · exact ⟨htarget, nofun, Heap.chain_has hs hv⟩
  · exact ⟨htarget, nofun, nofun⟩

theorem queueOf_has {seen : List Key} {id : ObjectId} (hid : s.Has id) :
    ∀ queued ∈ queueOf s seen id, ∀ owner, queued.1 = some owner → s.Has owner := by
  intro queued hqueued owner howner
  obtain ⟨entry, -, rfl⟩ := List.mem_map.mp hqueued
  cases howner
  exact hid

theorem nextFrom_known {target : Reference} (htarget : target.Known s) :
    ∀ {chain : List ObjectId} {queue : List (Option ObjectId × Key)} {seen : List Key}
      {next : Key × Enumeration},
      (∀ queued ∈ queue, ∀ owner, queued.1 = some owner → s.Has owner) →
      (∀ id ∈ chain, s.Has id) → nextFrom s target queue chain seen = some next →
        next.2.Known s := by
  -- a key that is still there is taken off the queue, and the objects to come stay
  have htaken {queue rest : List (Option ObjectId × Key)} {queued : Option ObjectId × Key}
      {chain : List ObjectId} {seen : List Key}
      (hqueue : ∀ queued ∈ queue, ∀ owner, queued.1 = some owner → s.Has owner)
      (hchain : ∀ id ∈ chain, s.Has id)
      (hrest : queue.dropWhile (fun queued => !isPresent s queued) = queued :: rest) :
      (⟨target, rest, chain, seen⟩ : Enumeration).Known s := by
    have hsublist := List.dropWhile_sublist (l := queue) fun queued => !isPresent s queued
    rw [hrest] at hsublist
    refine ⟨htarget, fun later hlater => hqueue later ?_, hchain⟩
    exact hsublist.subset (List.mem_cons_of_mem _ hlater)
  intro chain
  induction chain with
  | nil =>
      intro queue seen next hqueue hchain h
      unfold nextFrom at h
      split at h
      · rename_i hrest
        cases h
        exact htaken hqueue hchain hrest
      · cases h
  | cons id rest ih =>
      intro queue seen next hqueue hchain h
      unfold nextFrom at h
      split at h
      · rename_i hrest
        cases h
        exact htaken hqueue hchain hrest
      · obtain ⟨hid, hrest⟩ := List.forall_mem_cons.mp hchain
        exact ih (queueOf_has hid) hrest h

theorem Known.next {names : Enumeration} (h : names.Known s) {next : Key × Enumeration}
    (hnext : names.next? s = some next) : next.2.Known s :=
  nextFrom_known h.target h.queue h.chain hnext

end Enumeration

theorem memberOf_known (hs : s.Intact roots) {base : Value} {key : Key} {wantsReference : Bool}
    {c : Completion} (hbase : s.Knows base) (h : memberOf s base key wantsReference = .ok c) :
    c.Known s := by
  unfold memberOf at h
  split at h
  · cases h
    exact hbase
  · obtain ⟨v, hv, h⟩ := exists_of_bind_eq_ok h
    cases h
    exact Heap.getProperty_knows hs hv

theorem calleeOf_knows (hs : s.Intact roots) {scope : ObjectId} {completion : Option Completion}
    {found : Value × Value × String} (hcompletion : ∀ c, completion = some c → c.Known s)
    (h : calleeOf s scope completion = .ok found) : s.Knows found.1 ∧ s.Knows found.2.1 := by
  have hglobal : s.Knows (.object Intrinsic.globalScope) :=
    Heap.knows_object.mpr hs.globalScope.has
  rcases completion with - | ⟨v | ⟨name | ⟨base, key⟩⟩⟩
  · cases h
    exact ⟨Heap.knows_of_isPrimitive rfl, hglobal⟩
  · cases h
    exact ⟨hcompletion _ rfl, hglobal⟩
  · obtain ⟨v, hv, h⟩ := exists_of_bind_eq_ok h
    cases h
    exact ⟨Heap.lookup_knows hs hv, hglobal⟩
  · obtain ⟨v, hv, h⟩ := exists_of_bind_eq_ok h
    cases h
    exact ⟨Heap.getProperty_knows hs hv, hcompletion _ rfl⟩

/-- What is called is an object of the heap, and its receiver is known. -/
theorem calledFunction_knows (hs : s.Intact roots) {scope : ObjectId} {constructs : Bool}
    {completion : Option Completion} {called : ObjectId × Value}
    (hcompletion : ∀ c, completion = some c → c.Known s)
    (h : calledFunction s scope constructs completion = .ok called) :
    s.Has called.1 ∧ s.Knows called.2 := by
  obtain ⟨⟨callee, receiver, name⟩, hfound, h⟩ := exists_of_bind_eq_ok h
  obtain ⟨hcallee, hreceiver⟩ := calleeOf_knows hs hcompletion hfound
  dsimp only at h
  split at h
  · split at h
    · cases h
      exact ⟨Heap.knows_object.mp hcallee, hreceiver⟩
    · cases h
  · cases h

theorem beginCall_keeps (scope : ObjectId) (constructs : Bool) {completion : Option Completion}
    (hcompletion : ∀ c, completion = some c → c.Known s) :
    (beginCall scope constructs completion).Keeps roots s fun s' call => call.Known s' := by
  refine .query_bind fun hs called hcalled => ?_
  obtain ⟨hcallee, hreceiver⟩ := calledFunction_knows hs hcompletion hcalled
  rcases called with ⟨callee, receiver⟩
  dsimp only
  split
  · refine .bind (Store.allocInstance_keeps fun _ p hp => ?_) fun made s' hgrows hmade => .pure ?_
    · cases hp
      exact hcallee
    · have hmade := Heap.knows_object.mpr hmade.1
      refine ⟨hgrows.has hcallee, hmade, fun v hv => ?_, nofun⟩
      cases hv
      exact hmade
  · exact .pure ⟨hcallee, hreceiver, nofun, nofun⟩

/-! ### Turns of frames -/

namespace Frame

variable {f : Frame} {c : Context}

theorem nextName_keeps (h : f.Known s) {names : Enumeration} (hnames : names.Known s) (c : Context)
    (body : Node) : (f.nextName c names body).Keeps roots s Action.Known := by
  refine .ask_bind fun _ => ?_
  split
  · exact .pure trivial
  · rename_i key next hnext
    have hnext : next.Known s := hnames.next hnext
    refine .bind (Reference.write_keeps _ _ (Heap.knows_of_isPrimitive rfl)) fun _ s' hgrows _ => ?_
    exact .pure ((h.mono hgrows).await (.forInNext next body) (hnext.mono hgrows) body false)

private theorem begin_keeps (h : f.Known s) (hc : c.Known s) (n : Node) (wantsReference : Bool) :
    (f.begin c wantsReference n).Keeps roots s Action.Known := by
  have hundefined : s.Knows .undefined := Heap.knows_of_isPrimitive rfl
  cases n with
  | program body => exact .pure (h.nextStatement true body)
  | block body => exact .pure (h.nextStatement false body)
  | expressionStatement e => exact .pure (h.await .expression trivial e false)
  | variableDeclaration kind declarators => exact .pure (h.nextDeclarator declarators)
  | variableDeclarator name init =>
      cases init with
      | some e => exact .pure (h.await (.initializer name) trivial e false)
      | none => exact .pure trivial
  | functionDeclaration code => exact .pure trivial
  | ifStatement test consequent alternate =>
      exact .pure (h.await (.branch consequent alternate) trivial test false)
  | forStatement init test update body => exact .pure (h.awaitIfAny (.forTest _) trivial init)
  | forInStatement target object body =>
      unfold begin
      dsimp only
      split
      · exact .pure (h.await (.forInObject (.variable _) body) trivial object false)
      · exact .pure (h.await (.forInTarget object body) trivial target true)
  | whileStatement test body => exact .pure (h.await (.whileTest test body) trivial test false)
  | doWhileStatement test body => exact .pure (h.await (.doBody body test) trivial body false)
  | breakStatement label => exact .pure trivial
  | continueStatement label => exact .pure trivial
  | returnStatement argument =>
      cases argument with
      | some e => exact .pure (h.await .returnValue trivial e false)
      | none => exact .pure hundefined
  | throwStatement e => exact .pure (h.await .throwValue trivial e false)
  | labeled label body => exact .pure ⟨trivial, nofun, nofun, nofun⟩
  | empty => exact .pure trivial
  | unsupported => exact .throw _
  | identifier name =>
      cases wantsReference with
      | true => exact .pure trivial
      | false => exact .query_bind fun hs v hv => .pure (Heap.lookup_knows hs hv)
  | literal value isRegex =>
      refine .query_bind fun _ v hv => .pure (Heap.knows_of_isPrimitive ?_)
      unfold LiteralValue.toValue at hv
      split at hv
      · cases hv
      · split at hv <;> cases hv <;> rfl
  | thisValue => exact .pure hc.receiver
  | functionExpression code =>
      refine .bind (Code.close_keeps code (h.scopeIn hc)) fun id s' _ hid => .pure ?_
      exact Heap.knows_object.mpr hid
  | arrayLiteral elements =>
      refine .bind (Store.allocArray_keeps nofun) fun array s' hgrows harray => ?_
      exact nextElement_keeps (h.mono hgrows) harray elements 0
  | objectLiteral entries =>
      refine .bind Store.allocPlain_keeps fun object s' hgrows hobject => ?_
      exact nextEntry_keeps (h.mono hgrows) hobject entries
  | binary op left right => exact .pure (h.await (.left op right) trivial left false)
  | logical op left right => exact .pure (h.await (.logicalLeft op right) trivial left false)
  | assignment op target value => exact .pure (h.await (.assignTarget op value) trivial target true)
  | update op leading target => exact .pure (h.await (.update op leading) trivial target true)
  | unary op operand => exact .pure (h.await (.operand op) trivial operand _)
  | conditional test consequent alternate =>
      exact .pure (h.await (.choice consequent alternate) trivial test false)
  | call callee arguments => exact .pure (h.await (.callee false arguments) trivial callee true)
  | construct callee arguments => exact .pure (h.await (.callee true arguments) trivial callee true)
  | member computed object property =>
      exact .pure (h.await (.memberObject computed property wantsReference) trivial object false)
  | sequence expressions => exact .pure (h.nextInSequence expressions)

private theorem currentOf_knows (hs : s.Intact roots) {scope : ObjectId} {op : AssignmentOp}
    {target : Reference} {current : Option (BinaryOp × Value)}
    (h : op.currentOf s scope target = .ok current) : ∀ old, current = some old → s.Knows old.2 := by
  intro old hold
  cases op with
  | combine op =>
      obtain ⟨v, hv, h⟩ := exists_of_bind_eq_ok h
      cases h
      cases hold
      exact Reference.read_knows hs hv
  | plain =>
      cases h
      cases hold
  | unknown token => cases h

private theorem assigned_knows {current : Option (BinaryOp × Value)} {v r : Value}
    (hv : s.Knows v) (h : assigned s current v = .ok r) : s.Knows r := by
  cases current with
  | none =>
      cases h
      exact hv
  | some current => exact Heap.knows_of_isPrimitive (Heap.binary_isPrimitive h)

/-- What a call delivers is what was constructed, or the result. -/
theorem outcome_knows {constructed : Option Value} {result : Value}
    (hconstructed : ∀ v, constructed = some v → s.Knows v) (hresult : s.Knows result) :
    s.Knows (outcome constructed result) := by
  unfold outcome
  split
  · exact hresult
  · exact hconstructed _ rfl
  · exact hresult

/-- **A known frame whose turn it is keeps the heap intact**, and ends with a known action. -/
theorem resume_keeps (h : f.Known s) (hc : c.Known s) : (f.resume c).Keeps roots s Action.Known := by
  have hresult := h.result
  rcases f with ⟨work, value, scope, receiver, labels⟩
  cases work with
  | node n wantsReference => exact begin_keeps h hc n wantsReference
  | statements ofProgram rest => exact .pure (h.nextStatement ofProgram rest)
  | expression => exact .pure hresult
  | declarators rest => exact .pure (h.nextDeclarator rest)
  | initializer name => exact .bind (Store.assign_keeps _ _ hresult) fun _ _ _ _ => .pure trivial
  | branch consequent alternate => exact .pure (runBranch_known _ _)
  | forTest loop => exact .pure (h.taken.awaitIfAny (.forBody loop) trivial loop.test)
  | forBody loop =>
      refine .pure ?_
      split
      · exact h.taken.runBody _ (.forUpdate loop) trivial loop.body
      · exact h.runBody _ (.forUpdate loop) trivial loop.body
  | forUpdate loop => exact .pure (h.awaitIfAny (.forTest loop) trivial loop.update)
  | whileNext test body => exact .pure (h.await (.whileTest test body) trivial test false)
  | whileTest test body => exact .pure (h.taken.runBody _ (.whileNext test body) trivial body)
  | doBody body test => exact .pure (h.await (.doTest body test) trivial test false)
  | doTest body test => exact .pure (h.taken.runBody _ (.doBody body test) trivial body)
  | forInTarget object body =>
      refine .query_bind fun _ target htarget => .pure ?_
      exact h.taken.await (.forInObject target body) (h.target htarget) object false
  | forInObject target body =>
      refine .ask_bind fun hs => nextName_keeps h.taken ?_ c body
      exact Enumeration.start_known hs h.work hresult
  | forInNext names body => exact nextName_keeps h h.work c body
  | returnValue => exact .pure hresult
  | throwValue => exact .query fun _ _ hv => by cases hv
  | element array index rest =>
      refine .bind (Store.define_keeps _ _ hresult) fun _ s' hgrows _ => ?_
      exact nextElement_keeps (h.mono hgrows).taken (hgrows.has h.work) rest (index + 1)
  | entry object key rest =>
      refine .bind (Store.define_keeps _ _ hresult) fun _ s' hgrows _ => ?_
      exact nextEntry_keeps (h.mono hgrows).taken (hgrows.has h.work) rest
  | left op right => exact .pure (h.taken.await (.right op _) hresult right false)
  | right op left =>
      refine .query_bind fun _ v hv => .pure (Heap.knows_of_isPrimitive ?_)
      exact Heap.binary_isPrimitive hv
  | logicalLeft op right =>
      refine .query_bind fun _ decided _ => ?_
      cases decided with
      | true => exact .pure hresult
      | false => exact .pure (h.taken.await .logicalRight trivial right false)
  | logicalRight => exact .pure hresult
  | assignTarget op value =>
      refine .query_bind fun _ target htarget => .query_bind fun hs current hcurrent => .pure ?_
      have hknown := currentOf_knows hs hcurrent
      exact h.taken.await (.assignValue target current) ⟨h.target htarget, hknown⟩ value false
  | assignValue target current =>
      refine .query_bind fun _ v hv => ?_
      have hv := assigned_knows hresult hv
      exact .bind (Reference.write_keeps _ _ hv) fun _ s' hgrows _ => .pure (hgrows.knows hv)
  | update op leading =>
      refine .query_bind fun _ target _ => ?_
      exact .bind (UpdateOp.perform_keeps _ _ _ _) fun _ _ _ hv => .pure hv
  | operand op => exact .bind (UnaryOp.perform_keeps _ _ _) fun _ _ _ hv => .pure hv
  | choice consequent alternate => exact .pure (ofNode_known _ _)
  | memberObject computed property wantsReference =>
      cases computed with
      | true => exact .pure (h.taken.await (.memberKey _ wantsReference) hresult property false)
      | false =>
          refine .query_bind fun _ key _ => .query_bind fun hs place hplace => .pure ?_
          exact memberOf_known hs hresult hplace
  | memberKey base wantsReference =>
      refine .ask_bind fun _ => .query_bind fun hs place hplace => .pure ?_
      exact memberOf_known hs h.work hplace
  | sequence rest => exact .pure (h.nextInSequence rest)
  | callee constructs arguments =>
      refine .bind (beginCall_keeps _ _ h.value) fun call s' hgrows hcall => .pure ?_
      exact (h.mono hgrows).taken.nextArgument hcall arguments
  | argument call rest =>
      have hcall : call.Known s := h.work
      exact .pure (h.taken.nextArgument (hcall.more hresult) rest)
  | running constructed => exact .pure (outcome_knows h.work hresult)

end Frame

/-! ### Calls -/

/-- What a call comes to refers to known things only. -/
def Invocation.Known (s : Heap) : Invocation → Prop
  | .script _ closure receiver args => s.IsScope closure ∧ s.Knows receiver ∧ s.KnowsAll args
  | .native _ receiver args => s.Knows receiver ∧ s.KnowsAll args
  | .eval args => s.KnowsAll args

namespace Invocation

theorem receiverOf_knows (hs : s.Intact roots) {args : List Value} (h : s.KnowsAll args) :
    s.Knows (receiverOf args) := by
  unfold receiverOf
  dsimp only
  split
  · exact Heap.knows_object.mpr hs.globalScope.has
  · exact h.argument 0

theorem spread_knows (hs : s.Intact roots) {args found : List Value} (h : spread s args = .ok found) :
    s.KnowsAll found := by
  unfold spread at h
  split at h
  · exact Heap.elements_knows hs h
  · cases h
    exact nofun

theorem resolve_known (hs : s.Intact roots) :
    ∀ {fuel : Nat} {callee : ObjectId} {receiver : Value} {args : List Value} {found : Invocation},
      s.Knows receiver → s.KnowsAll args → resolve s fuel callee receiver args = .ok found →
        found.Known s := by
  intro fuel
  induction fuel with
  | zero =>
      intro callee receiver args found _ _ h
      cases h
  | succ fuel ih =>
      intro callee receiver args found hreceiver hargs h
      unfold resolve at h
      split at h
      · cases h
      · obtain ⟨target, -, h⟩ := exists_of_bind_eq_ok h
        obtain ⟨list, hlist, h⟩ := exists_of_bind_eq_ok h
        exact ih (receiverOf_knows hs hargs) (spread_knows hs hlist) h
      · obtain ⟨target, -, h⟩ := exists_of_bind_eq_ok h
        refine ih (receiverOf_knows hs hargs) (fun v hv => hargs v ?_) h
        exact List.mem_of_mem_drop hv
      · cases h
        exact ⟨hreceiver, hargs⟩
      · cases h
        exact hargs
      · rename_i code closure hcode
        cases h
        obtain ⟨o, ho, hcallable⟩ := Option.bind_eq_some_iff.mp hcode
        have hkind : o.kind = .function (.script code closure) := by
          unfold Object.callable? at hcallable
          split at hcallable <;> cases hcallable
          assumption
        have hintact := (hs.objects callee o ho).kind
        rw [hkind] at hintact
        exact ⟨hintact, hreceiver, hargs⟩

end Invocation

/-! ### Machines -/

namespace Machine

variable {m : Machine} {f : Frame}

theorem idle_known : idle.Known s where
  frames := fun _ hf => absurd hf List.not_mem_nil
  completion := Heap.knows_of_isPrimitive rfl

theorem Known.putBack (h : m.Known s) (hf : f.Known s) : (m.putBack f).Known s :=
  ⟨List.forall_mem_cons.mpr ⟨hf, h.frames⟩, h.completion⟩

theorem Known.deliver (h : m.Known s) {c : Completion} (hc : c.Known s) : (m.deliver c).Known s := by
  rcases m with ⟨- | ⟨f, below⟩, completion⟩
  · exact h
  · obtain ⟨hf, hbelow⟩ := List.forall_mem_cons.mp h.frames
    refine ⟨List.forall_mem_cons.mpr ⟨?_, hbelow⟩, h.completion⟩
    refine ⟨hf.work, fun c' hc' => ?_, hf.scope, hf.receiver⟩
    cases hc'
    exact hc

/-- Where no frame opens a scope, that of the globals is open. -/
theorem Known.context (hs : s.Intact roots) (h : m.Known s) : m.context.Known s := by
  constructor
  · show s.IsScope ((m.frames.findSome? Frame.scope).getD Intrinsic.globalScope)
    cases hfound : m.frames.findSome? Frame.scope with
    | none => exact hs.globalScope
    | some id =>
        obtain ⟨f, hf, hscope⟩ := List.exists_of_findSome?_eq_some hfound
        exact (h.frames f hf).scope id hscope
  · show s.Knows ((m.frames.findSome? Frame.receiver).getD (.object Intrinsic.globalScope))
    cases hfound : m.frames.findSome? Frame.receiver with
    | none => exact Heap.knows_object.mpr hs.globalScope.has
    | some v =>
        obtain ⟨f, hf, hreceiver⟩ := List.exists_of_findSome?_eq_some hfound
        exact (h.frames f hf).receiver v hreceiver

theorem Known.fallsTo (h : m.Known s) {m' : Machine} (hfalls : m.FallsTo m') : m'.Known s := by
  refine ⟨fun f hf => h.frames f (hfalls.frames.subset hf), ?_⟩
  rw [hfalls.completion]
  exact h.completion

end Machine

/-! ### Runs -/

/-- An action on a store that keeps the heap intact, and comes to something fit for it. -/
def Run.Keeps {α : Type} (roots : List ObjectId) (s : Store) (P : Heap → α → Prop) (act : Run α) :
    Prop :=
  s.toHeap.Intact roots →
    (act s).2.toHeap.Intact roots ∧ s.toHeap.Grows (act s).2.toHeap ∧
      ∀ x, (act s).1 = .ok x → P (act s).2.toHeap x

namespace Run.Keeps

variable {α β : Type} {s : Store} {P : Heap → α → Prop} {Q : Heap → β → Prop}

theorem pure {x : α} (h : P s.toHeap x) : (Pure.pure x : Run α).Keeps roots s P := by
  intro hs
  refine ⟨hs, .refl _, fun y hy => ?_⟩
  cases hy
  exact h

theorem edit {act : Edit α} (h : act.Keeps roots s.toHeap P) :
    (liftM act : Run α).Keeps roots s P := by
  intro hs
  have hact := h hs
  rcases hr : act s.toHeap with ⟨result, heap⟩
  rw [hr] at hact
  rw [Run.liftM_eq hr]
  exact hact

theorem query {f : Store → Except Failure α} (h : ∀ x, f s = .ok x → P s.toHeap x) :
    (Run.query f).Keeps roots s P := fun hs => ⟨hs, .refl _, h⟩

theorem bind {act : Run α} {next : α → Run β} (hact : act.Keeps roots s P)
    (hnext : ∀ x (s' : Store), s.toHeap.Grows s'.toHeap → P s'.toHeap x →
      (next x).Keeps roots s' Q) :
    (act >>= next).Keeps roots s Q := by
  intro hs
  obtain ⟨hs', hgrows, hresult⟩ := hact hs
  refine bind_cases (P := fun r (t : Store) => t.toHeap.Intact roots ∧ s.toHeap.Grows t.toHeap ∧
    ∀ y, r = .ok y → Q t.toHeap y) (fun e _ => ⟨hs', hgrows, fun y hy => by cases hy⟩) fun x hx => ?_
  obtain ⟨hs'', hgrows', hresult'⟩ := hnext x _ hgrows (hresult x hx) hs'
  exact ⟨hs'', hgrows.trans hgrows', hresult'⟩

theorem suspended {act : Run α} {frames : Nat} (hact : act.Keeps roots (s.nesting frames) P) :
    (Machine.suspended frames act).Keeps roots s P := fun hs => hact hs

/-- What may be relied on where the heap is intact. -/
theorem of_intact {act : Run α} (h : s.toHeap.Intact roots → act.Keeps roots s P) :
    act.Keeps roots s P := fun hs => h hs hs

end Run.Keeps

namespace Machine

/-- Nested runs keep the heap intact. -/
def RunsKeep (roots : List ObjectId) (run : NestedRun) : Prop :=
  ∀ (m : Machine) (s : Store), m.Known s.toHeap → (run m).Keeps roots s Heap.Knows

section

variable {run : NestedRun} (hrun : RunsKeep roots run) (fuel : Nat) {m : Machine} {f : Frame}
  {s : Store}

theorem push_keeps (hm : m.Known s.toHeap) (hf : f.Known s.toHeap) :
    (m.push f).Keeps roots s Machine.Known := by
  refine .query fun m' h => ?_
  split at h <;> cases h
  exact hm.putBack hf

theorem openSource_keeps {caller : Context} (hcaller : caller.Known s.toHeap) (source : String) :
    (openSource caller source).Keeps roots s Frame.Known := by
  have hprogram : (Run.query fun s => admitSource s source).Keeps roots s Heap.Anything :=
    .query fun _ _ => trivial
  refine .bind hprogram fun program s₁ hgrows₁ _ => ?_
  have hscope := hgrows₁.isScope hcaller.scope
  refine .bind (.edit (Store.allocScope_keeps hscope)) fun scope s₂ hgrows₂ hscope₂ => ?_
  refine .bind (.edit (Store.hoist_keeps _ hscope₂)) fun _ s₃ hgrows₃ _ => .pure ?_
  have hreceiver := hgrows₃.knows (hgrows₂.knows (hgrows₁.knows hcaller.receiver))
  exact Frame.opening_known _ (hgrows₃.isScope hscope₂) hreceiver

include hrun

theorem evaluateSource_keeps {caller : Context} (hcaller : caller.Known s.toHeap) (depth : Nat)
    (source : String) : (evaluateSource run caller depth source).Keeps roots s Heap.Knows := by
  rw [evaluateSource_eq]
  refine .bind (openSource_keeps hcaller source) fun g s₁ _ hg => ?_
  have hnested : (idle.push g >>= run).Keeps roots (s₁.nesting depth) Heap.Knows :=
    .bind (push_keeps idle_known hg) fun m s₂ _ hm => hrun m s₂ hm
  exact hnested.suspended

theorem evaluate_keeps {caller : Context} (hcaller : caller.Known s.toHeap) (depth : Nat)
    {args : List Value} (h : s.toHeap.KnowsAll args) :
    (evaluate run caller depth args).Keeps roots s Heap.Knows := by
  unfold evaluate
  split
  · exact .pure (Heap.knows_of_isPrimitive rfl)
  · exact evaluateSource_keeps hrun hcaller depth _
  · exact .pure (List.forall_mem_cons.mp h).1

theorem invoke_keeps (hm : m.Known s.toHeap) (hf : f.Known s.toHeap) {call : PendingCall}
    (hcall : call.Known s.toHeap) : (invoke run fuel m f call).Keeps roots s Machine.Known := by
  have hresolve : (Edit.query (call.resolve fuel)).Keeps roots s.toHeap fun s found => found.Known s :=
    .query fun hs found h => Invocation.resolve_known hs hcall.receiver hcall.arguments h
  refine .bind (.edit hresolve) fun found s₁ hgrows₁ hfound => ?_
  have hm₁ := hm.mono hgrows₁
  have hcall₁ := hcall.mono hgrows₁
  cases found with
  | native function receiver args =>
      refine .bind (.edit (function.code.call_keeps hfound.1 hfound.2)) fun v s₂ hgrows₂ hv => ?_
      have hcall₂ := hcall₁.mono hgrows₂
      exact .pure ((hm₁.mono hgrows₂).deliver (Frame.outcome_knows hcall₂.constructed hv))
  | eval args =>
      dsimp only
      split
      · exact .query fun _ h => by cases h
      · refine .of_intact fun hs => ?_
        refine .bind (evaluate_keeps hrun (hm₁.context hs) _ hfound) fun v s₂ hgrows₂ hv => ?_
        exact .pure ((hm₁.mono hgrows₂).deliver hv)
  | script code closure receiver args =>
      obtain ⟨hclosure, hreceiver, hargs⟩ := hfound
      refine .bind (.edit (activate_keeps code hclosure hargs)) fun scope s₂ hgrows₂ hscope => ?_
      have hf₂ := (hf.mono hgrows₁).mono hgrows₂
      have hwaits : ({ f with work := .running call.constructed } : Frame).Known s₂.toHeap :=
        hf₂.withWork (hcall₁.mono hgrows₂).constructed
      refine push_keeps ((hm₁.mono hgrows₂).putBack hwaits) ?_
      exact Frame.opening_known _ hscope (hgrows₂.knows hreceiver)

theorem obey_keeps (hm : m.Known s.toHeap) {a : Action} (ha : a.Known s.toHeap) :
    (obey run fuel m a).Keeps roots s Machine.Known := by
  cases a with
  | await f child => exact push_keeps (hm.putBack ha.1) ha.2
  | invoke f call => exact invoke_keeps hrun fuel hm ha.1 ha.2
  | become f => exact push_keeps hm ha
  | again f => exact .pure (hm.putBack ha)
  | deliver c => exact .pure (hm.deliver ha)
  | leave => exact .pure hm
  | complete v => exact .pure ⟨hm.frames, ha⟩
  | breakTo label => exact .query fun m' h => hm.fallsTo (breakTo_fallsTo h)
  | continueAt label => exact .query fun m' h => hm.fallsTo (continueAt_fallsTo h)
  | returnWith v =>
      refine .query fun m' h => ?_
      obtain ⟨m₁, hfalls, rfl⟩ := returnWith_fallsTo h
      exact (hm.fallsTo hfalls).deliver ha

/-- A step of a known machine keeps the heap intact, if nested runs do. -/
theorem step_keeps (hm : m.Known s.toHeap) :
    (step run fuel m).Keeps roots s fun s next => ∀ m', next = some m' → m'.Known s := by
  rcases m with ⟨- | ⟨f, below⟩, completion⟩
  · exact .pure nofun
  · obtain ⟨hf, hbelow⟩ := List.forall_mem_cons.mp hm.frames
    have hm : Machine.Known s.toHeap ⟨below, completion⟩ := ⟨hbelow, hm.completion⟩
    refine .of_intact fun hs => ?_
    have hturn : (turn run fuel ⟨below, completion⟩ f).Keeps roots s Machine.Known := by
      refine .bind (.edit (Frame.resume_keeps hf (hm.context hs))) fun a s₁ hgrows₁ ha => ?_
      exact obey_keeps hrun fuel (hm.mono hgrows₁) ha
    refine .bind hturn fun m' s₁ _ hm' => .pure fun m'' heq => ?_
    cases heq
    exact hm'

end

/-- **A nested run keeps the heap intact**, and returns what is known. -/
theorem runNested_keeps : ∀ fuel, RunsKeep roots (runNested fuel) := by
  intro fuel
  induction fuel with
  | zero => exact fun m s _ => .query fun _ h => by cases h
  | succ fuel ih =>
      intro m s hm
      refine .bind (step_keeps ih fuel hm) fun next s₁ hgrows₁ hnext => ?_
      cases next with
      | none => exact .pure (hgrows₁.knows hm.completion)
      | some m' => exact ih m' s₁ (hnext m' rfl)

end Machine

end Stepwise
