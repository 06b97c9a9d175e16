/-
The keys that frames keep.

The keys under which a script stores something come from its texts and its values, and so
they are canonical.  A key that a frame has read is kept there until something is stored
under it, by that frame or by the one below.  `Frame.KeyedBy` says of a frame that the
keys it keeps are among those of a set.  The frames of a machine stay so, if all
canonical keys are in the set.
-/
import Stepwise.Proofs.Labels

namespace Stepwise

variable {P : Key → Prop}

/-! ### Keys that are read -/

theorem Entry.toKey_isCanonical {s : Heap} {entry : Entry Node} {key : Key}
    (h : entry.toKey s = .ok key) : key.IsCanonical := by
  unfold toKey at h
  split at h
  · cases h
  · split at h
    · cases h
    · split at h
      · cases h
        exact Key.ofText_isCanonical _
      · obtain ⟨v, -, hv⟩ := exists_of_bind_eq_ok h
        cases hv
        exact s.toKey_isCanonical v
      · cases h

theorem Node.nameAfterPoint_isCanonical {node : Node} {key : Key} (h : node.nameAfterPoint = .ok key) :
    key.IsCanonical := by
  cases node <;> cases h
  exact Key.ofText_isCanonical _

theorem memberOf_keyedBy {s : Heap} {base : Value} {key : Key} {wantsReference : Bool}
    {c : Completion} (hkey : P key) (h : memberOf s base key wantsReference = .ok c) : c.KeyedBy P := by
  unfold memberOf at h
  split at h
  · cases h
    exact hkey
  · obtain ⟨v, -, hv⟩ := exists_of_bind_eq_ok h
    cases hv
    trivial

/-- A value has no key. -/
theorem Completion.KeyedBy.value (v : Value) : (Completion.value v).KeyedBy P := trivial

/-! ### Actions -/

/-- The frames that an action is about keep keys of `P` only, and so does what it hands down. -/
def Action.KeyedBy (P : Key → Prop) : Action → Prop
  | .await f child => f.KeyedBy P ∧ child.KeyedBy P
  | .invoke f _ | .become f | .again f => f.KeyedBy P
  | .deliver c => c.KeyedBy P
  | .leave | .complete _ | .breakTo _ | .continueAt _ | .returnWith _ => True

namespace Frame

variable {f : Frame}

theorem ofNode_keyedBy (node : Node) (wantsReference : Bool) : (ofNode node wantsReference).KeyedBy P :=
  ⟨trivial, nofun⟩

theorem opening_keyedBy (node : Node) (scope : ObjectId) (receiver : Value) :
    (opening node scope receiver).KeyedBy P := ⟨trivial, nofun⟩

namespace KeyedBy

theorem withWork (h : f.KeyedBy P) {work : Work} (hwork : work.KeyedBy P) :
    ({ f with work } : Frame).KeyedBy P := ⟨hwork, h.value⟩

theorem taken (h : f.KeyedBy P) : f.taken.KeyedBy P := ⟨h.work, nofun⟩

theorem await (h : f.KeyedBy P) {work : Work} (hwork : work.KeyedBy P) (child : Node)
    (wantsReference : Bool) : (f.await work child wantsReference).KeyedBy P :=
  ⟨h.withWork hwork, ofNode_keyedBy _ _⟩

theorem awaitIfAny (h : f.KeyedBy P) {work : Work} (hwork : work.KeyedBy P) (child : Option Node) :
    (f.awaitIfAny work child).KeyedBy P := by
  cases child with
  | some child => exact h.await hwork child false
  | none => exact h.withWork hwork

theorem runBranch (f : Frame) (branch : Option Node) : (f.runBranch branch).KeyedBy P := by
  cases branch with
  | some node => exact ⟨trivial, nofun⟩
  | none => trivial

theorem runBody (h : f.KeyedBy P) (holds : Bool) {work : Work} (hwork : work.KeyedBy P)
    (body : Node) : (f.runBody holds work body).KeyedBy P := by
  cases holds with
  | true => exact h.await hwork body false
  | false => trivial

theorem nextStatement (h : f.KeyedBy P) (ofProgram : Bool) (rest : List Node) :
    (f.nextStatement ofProgram rest).KeyedBy P := by
  cases rest with
  | nil => trivial
  | cons node rest => exact h.taken.await (by trivial) node false

theorem nextDeclarator (h : f.KeyedBy P) (rest : List Node) : (f.nextDeclarator rest).KeyedBy P := by
  cases rest with
  | nil => trivial
  | cons node rest => exact h.await (by trivial) node false

theorem nextInSequence (h : f.KeyedBy P) (rest : List Node) : (f.nextInSequence rest).KeyedBy P := by
  cases rest with
  | nil => trivial
  | cons node rest => exact h.await (by trivial) node false

theorem nextArgument (h : f.KeyedBy P) (call : PendingCall) (rest : List Node) :
    (f.nextArgument call rest).KeyedBy P := by
  cases rest with
  | nil => exact h
  | cons node rest => exact h.await (by trivial) node false

theorem nextElement (h : f.KeyedBy P) (array : ObjectId) :
    ∀ (elements : List (Option Node)) (index : Nat),
      Edit.Yields (Action.KeyedBy P) (f.nextElement array index elements) := by
  intro elements
  induction elements with
  | nil => exact fun index => .bind fun _ => .pure trivial
  | cons element rest ih =>
      intro index
      cases element with
      | none => exact ih (index + 1)
      | some e => exact .pure (h.await (by trivial) e false)

theorem nextName (h : f.KeyedBy P) (c : Context) {names : Enumeration} (hnames : names.target.KeyedBy P)
    (body : Node) : Edit.Yields (Action.KeyedBy P) (f.nextName c names body) := by
  refine .bind_of (Q := fun next => ∀ key rest, next = some (key, rest) → rest.target.KeyedBy P)
    (fun s next s' hnext key rest heq => ?_) fun next hnext => ?_
  · cases hnext
    rw [show rest.target = names.target from Enumeration.next?_target heq]
    exact hnames
  · split
    · exact .pure trivial
    · exact .bind fun _ => .pure (h.await (by exact hnext _ _ rfl) body false)

section

variable (hP : ∀ key : Key, key.IsCanonical → P key)

include hP

theorem nextEntry (h : f.KeyedBy P) (object : ObjectId) (entries : List (Entry Node)) :
    Edit.Yields (Action.KeyedBy P) (f.nextEntry object entries) := by
  cases entries with
  | nil => exact .pure trivial
  | cons entry rest =>
      refine .bind_of (Q := P) (.query fun s key hkey => hP key (Entry.toKey_isCanonical hkey)) fun key hkey => ?_
      exact .pure (h.await (by exact hkey) _ false)

private theorem begin (h : f.KeyedBy P) (c : Context) (wantsReference : Bool) (node : Node) :
    Edit.Yields (Action.KeyedBy P) (f.begin c wantsReference node) := by
  have hawait {work : Work} (hwork : work.KeyedBy P) (child : Node) (wantsReference : Bool) :
      Edit.Yields (Action.KeyedBy P) (Pure.pure (f.await work child wantsReference) : Edit Action) :=
    .pure (h.await hwork child wantsReference)
  cases node with
  | program body | block body => exact .pure (h.nextStatement _ body)
  | variableDeclaration kind declarators => exact .pure (h.nextDeclarator declarators)
  | variableDeclarator name init =>
      cases init with
      | some e => exact hawait (by trivial) e false
      | none => exact .pure trivial
  | forStatement init test update body => exact .pure (h.awaitIfAny (by trivial) init)
  | forInStatement target object body =>
      unfold Frame.begin
      dsimp only
      split
      · exact hawait (by trivial) object false
      · exact hawait (by trivial) target true
  | returnStatement argument =>
      cases argument with
      | some e => exact hawait (by trivial) e false
      | none => exact .pure trivial
  | labeled label body => exact .pure ⟨trivial, nofun⟩
  | unsupported => exact .throw _
  | identifier name =>
      cases wantsReference with
      | true => exact .pure trivial
      | false => exact .bind fun _ => .pure trivial
  | literal value isRegex | functionExpression code => exact .bind fun _ => .pure trivial
  | arrayLiteral elements => exact .bind fun array => h.nextElement array elements 0
  | objectLiteral entries => exact .bind fun object => h.nextEntry hP object entries
  | sequence expressions => exact .pure (h.nextInSequence expressions)
  | functionDeclaration | breakStatement | continueStatement | empty | thisValue => exact .pure trivial
  | _ => exact hawait (by trivial) _ _

/-- **What a frame does keeps to the keys**, its own and those it reads. -/
theorem resume (h : f.KeyedBy P) (c : Context) :
    Edit.Yields (Action.KeyedBy P) (f.resume c) := by
  have hwork := h.work
  have htarget : Edit.Yields (Reference.KeyedBy P) (Edit.query fun _ => f.target) :=
    .query fun _ r hr => h.target hr
  have hmember (base : Value) (key : Key) (hkey : P key) (wantsReference : Bool) :
      Edit.Yields (Completion.KeyedBy P) (Edit.query fun s => memberOf s base key wantsReference) :=
    .query fun _ _ hc => memberOf_keyedBy hkey hc
  rcases f with ⟨work, value, scope, receiver, labels⟩
  cases work with
  | node n wantsReference => exact h.begin hP c wantsReference n
  | statements ofProgram rest => exact .pure (h.nextStatement ofProgram rest)
  | declarators rest => exact .pure (h.nextDeclarator rest)
  | initializer name => exact .bind fun _ => .pure trivial
  | branch consequent alternate => exact .pure (runBranch _ _)
  | forTest loop => exact .pure (h.taken.awaitIfAny (by trivial) loop.test)
  | forBody loop =>
      refine .pure (runBody ?_ _ (by trivial) _)
      split
      · exact h.taken
      · exact h
  | forUpdate loop => exact .pure (h.awaitIfAny (by trivial) loop.update)
  | whileNext test body => exact .pure (h.await (by trivial) test false)
  | whileTest test body => exact .pure (h.taken.runBody _ (by trivial) body)
  | doBody body test => exact .pure (h.await (by trivial) test false)
  | doTest body test => exact .pure (h.taken.runBody _ (by trivial) body)
  | forInTarget object body =>
      exact .bind_of htarget fun target hkeyed => .pure (h.taken.await (by exact hkeyed) object false)
  | forInObject target body =>
      refine .bind_of (Q := fun names => names.target.KeyedBy P) (fun s names s' hnames => ?_)
        fun names hnames => h.taken.nextName c hnames body
      cases hnames
      rw [Enumeration.start_target]
      exact hwork
  | forInNext names body => exact h.nextName c hwork body
  | throwValue => exact .query fun s x hx => by cases hx
  | element array index rest => exact .bind fun _ => h.taken.nextElement array rest _
  | entry object key rest => exact .bind fun _ => h.taken.nextEntry hP object rest
  | left op right => exact .pure (h.taken.await (by trivial) right false)
  | right op left => exact .bind fun _ => .pure trivial
  | logicalLeft op right =>
      refine .bind fun decided => ?_
      cases decided with
      | true => exact .pure trivial
      | false => exact .pure (h.taken.await (by trivial) right false)
  | assignTarget op value =>
      refine .bind_of htarget fun target hkeyed => .bind fun current => ?_
      exact .pure (h.taken.await (by exact hkeyed) value false)
  | assignValue target current => exact .bind fun _ => .bind fun _ => .pure trivial
  | update op leading => exact .bind fun _ => .bind fun _ => .pure trivial
  | operand op => exact .bind fun _ => .pure trivial
  | choice consequent alternate => exact .pure (ofNode_keyedBy _ _)
  | memberObject computed property wantsReference =>
      cases computed with
      | true => exact .pure (h.taken.await (by trivial) property false)
      | false =>
          refine .bind_of (Q := P) (.query fun _ key hkey => hP key (Node.nameAfterPoint_isCanonical hkey))
            fun key hkey => ?_
          exact .bind_of (hmember _ key hkey wantsReference) fun c hc => .pure hc
  | memberKey base wantsReference =>
      refine .bind_of (Q := P) (fun s key s' hkey => ?_) fun key hkey => ?_
      · cases hkey
        exact hP _ (s.toKey_isCanonical _)
      · exact .bind_of (hmember _ key hkey wantsReference) fun c hc => .pure hc
  | sequence rest => exact .pure (h.nextInSequence rest)
  | callee constructs arguments => exact .bind fun call => .pure (h.taken.nextArgument call arguments)
  | argument call rest => exact .pure (h.taken.nextArgument _ rest)
  | _ => exact .pure trivial

end

end KeyedBy

end Frame

/-! ### Machines -/

/-- All frames keep keys of `P` only. -/
def Machine.KeyedBy (P : Key → Prop) (m : Machine) : Prop := ∀ f ∈ m.frames, f.KeyedBy P

/-- A result that is handed down brings its key with it. -/
theorem handTo_keyedBy {c : Completion} (hc : c.KeyedBy P) {frames : List Frame}
    (h : ∀ f ∈ frames, f.KeyedBy P) : ∀ f ∈ handTo c frames, f.KeyedBy P := by
  cases frames with
  | nil => exact h
  | cons f below =>
      obtain ⟨hf, hbelow⟩ := List.forall_mem_cons.mp h
      exact List.forall_mem_cons.mpr ⟨⟨hf.work, fun c' hc' => by cases hc'; exact hc⟩, hbelow⟩

theorem Action.Leaves.keyedBy {a : Action} {below frames : List Frame} (h : a.Leaves below frames)
    (ha : a.KeyedBy P) (hbelow : ∀ f ∈ below, f.KeyedBy P) : ∀ f ∈ frames, f.KeyedBy P := by
  have hfound {found : List Frame} (hfound : found <:+ below) : ∀ f ∈ found, f.KeyedBy P :=
    fun f hf => hbelow f (hfound.subset hf)
  cases a with
  | await f child =>
      obtain rfl : frames = child :: f :: below := h
      exact List.forall_mem_cons.mpr ⟨ha.2, List.forall_mem_cons.mpr ⟨ha.1, hbelow⟩⟩
  | invoke f call =>
      rcases h with ⟨v, rfl⟩ | ⟨constructed, body, scope, receiver, rfl⟩
      · exact handTo_keyedBy (.value v) hbelow
      · have hf : ({ f with work := .running constructed } : Frame).KeyedBy P :=
          Frame.KeyedBy.withWork ha trivial
        exact List.forall_mem_cons.mpr
          ⟨Frame.opening_keyedBy _ _ _, List.forall_mem_cons.mpr ⟨hf, hbelow⟩⟩
  | become f | again f =>
      obtain rfl : frames = f :: below := h
      exact List.forall_mem_cons.mpr ⟨ha, hbelow⟩
  | deliver c =>
      obtain rfl : frames = handTo c below := h
      exact handTo_keyedBy ha hbelow
  | leave | complete v =>
      obtain rfl : frames = below := h
      exact hbelow
  | breakTo label | continueAt label => exact hfound h
  | returnWith v =>
      obtain ⟨found, hsuffix, rfl⟩ := h
      exact handTo_keyedBy (.value v) (hfound hsuffix)

/-- **A turn leaves frames that keep to the keys.** -/
theorem Machine.KeyedBy.turn (hP : ∀ key : Key, key.IsCanonical → P key) {m m' : Machine} {f : Frame}
    {run : NestedRun} {fuel : Nat} {s s' : Store} (hm : m.KeyedBy P) (hf : f.KeyedBy P)
    (h : Machine.turn run fuel m f s = (.ok m', s')) : m'.KeyedBy P := by
  obtain ⟨a, s₁, hresume, hobey⟩ := exists_of_run_bind_eq_ok h
  obtain ⟨heap, hedit, -⟩ := Run.exists_of_liftM_eq_ok hresume
  exact (Machine.obey_leaves hobey).keyedBy (hf.resume hP _ _ _ _ hedit) hm

end Stepwise
