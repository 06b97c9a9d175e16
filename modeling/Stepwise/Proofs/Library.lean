/-
Every edit makes moves.

One lemma for each operation on the heap, each function of the library and each thing that
a frame does when its turn comes.  They are assembled from those of `Edit.Moves`, in the
order in which the operations are assembled from each other; nothing is said about what an
operation is for.

An operation that may set the length of an array has a lemma of `Edit.CutsLast` instead:
the writing of a property, which may be the length, and all that writes properties a
script has named.
-/
import Stepwise.Machine.Resume
import Stepwise.Proofs.Moves

namespace Stepwise

variable {l : Licence}

/-! ### Objects and properties -/

namespace Store

theorem alloc_moves {o : Object} (hbounds : o.InBounds) (hkeys : o.HasCanonicalKeys)
    (hlinks : o.IsUnforked)
    (hcode : ∀ code closure, o.callable? = some (.script code closure) → l.code code) :
    Edit.Moves l (alloc o) := fun s _ => .single (.alloc s o hbounds hkeys hlinks hcode)

/-- An object that is no function can be made of anything. -/
private theorem alloc_plain_moves {o : Object} (hbounds : o.InBounds) (hkeys : o.HasCanonicalKeys)
    (hlinks : o.IsUnforked) (h : o.callable? = none) : Edit.Moves l (alloc o) :=
  alloc_moves hbounds hkeys hlinks fun code closure hcode => by rw [h] at hcode; cases hcode

theorem allocOrdinary_moves (parent : Option ObjectId) : Edit.Moves l (allocOrdinary parent) :=
  alloc_plain_moves (.new _ _) (.new _ _) (.inl rfl) rfl

theorem allocArray_moves (values : List Value) : Edit.Moves l (allocArray values) :=
  alloc_plain_moves (.arrayOf values) (.arrayOf values) (.inl rfl) rfl

/-- Making an array of the result adds an object, and nothing else. -/
theorem allocArray_adds {α : Type} (values : List Value) (f : ObjectId → α) :
    Edit.Adds (allocArray values >>= fun id => pure (f id)) :=
  fun _ => .single ⟨_, .arrayOf values, .arrayOf values, .inl rfl, rfl, rfl⟩

theorem allocScope_moves (outer : Option ObjectId) : Edit.Moves l (allocScope outer) :=
  alloc_plain_moves (.new _ _) (.new _ _) (.inr rfl) rfl

theorem allocInstance_moves (parent : Option ObjectId) : Edit.Moves l (allocInstance parent) := by
  refine .ask_bind fun s hs => ?_
  refine alloc_plain_moves (.new _ _) (.new _ _) (.inl ?_) ?_ s hs
  all_goals
    unfold Heap.instanceKind
    split <;> rfl

theorem allocPlain_moves : Edit.Moves l allocPlain := allocInstance_moves _

theorem define_moves (id : ObjectId) {key : Key} (hkey : l.key key) (p : Property) :
    Edit.Moves l (define id key p) := .commit fun s => .define s id key p hkey

theorem defineText_moves (id : ObjectId) (name : String) (p : Property) :
    Edit.Moves l (define id (.ofText name) p) :=
  define_moves id (l.canonical _ (Key.ofText_isCanonical name)) p

theorem defineElement_moves (id : ObjectId) (i : Nat) (p : Property) :
    Edit.Moves l (define id (.ofNat i) p) :=
  define_moves id (l.canonical _ (Key.ofNat_isCanonical i)) p

theorem declare_moves (scope : ObjectId) (name : String) (v : Value) :
    Edit.Moves l (declare scope name v) := defineText_moves _ _ _

theorem allocFunction_moves {callable : Callable} (arity : Nat)
    (h : ∀ code closure, callable = .script code closure → l.code code) :
    Edit.Moves l (allocFunction callable arity) := by
  refine .bind (alloc_moves (.new _ _) (.new _ _) (.inl rfl) fun code closure hcode =>
    h code closure ?_) fun f => ?_
  · exact Option.some.inj hcode
  · refine .bind (allocOrdinary_moves _) fun proto => ?_
    refine .bind (defineText_moves _ _ _) fun _ => .bind (defineText_moves _ _ _) fun _ => ?_
    exact .bind (defineText_moves _ _ _) fun _ => .pure f

theorem allocScript_moves {code : FunctionCode} (h : l.code code) (closure : ObjectId) :
    Edit.Moves l (allocScript code closure) :=
  allocFunction_moves _ fun _ _ heq => by cases heq; exact h

/-- A write sets the length of an array if that is what the key names, and else it stores a
property under the key, if anything. -/
theorem carryOut_cutsLast {s : Heap} {target : Value} {key : Key} {v : Value} {write : Write}
    (hplan : s.planWrite target key v = .ok write) (hkey : l.key key) :
    s.MovesThenCut l (Heap.carryOut write s) := by
  obtain rfl | ⟨id, length, -, -, rfl⟩ | ⟨id, -, rfl⟩ := Heap.planWrite_cases hplan
  · exact .refl s
  · exact ⟨s, _, .refl, .single ⟨id, length, rfl⟩, .refl⟩
  · exact ⟨_, _, .single (.put s id key v hkey), .refl, .refl⟩

theorem setProperty_cutsLast (target : Value) {key : Key} (hkey : l.key key) (v : Value) :
    Edit.CutsLast l (setProperty target key v) :=
  .query_bind fun _ _ _ hplan => carryOut_cutsLast hplan hkey

/-- A write under another key sets no length. -/
theorem setProperty_moves (target : Value) {key : Key} (hkey : l.key key) (hne : key ≠ .length)
    (v : Value) : Edit.Moves l (setProperty target key v) := by
  refine .query_bind fun s write hs hplan => ?_
  obtain rfl | ⟨id, length, -, hlength, rfl⟩ | ⟨id, -, rfl⟩ := Heap.planWrite_cases hplan
  · exact .refl
  · exact absurd hlength hne
  · exact .single (.put s id key v hkey)

/-- Only what is not read-only is deleted. -/
theorem deleteProperty_moves (target : Value) (key : Key) :
    Edit.Moves l (deleteProperty target key) := by
  refine .ask_bind fun s hs => ?_
  cases hcan : s.canDelete target key with
  | false => exact .refl
  | true =>
      cases target with
      | object id =>
          exact .single (.erase s id key fun o p ho hp => Heap.not_readonly_of_canDelete hcan ho hp)
      | _ => exact .refl

theorem setLength_cutsLast (id : ObjectId) (length : Nat) : Edit.CutsLast l (setLength id length) :=
  fun s _ => ⟨s, _, .refl, .single ⟨id, length, rfl⟩, .refl⟩

/-! ### Variables -/

theorem assign_cutsLast (scope : ObjectId) (name : String) (v : Value) :
    Edit.CutsLast l (assign scope name v) := by
  refine .bind (.ask _) fun holder => ?_
  split
  · exact setProperty_cutsLast _ (l.canonical _ (Key.ofText_isCanonical name)) _
  · exact .of_moves (.throw _)

/-- What is declared is good, where it is a function. -/
theorem bindDeclaration_moves (scope : ObjectId) {d : Declaration}
    (h : ∀ name code, d = .function name code → l.code code) :
    Edit.Moves l (bindDeclaration scope d) := by
  rcases d with name | ⟨name, code⟩
  · refine .bind (.ask _) fun there => ?_
    split
    · exact .pure _
    · exact declare_moves _ _ _
  · exact .bind (allocScript_moves (h name code rfl) scope) fun f => declare_moves _ _ _

theorem hoist_moves (body : List Node) (scope : ObjectId)
    (h : ∀ name code, .function name code ∈ declarationsOf body → l.code code) :
    Edit.Moves l (hoist body scope) := by
  unfold hoist
  generalize declarationsOf body = ds at h
  induction ds with
  | nil => exact .pure _
  | cons d rest ih =>
      refine .bind (bindDeclaration_moves scope fun name code hd => ?_) fun _ => ?_
      · exact h name code (hd ▸ List.mem_cons_self)
      · exact ih fun name code hmem => h name code (List.mem_cons_of_mem d hmem)

end Store

open Store

/-! ### Arrays -/

namespace Sequence

theorem store_moves (target : Value) (i : Nat) (v : Value) : Edit.Moves l (store target i v) :=
  setProperty_moves _ (l.canonical _ (Key.ofNat_isCanonical i)) (Key.ofNat_ne_length i) _

theorem storeLength_cutsLast (target : Value) (length : Nat) :
    Edit.CutsLast l (storeLength target length) := setProperty_cutsLast _ (l.canonical _ Key.length_isCanonical) _

theorem take_moves (target : Value) (i : Nat) : Edit.Moves l (take target i) :=
  .bind (.query _) fun _ => .bind (deleteProperty_moves _ _) fun _ => .pure _

theorem takeAll_moves (target : Value) (length : Nat) : Edit.Moves l (takeAll target length) :=
  .bind (.ask _) fun indices => .mapM (take_moves target) indices

theorem replaceAll_cutsLast (target : Value) (elements : List Value) :
    Edit.CutsLast l (replaceAll target elements) := by
  refine .bind (.ask _) fun oldLength => .bind (.forM (fun p => store_moves _ _ _) _) fun _ => ?_
  refine .bind (.forM (fun i => ?_) _) fun _ => storeLength_cutsLast _ _
  exact .bind (deleteProperty_moves _ _) fun _ => .pure _

theorem append_moves (target : Value) (length : Nat) (v : Value) :
    Edit.Moves l (append target length v) := by
  unfold append
  split
  · exact .bind (store_moves _ _ _) fun _ => .pure _
  · exact .throw _

theorem push_cutsLast (target : Value) (args : List Value) : Edit.CutsLast l (push target args) :=
  .bind (.ask _) fun length => .bind (.foldlM (append_moves target) args length) fun _ =>
    .andReturn (storeLength_cutsLast _ _) _

theorem pop_cutsLast (target : Value) : Edit.CutsLast l (pop target) := by
  refine .bind (.ask _) fun length => ?_
  cases length with
  | zero => exact .andReturn (storeLength_cutsLast _ _) _
  | succ last => exact .bind (take_moves _ _) fun _ => .andReturn (storeLength_cutsLast _ _) _

theorem shift_cutsLast (target : Value) : Edit.CutsLast l (shift target) := by
  refine .bind (.ask _) fun length => ?_
  cases length with
  | zero => exact .andReturn (storeLength_cutsLast _ _) _
  | succ last =>
      refine .bind (.query _) fun first => .bind (takeAll_moves _ _) fun taken => ?_
      refine .bind (.forM (fun p => ?_) taken) fun _ => .andReturn (storeLength_cutsLast _ _) _
      rcases p with ⟨- | i, v⟩
      · exact .pure _
      · exact store_moves _ _ _

theorem unshift_cutsLast (target : Value) (args : List Value) :
    Edit.CutsLast l (unshift target args) := by
  refine .bind (.ask _) fun length => ?_
  dsimp only
  split
  · refine .bind (takeAll_moves _ _) fun taken => .bind (.forM (fun p => store_moves _ _ _) _)
      fun _ => ?_
    refine .bind (.forM (fun p => store_moves _ _ _) _) fun _ => ?_
    exact .andReturn (storeLength_cutsLast _ _) _
  · exact .of_moves (.throw _)

theorem fill_cutsLast (id : ObjectId) (args : List Value) : Edit.CutsLast l (fill id args) := by
  unfold fill
  split
  · split
    · exact setLength_cutsLast _ _
    · exact .of_moves (.throw _)
  · exact .of_moves (.forM (fun p => defineElement_moves _ _ _) _)

theorem construct_cutsLast (receiver : Value) (args : List Value) :
    Edit.CutsLast l (construct receiver args) := by
  refine .bind (.ask _) fun isNew => ?_
  split
  · exact .andReturn (fill_cutsLast _ _) _
  · exact .bind (allocArray_moves _) fun _ => .andReturn (fill_cutsLast _ _) _

theorem method_cutsLast (m : ArrayMethod) (receiver : Value) (args : List Value) :
    Edit.CutsLast l (method m receiver args) := by
  refine .bind (.query _) fun _ => ?_
  cases m with
  | push => exact push_cutsLast receiver args
  | pop => exact pop_cutsLast receiver
  | shift => exact shift_cutsLast receiver
  | unshift => exact unshift_cutsLast receiver args
  | splice =>
      refine .bind (.query _) fun elements => .bind (.ask _) fun start => .bind (.ask _) fun count => ?_
      exact .andThen (replaceAll_cutsLast _ _) fun _ => allocArray_adds _ _
  | reverse => exact .bind (.query _) fun _ => .andReturn (replaceAll_cutsLast _ _) _
  | concat =>
      exact .of_moves (.bind (.query _) fun _ => .bind (allocArray_moves _) fun _ => .pure _)
  | slice =>
      refine .bind (.query _) fun elements => .bind (.ask _) fun first => .bind (.ask _) fun last => ?_
      exact .of_moves (.bind (allocArray_moves _) fun _ => .pure _)
  | join | toText => exact .of_moves (.query _)
  | indexOf | lastIndexOf => exact .of_moves (.ask _)

end Sequence

/-! ### Wrappers, dates, texts and numbers -/

namespace Wrapping

theorem wrapIfNew_moves (constructor : ObjectId) (receiver payload : Value) :
    Edit.Moves l (wrapIfNew constructor receiver payload) := by
  refine .ask_bind fun s _ => ?_
  cases hnew : s.isBlankInstance receiver constructor with
  | false => exact .refl
  | true =>
      cases receiver with
      | object id =>
          exact .single (.setKind s id (.wrapper payload) rfl fun o ho =>
            Heap.isConvertible_of_isBlankInstance hnew ho)
      | _ => exact .refl

/-- The object that is made a wrapper is fresh. -/
theorem wrap_moves (constructor : ObjectId) (payload : Value) :
    Edit.Moves l (wrap constructor payload) := by
  intro s hs
  refine (allocInstance_moves (some constructor) s hs).tail ?_
  refine .setKind _ ⟨s.objects.size⟩ (.wrapper payload) rfl fun o ho => ?_
  have hget : (s.objects.push (.new (some constructor) (s.instanceKind (some constructor))))[
    s.objects.size]? = some o := ho
  rw [Array.getElem?_push_size] at hget
  cases hget
  unfold Heap.instanceKind
  split <;> rfl

theorem object_moves (receiver : Value) (args : List Value) :
    Edit.Moves l (object receiver args) := by
  unfold object
  split
  · exact .pure _
  · refine .bind (.ask _) fun isNew => ?_
    split
    · exact .pure _
    · exact .bind allocPlain_moves fun _ => .pure _
  · refine .bind (.ask _) fun isNew => ?_
    split
    · exact .pure _
    · exact .bind allocPlain_moves fun _ => .pure _
  · exact wrap_moves _ _
  · exact wrap_moves _ _
  · exact wrap_moves _ _

end Wrapping

namespace Dates

theorem construct_moves (receiver : Value) (args : List Value) :
    Edit.Moves l (construct receiver args) := by
  refine .ask_bind fun s _ => ?_
  cases hnew : s.isBlankInstance receiver Intrinsic.date with
  | false => exact .refl
  | true =>
      cases receiver with
      | object id =>
          exact .single (.setKind s id (.date _) rfl fun o ho =>
            Heap.isConvertible_of_isBlankInstance hnew ho)
      | _ => exact .refl

/-- The time is set of what holds one. -/
theorem setTime_moves {s : Heap} {receiver : Value} {old : Float}
    (hheld : held s receiver = .ok old) (time : Float) : s.Moves l (setTime receiver time s).2 := by
  unfold setTime
  cases receiver with
  | object id =>
      refine .single (.setKind s id (.date _) rfl fun o ho => ?_)
      have hobject : s.objectOf? (.object id) = some o := ho
      rw [held, hobject] at hheld
      rcases o with ⟨parent, properties, kind⟩
      cases kind <;> first | rfl | cases hheld
  | _ => exact .refl

private theorem method_setTime_moves (receiver : Value) (args : List Value) :
    Edit.Moves l (method .setTime receiver args) := by
  unfold method
  dsimp only
  refine .query_bind fun s old hs hheld => ?_
  rw [Edit.ask_bind_eq]
  exact setTime_moves hheld _

theorem method_moves (m : DateMethod) (receiver : Value) (args : List Value) :
    Edit.Moves l (method m receiver args) := by
  cases m with
  | setParts first count =>
      refine .query_bind fun s time hs htime => ?_
      obtain ⟨old, hheld, -⟩ := exists_of_bind_eq_ok htime
      cases time with
      | none => exact .refl
      | some time => exact setTime_moves hheld time
  | setTime => exact method_setTime_moves receiver args
  | toText form => exact .bind (.query _) fun _ => .query _
  | _ => exact .bind (.query _) fun _ => .pure _

end Dates

theorem Texts.method_moves (m : StringMethod) (receiver : Value) (args : List Value) :
    Edit.Moves l (method m receiver args) := by
  cases m with
  | valueOf => exact .query _
  | split =>
      refine .bind (.query _) fun text => .bind (.ask _) fun separator => .bind (.ask _) fun limit => ?_
      exact .bind (allocArray_moves _) fun _ => .pure _
  | _ => exact .bind (.query _) fun _ => .ask _

theorem Arithmetic.apply_moves (f : MathFunction) (args : List Value) :
    Edit.Moves l (apply f args) := by
  cases f with
  | random =>
      refine .bind (.bind (.ask _) fun seed => ?_) fun _ => .pure _
      exact .bind (.commit fun s => .reseed s seed) fun _ => .pure _
  | _ => exact .ask _

/-! ### The library -/

/-- The code of a new function comes from the reader of the heap. -/
theorem Compiling.construct_moves (args : List Value) : Edit.Moves l (construct args) := by
  refine .query_bind fun s found hs hcode => ?_
  refine Edit.Moves.bind (allocScript_moves ?_ _) (fun _ => .pure _) s hs
  obtain ⟨p, hp, hfound⟩ := exists_of_bind_eq_ok hcode
  split at hfound
  · cases hfound
    exact hs _ p found hp ‹_›
  · cases hfound

theorem Builtin.call_cutsLast (b : Builtin) (receiver : Value) (args : List Value) :
    Edit.CutsLast l (b.call receiver args) := by
  cases b with
  | arrayConstructor => exact Sequence.construct_cutsLast receiver args
  | array m => exact Sequence.method_cutsLast m receiver args
  | objectConstructor => exact .of_moves (Wrapping.object_moves receiver args)
  | functionConstructor => exact .of_moves (Compiling.construct_moves args)
  | numberConstructor => exact .bind (.ask _) fun _ => .of_moves (Wrapping.wrapIfNew_moves _ _ _)
  | stringConstructor => exact .bind (.query _) fun _ => .of_moves (Wrapping.wrapIfNew_moves _ _ _)
  | booleanConstructor => exact .of_moves (Wrapping.wrapIfNew_moves _ _ _)
  | dateConstructor => exact .of_moves (Dates.construct_moves receiver args)
  | itself => exact .of_moves (.pure _)
  | string m => exact .of_moves (Texts.method_moves m receiver args)
  | date m => exact .of_moves (Dates.method_moves m receiver args)
  | math f => exact .of_moves (Arithmetic.apply_moves f args)
  | objectToText | dateNow | dateParse | dateUTC => exact .of_moves (.ask _)
  | functionToText | booleanToText | booleanValue | number | global => exact .of_moves (.query _)

/-- **A library function only makes moves**, and sets a length last. -/
theorem NativeCode.call_cutsLast (code : NativeCode) (receiver : Value) (args : List Value) :
    Edit.CutsLast l (code.call receiver args) := by
  cases code with
  | builtin b => exact b.call_cutsLast receiver args
  | host f =>
      cases f with
      | record =>
          refine .of_moves (.bind (.ask _) fun row => ?_)
          exact .bind (.commit fun s => .record s row) fun _ => .pure _
      | fail => exact .of_moves (.query _)
      | receiver | argumentCount => exact .of_moves (.pure _)

/-! ### Places and calls -/

/-- The key of the place, if it has one, is among those of `P`. -/
def Reference.KeyedBy (P : Key → Prop) : Reference → Prop
  | .variable _ => True
  | .property _ key => P key

theorem Reference.keyedBy_any (r : Reference) : r.KeyedBy fun _ => True := by
  rcases r with name | ⟨base, key⟩ <;> trivial

theorem Reference.write_cutsLast (scope : ObjectId) {r : Reference} (h : r.KeyedBy l.key) (v : Value) :
    Edit.CutsLast l (r.write scope v) := by
  rcases r with name | ⟨base, key⟩
  · exact assign_cutsLast _ _ _
  · exact setProperty_cutsLast _ h _

theorem Reference.delete_moves (scope : ObjectId) (r : Reference) :
    Edit.Moves l (r.delete scope) := by
  rcases r with name | ⟨base, key⟩
  · refine .bind (.ask _) fun holder => ?_
    split
    · exact deleteProperty_moves _ _
    · exact .pure _
  · exact deleteProperty_moves _ _

theorem Code.close_moves {code : FunctionCode} (h : l.code code) (scope : ObjectId) :
    Edit.Moves l (close code scope) := by
  unfold close
  split
  · exact allocScript_moves h scope
  · refine .bind (allocScope_moves _) fun inner => .bind (allocScript_moves h inner) fun f => ?_
    exact .bind (declare_moves _ _ _) fun _ => .pure _

theorem UpdateOp.perform_cutsLast (op : UpdateOp) (scope : ObjectId) (leading : Bool)
    {target : Reference} (h : target.KeyedBy l.key) :
    Edit.CutsLast l (op.perform scope leading target) :=
  .bind (.query _) fun _ => .bind (.query _) fun _ =>
    .andReturn (Reference.write_cutsLast _ h _) _

theorem UnaryOp.perform_moves (op : UnaryOp) (scope : ObjectId) (operand : Option Completion) :
    Edit.Moves l (op.perform scope operand) := by
  unfold perform
  split
  · exact .bind (Reference.delete_moves _ _) fun _ => .pure _
  · exact .query _
  · exact .query _
  · exact .query _

theorem beginCall_moves (scope : ObjectId) (constructs : Bool) (completion : Option Completion) :
    Edit.Moves l (beginCall scope constructs completion) := by
  refine .bind (.query _) fun found => ?_
  split
  split
  · exact .bind (allocInstance_moves _) fun made => .pure _
  · exact .pure _

/-- What the body of a function declares is good, where it is a function. -/
theorem activate_moves {code : FunctionCode} (closure : ObjectId) (args : List Value)
    (h : ∀ name inner, .function name inner ∈ declarationsOf [code.body] → l.code inner) :
    Edit.Moves l (activate code closure args) := by
  refine .bind (allocScope_moves _) fun scope => .bind ?_ fun _ => .pure _
  refine .bind (allocArray_moves _) fun list => .bind (declare_moves _ _ _) fun _ => ?_
  exact .bind (.forM (fun p => declare_moves _ _ _) _) fun _ => hoist_moves _ _ h

/-! ### Frames -/

def Completion.KeyedBy (P : Key → Prop) : Completion → Prop
  | .value _ => True
  | .reference r => r.KeyedBy P

/-- The keys under which something is still to be stored are among those of `P`. -/
def Work.KeyedBy (P : Key → Prop) : Work → Prop
  | .forInObject target _ | .assignValue target _ => target.KeyedBy P
  | .forInNext names _ => names.target.KeyedBy P
  | .entry _ key _ => P key
  | _ => True

structure Frame.KeyedBy (P : Key → Prop) (f : Frame) : Prop where
  work : f.work.KeyedBy P
  value : ∀ c, f.value = some c → c.KeyedBy P

theorem Frame.keyedBy_any (f : Frame) : f.KeyedBy fun _ => True where
  work := by
    cases f.work <;> first | trivial | exact Reference.keyedBy_any _
  value := fun c _ => by
    cases c with
    | value v => trivial
    | reference r => exact r.keyedBy_any

/-- May the work end in setting a length? -/
def Work.mayCut : Work → Bool
  | .node (.arrayLiteral _) _ | .initializer _ | .forInObject _ _ | .forInNext _ _
  | .element _ _ _ | .assignValue _ _ | .update _ _ => true
  | _ => false

/-- The place that was handed to a frame. -/
theorem Frame.KeyedBy.target {P : Key → Prop} {f : Frame} (h : f.KeyedBy P) {r : Reference}
    (hr : f.target = .ok r) : r.KeyedBy P := by
  unfold Frame.target at hr
  split at hr
  · rename_i r' hvalue
    cases hr
    exact h.value _ hvalue
  · cases hr

namespace Enumeration

theorem start_target (s : Heap) (target : Reference) (v : Value) :
    (start s target v).target = target := by
  cases v <;> rfl

theorem nextFrom_target {s : Heap} {target : Reference} {next : Key × Enumeration} :
    ∀ {chain : List ObjectId} {queue : List (Option ObjectId × Key)} {seen : List Key},
      nextFrom s target queue chain seen = some next → next.2.target = target := by
  intro chain
  induction chain with
  | nil =>
      intro queue seen h
      unfold nextFrom at h
      split at h <;> cases h
      rfl
  | cons id rest ih =>
      intro queue seen h
      unfold nextFrom at h
      split at h
      · cases h
        rfl
      · exact ih h

/-- All the names are assigned to one place. -/
theorem next?_target {s : Heap} {names : Enumeration} {next : Key × Enumeration}
    (h : names.next? s = some next) : next.2.target = names.target := nextFrom_target h

end Enumeration

namespace Frame

variable (f : Frame)

theorem nextElement_cutsLast (array : ObjectId) :
    ∀ (elements : List (Option Node)) (index : Nat),
      Edit.CutsLast l (f.nextElement array index elements) := by
  intro elements
  induction elements with
  | nil => exact fun index => .andReturn (setLength_cutsLast _ _) _
  | cons element rest ih =>
      intro index
      cases element with
      | none => exact ih (index + 1)
      | some e => exact .of_moves (.pure _)

theorem nextEntry_moves (object : ObjectId) (entries : List (Entry Node)) :
    Edit.Moves l (f.nextEntry object entries) := by
  cases entries with
  | nil => exact .pure _
  | cons entry rest => exact .bind (.query _) fun key => .pure _

theorem nextName_cutsLast (c : Context) {names : Enumeration} (h : names.target.KeyedBy l.key)
    (body : Node) : Edit.CutsLast l (f.nextName c names body) := by
  refine .ask_bind fun s hs => ?_
  cases hnext : names.next? s with
  | none => exact .refl s
  | some next =>
      obtain ⟨key, rest⟩ := next
      refine Edit.CutsLast.andReturn (Reference.write_cutsLast _ ?_ _) _ s hs
      have htarget : rest.target = names.target := Enumeration.next?_target hnext
      rw [htarget]
      exact h

private theorem begin_moves (c : Context) (n : Node) (wantsReference : Bool)
    (hcode : ∀ code, n = .functionExpression code → l.code code)
    (hcut : (Work.node n wantsReference).mayCut = false) :
    Edit.Moves l (f.begin c wantsReference n) := by
  cases n with
  | functionExpression code => exact .bind (Code.close_moves (hcode code rfl) _) fun _ => .pure _
  | identifier name =>
      cases wantsReference with
      | true => exact .pure _
      | false => exact .bind (.query _) fun _ => .pure _
  | literal value isRegex => exact .bind (.query _) fun _ => .pure _
  | arrayLiteral elements => cases hcut
  | objectLiteral entries => exact .bind allocPlain_moves fun object => f.nextEntry_moves object entries
  | variableDeclarator name init => cases init <;> exact .pure _
  | returnStatement argument => cases argument <;> exact .pure _
  | forInStatement target object body =>
      unfold begin
      dsimp only
      split <;> exact .pure _
  | unsupported => exact .throw _
  | _ => exact .pure _

/-- **A frame whose turn it is only makes moves**, if the function that it may be about to
make is good, and it sets no length but in a few cases. -/
theorem resume_moves (c : Context) (hkeys : f.KeyedBy l.key)
    (hcode : ∀ code wantsReference,
      f.work = .node (.functionExpression code) wantsReference → l.code code)
    (hcut : f.work.mayCut = false) : Edit.Moves l (f.resume c) := by
  rcases f with ⟨work, value, scope, receiver, labels⟩
  cases work with
  | node n wantsReference =>
      exact begin_moves _ c n _ (fun code hn => hcode code wantsReference (by rw [hn])) hcut
  | initializer | forInObject | forInNext | element | assignValue | update => cases hcut
  | forInTarget object body => exact .bind (.query _) fun _ => .pure _
  | throwValue => exact .query _
  | entry object key rest =>
      exact .bind (define_moves _ hkeys.work _) fun _ => nextEntry_moves _ object rest
  | right op left => exact .bind (.query _) fun _ => .pure _
  | logicalLeft op right =>
      refine .bind (.query _) fun decided => ?_
      cases decided <;> exact .pure _
  | assignTarget op value => exact .bind (.query _) fun _ => .bind (.query _) fun _ => .pure _
  | operand op => exact .bind (UnaryOp.perform_moves _ _ _) fun _ => .pure _
  | memberObject computed property wantsReference =>
      cases computed with
      | true => exact .pure _
      | false => exact .bind (.query _) fun _ => .bind (.query _) fun _ => .pure _
  | memberKey base wantsReference => exact .bind (.ask _) fun _ => .bind (.query _) fun _ => .pure _
  | callee constructs arguments => exact .bind (beginCall_moves _ _ _) fun _ => .pure _
  | _ => exact .pure _

/-- **A frame whose turn it is sets a length last.** -/
theorem resume_cutsLast (c : Context) (hkeys : f.KeyedBy l.key)
    (hcode : ∀ code wantsReference,
      f.work = .node (.functionExpression code) wantsReference → l.code code) :
    Edit.CutsLast l (f.resume c) := by
  cases hcut : f.work.mayCut with
  | false => exact .of_moves (f.resume_moves c hkeys hcode hcut)
  | true =>
      rcases f with ⟨work, value, scope, receiver, labels⟩
      cases work with
      | node n wantsReference =>
          cases n with
          | arrayLiteral elements =>
              exact .bind (allocArray_moves _) fun array => nextElement_cutsLast _ array elements 0
          | _ => cases hcut
      | initializer name => exact .andReturn (assign_cutsLast _ _ _) _
      | forInObject target body =>
          refine .ask_bind fun s hs => ?_
          refine nextName_cutsLast _ c ?_ body s hs
          rw [Enumeration.start_target]
          exact hkeys.work
      | forInNext names body => exact nextName_cutsLast _ c hkeys.work body
      | element array index rest =>
          exact .bind (defineElement_moves _ _ _) fun _ => nextElement_cutsLast _ array rest _
      | assignValue target current =>
          exact .bind (.query _) fun v => .andReturn (Reference.write_cutsLast _ hkeys.work _) _
      | update op leading =>
          refine .query_bind fun s target hs htarget => ?_
          have hkeyed : target.KeyedBy l.key := hkeys.target htarget
          exact Edit.CutsLast.andReturn (UpdateOp.perform_cutsLast _ _ _ hkeyed) _ s hs
      | _ => cases hcut

end Frame

end Stepwise
