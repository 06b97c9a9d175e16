/-
Activations.

A call of a script function is made when its arguments are complete, be it that it was meant from
the beginning or that `apply` and `call` have passed it on.  The body gets a scope of its own, and
what it sees there is bound in three passes: `arguments`, the parameters by their places, and what
the body declares.  A later binding of a name takes the place of an earlier one (`lastBound?`), but
a variable leaves alone what it finds.

`Heap.Activates` says what the three passes come to, and `Machine.invoke_script` that a call of a
script function does this and puts the body on, or finds no room for it.
-/
import Stepwise.Machine.Invoke
import Stepwise.Proofs.Forwarding
import Stepwise.Proofs.Hoisting
import Stepwise.Proofs.Instants

namespace Stepwise

/-! ### One binding after the other -/

/-- The value that the last binding of a key gives it. -/
def lastBound? (key : Key) : List (String × Value) → Option Value
  | [] => none
  | (name, v) :: rest => (lastBound? key rest).or (if Key.ofText name = key then some v else none)

theorem lastBound?_eq_none_iff {key : Key} {bindings : List (String × Value)} :
    lastBound? key bindings = none ↔ ∀ b ∈ bindings, Key.ofText b.1 ≠ key := by
  induction bindings with
  | nil => simp [lastBound?]
  | cons b rest ih => simp [lastBound?, Option.or_eq_none_iff, ih, and_comm]

namespace Object

variable {o : Object} {key key' : Key} {v : Value}

/-- All its properties are as an assignment makes them. -/
def IsPlain (o : Object) : Prop := ∀ key p, o.properties.get? key = some p → p = .plain p.value

theorem IsPlain.new (parent : Option ObjectId) (kind : Kind) : (Object.new parent kind).IsPlain := by
  intro key p hp
  rw [show (Object.new parent kind).properties.get? key = none from Properties.get?_empty key] at hp
  cases hp

theorem IsPlain.get?_define (h : o.IsPlain) (key : Key) (v : Value) (key' : Key) :
    (o.define key (.plain v)).properties.get? key' =
      if key = key' then some (.plain v) else o.properties.get? key' := by
  by_cases hkey : key = key'
  · subst hkey
    rw [if_pos rfl]
    cases hold : o.properties.get? key with
    | none => exact define_self_of_none hold _
    | some old =>
        have hplain := h key old hold
        rw [define_of_writable hold (by rw [hplain]; rfl), Properties.get?_insert, if_pos rfl, hplain]
        rfl
  · rw [if_neg hkey, define_of_ne (Ne.symm hkey)]

theorem IsPlain.define (h : o.IsPlain) (key : Key) (v : Value) : (o.define key (.plain v)).IsPlain := by
  intro key' p hp
  rw [h.get?_define] at hp
  split at hp
  · cases hp
    rfl
  · exact h key' p hp

/-- Names bound to values in an object, one after the other. -/
def bindNames (o : Object) (bindings : List (String × Value)) : Object :=
  bindings.foldl (fun o b => o.define (.ofText b.1) (.plain b.2)) o

theorem IsPlain.get?_bindNames (h : o.IsPlain) (bindings : List (String × Value)) (key : Key) :
    (o.bindNames bindings).properties.get? key =
      ((lastBound? key bindings).map .plain).or (o.properties.get? key) := by
  induction bindings generalizing o with
  | nil => rfl
  | cons b rest ih =>
      rw [bindNames, List.foldl_cons, ← bindNames, ih (h.define _ _), h.get?_define, lastBound?]
      cases lastBound? key rest with
      | some v => rfl
      | none => split <;> rfl

theorem bindNames_kind {outer : Option ObjectId} (hkind : o.kind = .scope outer)
    (bindings : List (String × Value)) : (o.bindNames bindings).kind = .scope outer := by
  induction bindings generalizing o with
  | nil => exact hkind
  | cons b rest ih => exact ih ((define_kind_of_scope hkind _).trans hkind)

theorem bindNames_parent (o : Object) (bindings : List (String × Value)) :
    (o.bindNames bindings).parent = o.parent := by
  induction bindings generalizing o with
  | nil => rfl
  | cons b rest ih => exact (ih _).trans (define_parent _)

end Object

namespace Store

/-- Declaring names one after the other binds them in the scope, and touches nothing else. -/
theorem declare_forM {s : Heap} {scope : ObjectId} {o : Object} (ho : s.object? scope = some o)
    (bindings : List (String × Value)) :
    ∃ s', (bindings.forM fun b => declare scope b.1 b.2 : Edit Unit) s = (.ok (), s') ∧
      s'.object? scope = some (o.bindNames bindings) ∧ ∀ id ≠ scope, s'.object? id = s.object? id := by
  induction bindings generalizing s o with
  | nil => exact ⟨s, rfl, ho, fun _ _ => rfl⟩
  | cons b rest ih =>
      let s₁ := s.change scope fun o => o.define (.ofText b.1) (.plain b.2)
      have hone : declare scope b.1 b.2 s = (.ok (), s₁) := rfl
      have ho₁ : s₁.object? scope = some (o.define (.ofText b.1) (.plain b.2)) :=
        Heap.object?_change_self ho _
      obtain ⟨s', hrest, hscope, hothers⟩ := ih ho₁
      refine ⟨s', ?_, hscope, fun id hid => ?_⟩
      · show (declare scope b.1 b.2 >>= fun _ => rest.forM fun b => declare scope b.1 b.2 : Edit Unit) s = _
        rw [bind_of_ok hone, hrest]
      · rw [hothers id hid, Heap.object?_change_of_ne hid]

end Store

/-! ### Parameters and arguments -/

/-- What a call binds before the body is hoisted: the list of the arguments, and the parameters by
their places. -/
def callBindings (list : ObjectId) (params : List String) (args : List Value) : List (String × Value) :=
  ("arguments", .object list) :: params.zipIdx.map fun (name, i) => (name, argument args i)

section

variable {list : ObjectId} {params : List String} {args : List Value} {name : String}

private theorem lastBound?_parameters_eq_none (h : name ∉ params) (k : Nat) :
    lastBound? (.ofText name) ((params.zipIdx k).map fun p => (p.1, argument args p.2)) = none := by
  refine lastBound?_eq_none_iff.mpr fun b hb hkey => ?_
  obtain ⟨p, hp, rfl⟩ := List.mem_map.mp hb
  obtain rfl : p.1 = name := Key.ofText_injective hkey
  exact h (List.fst_mem_of_mem_zipIdx hp)

/-- Of the parameters of one name the last one counts. -/
private theorem lastBound?_parameters {i : Nat} (h : params[i]? = some name)
    (hlast : name ∉ params.drop (i + 1)) (k : Nat) :
    lastBound? (.ofText name) ((params.zipIdx k).map fun p => (p.1, argument args p.2)) =
      some (argument args (k + i)) := by
  induction params generalizing i k with
  | nil => cases h
  | cons first rest ih =>
      rw [List.zipIdx_cons, List.map_cons, lastBound?]
      cases i with
      | zero =>
          cases h
          rw [lastBound?_parameters_eq_none (show name ∉ rest from hlast), if_pos rfl]
          rfl
      | succ i =>
          rw [ih h hlast (k + 1), show k + 1 + i = k + (i + 1) by omega]
          rfl

theorem lastBound?_callBindings_parameter {i : Nat} (h : params[i]? = some name)
    (hlast : name ∉ params.drop (i + 1)) :
    lastBound? (.ofText name) (callBindings list params args) = some (argument args i) := by
  rw [callBindings, lastBound?, lastBound?_parameters h hlast 0, Nat.zero_add]
  rfl

theorem lastBound?_callBindings_arguments (h : "arguments" ∉ params) :
    lastBound? (.ofText "arguments") (callBindings list params args) = some (.object list) := by
  rw [callBindings, lastBound?, lastBound?_parameters_eq_none h, if_pos rfl]
  rfl

theorem lastBound?_callBindings_eq_none {key : Key} :
    lastBound? key (callBindings list params args) = none ↔
      ∀ name, name = "arguments" ∨ name ∈ params → Key.ofText name ≠ key := by
  rw [lastBound?_eq_none_iff, callBindings, List.forall_mem_cons, List.forall_mem_map]
  constructor
  · rintro ⟨harguments, hparams⟩ name (rfl | hname)
    · exact harguments
    · obtain ⟨i, hi⟩ := List.mem_iff_getElem?.mp hname
      exact hparams (name, i) (List.mk_mem_zipIdx_iff_getElem?.mpr hi)
  · intro h
    exact ⟨h _ (.inl rfl), fun p hp => h _ (.inr (List.fst_mem_of_mem_zipIdx hp))⟩

end

/-! ### Elements -/

namespace Heap

/-- An object is an array of its own kind that has just these values. -/
def Lists (s : Heap) (list : ObjectId) (values : List Value) : Prop :=
  ∃ o, s.object? list = some o ∧ o.parent = some Intrinsic.array ∧ o.kind = .array values.length ∧
    ∀ key p, o.properties.get? key = some p ↔
      ∃ i v, values[i]? = some v ∧ key = .ofNat i ∧ p = .plain v

/-- What a heap becomes when a script function is called: there is a new scope, and in it stands
what the body sees. -/
structure Activates (code : FunctionCode) (closure : ObjectId) (args : List Value) (scope : ObjectId)
    (s s' : Heap) : Prop where
  fresh : s.object? scope = none
  within : ∃ o, s'.object? scope = some o ∧ o.parent = none ∧ o.kind = .scope (some closure)
  /-- Nothing becomes of the objects that were there. -/
  kept : ∀ id o, s.object? id = some o → s'.object? id = some o
  /-- A parameter is bound to the argument at the last of its places. -/
  parameters : ∀ i name, code.params[i]? = some name → name ∉ code.params.drop (i + 1) →
    ¬DeclaresFunction [code.body] name →
    s'.own? scope (.ofText name) = some (.plain (args[i]?.getD .undefined))
  arguments : "arguments" ∉ code.params → ¬DeclaresFunction [code.body] "arguments" →
    ∃ list, s.object? list = none ∧ list ≠ scope ∧ s'.Lists list args ∧
      s'.own? scope (.ofText "arguments") = some (.plain (.object list))
  /-- A variable is undefined if the name was not bound before. -/
  undefined : ∀ name, DeclaresVariable [code.body] name → name ∉ code.params → name ≠ "arguments" →
    ¬DeclaresFunction [code.body] name → s'.own? scope (.ofText name) = some (.plain .undefined)
  /-- The last function of a name takes the place of what was bound before. -/
  functions : ∀ name, DeclaresFunction [code.body] name → ∃ last f p,
    DeclaresLast [code.body] name last ∧ s.object? f = none ∧
      (s'.object? f).bind Object.callable? = some (.script last scope) ∧
      s'.own? scope (.ofText name) = some p ∧ p.value = .object f
  /-- There are no other names. -/
  names : ∀ key, (s'.own? scope key).isSome = true ↔ ∃ name, key = .ofText name ∧
    (name = "arguments" ∨ name ∈ code.params ∨ DeclaresVariable [code.body] name ∨
      DeclaresFunction [code.body] name)

end Heap

/-- What is bound after the scope and the list of the arguments were made. -/
private theorem bindCall_eq (scope : ObjectId) (code : FunctionCode) (args : List Value) (s : Heap) :
    bindCall scope code args s =
      (((callBindings ⟨s.objects.size⟩ code.params args).forM fun b => Store.declare scope b.1 b.2) >>=
        fun _ => Store.hoist [code.body] scope : Edit Unit)
          { s with objects := s.objects.push (Store.arrayOf args) } := by
  have hmap (l : List (String × Nat)) :
      ((l.map fun p => (p.1, argument args p.2)).forM fun b => Store.declare scope b.1 b.2 : Edit Unit) =
        l.forM fun p => Store.declare scope p.1 (argument args p.2) := by
    induction l with
    | nil => rfl
    | cons p rest ih =>
        show (Store.declare scope p.1 (argument args p.2) >>= fun _ => List.forM _ _ : Edit Unit) = _
        rw [ih]
        rfl
  show (Store.declare scope "arguments" _ >>= fun _ => (code.params.zipIdx.forM fun p =>
    Store.declare scope p.1 (argument args p.2)) >>= fun _ => Store.hoist [code.body] scope : Edit Unit) _ = _
  rw [← hmap, ← bind_assoc]
  rfl

/-- The three passes, one after the other: the first two bind in the scope, where the array that is
new has the arguments, and the last one hoists. -/
private theorem bindCall_binds {s : Heap} {scope : ObjectId} {o : Object} {outer : Option ObjectId}
    (ho : s.object? scope = some o) (hkind : o.kind = .scope outer) (code : FunctionCode)
    (args : List Value) :
    ∃ list s₁ s' o', bindCall scope code args s = (.ok (), s') ∧ s.object? list = none ∧ list ≠ scope ∧
      s₁.object? list = some (Store.arrayOf args) ∧
      (∀ id x, id ≠ scope → s.object? id = some x → s₁.object? id = some x) ∧
      Binds scope (declarationsOf [code.body]) s₁ s'
        (o.bindNames (callBindings list code.params args)) o' := by
  let list : ObjectId := ⟨s.objects.size⟩
  let t : Heap := { s with objects := s.objects.push (Store.arrayOf args) }
  have hfresh : s.object? list = none := Array.getElem?_eq_none (Nat.le_refl _)
  have hne : list ≠ scope := (Heap.ne_of_object? ho hfresh).symm
  have hlist : t.object? list = some (Store.arrayOf args) := by rw [Heap.object?_push, if_pos rfl]
  obtain ⟨s₁, hdeclare, hscope, hothers⟩ :=
    Store.declare_forM (Heap.object?_push_of_eq_some ho (Store.arrayOf args))
      (callBindings list code.params args)
  obtain ⟨o', hbinds⟩ := Binds.all hscope (Object.bindNames_kind hkind _) (declarationsOf [code.body])
  refine ⟨list, s₁, _, o', ?_, hfresh, hne, ?_, fun id x hid hx => ?_, hbinds⟩
  · rw [bindCall_eq, bind_of_ok hdeclare]
    exact Store.bindAll_eq _ s₁
  · rw [hothers list hne, hlist]
  · rw [hothers id hid, Heap.object?_push_of_eq_some hx]

/-- What a fresh scope owns when a call has bound its names there. -/
private theorem get?_callBindings (outer : Option ObjectId) (list : ObjectId) (params : List String)
    (args : List Value) (key : Key) :
    ((Object.new none (.scope outer)).bindNames (callBindings list params args)).properties.get? key =
      (lastBound? key (callBindings list params args)).map .plain := by
  rw [(Object.IsPlain.new none (.scope outer)).get?_bindNames,
    show (Object.new none (.scope outer)).properties.get? key = none from Properties.get?_empty key, Option.or_none]

section

variable {s s₁ s' : Heap} {scope closure list : ObjectId} {code : FunctionCode} {args : List Value} {o : Object}

/-- What was bound is still there when the body is hoisted, if no function takes its place. -/
private theorem own?_of_binds
    (h : Binds scope (declarationsOf [code.body]) s₁ s'
      ((Object.new none (.scope (some closure))).bindNames (callBindings list code.params args)) o)
    {name : String} {v : Value} (hname : ¬DeclaresFunction [code.body] name)
    (hbound : lastBound? (.ofText name) (callBindings list code.params args) = some v) :
    s'.own? scope (.ofText name) = some (.plain v) := by
  rw [Heap.own?, h.after, Option.bind_some]
  refine h.kept_body (by rw [get?_callBindings, hbound]; rfl) (.inr fun name' hname' heq => hname ?_)
  rwa [Key.ofText_injective heq]

/-- What the three passes come to, in a scope and with a list of the arguments that are both new. -/
private theorem Heap.Activates.of_binds (hscope : s.object? scope = none) (hlist : s.object? list = none)
    (hne : list ≠ scope) (hlist₁ : s₁.object? list = some (Store.arrayOf args))
    (hkept : ∀ id x, s.object? id = some x → s₁.object? id = some x)
    (h : Binds scope (declarationsOf [code.body]) s₁ s'
      ((Object.new none (.scope (some closure))).bindNames (callBindings list code.params args)) o) :
    s.Activates code closure args scope s' where
  fresh := hscope
  within := ⟨o, h.after, h.parent.trans (Object.bindNames_parent _ _),
    h.kind.trans (Object.bindNames_kind rfl _)⟩
  kept id x hx := h.others id x (ne_of_object? hx hscope) (hkept id x hx)
  parameters i name hi hlast hname := own?_of_binds h hname (lastBound?_callBindings_parameter hi hlast)
  arguments hparams hname := ⟨list, hlist, hne,
    ⟨_, h.others list _ hne hlist₁, rfl, rfl, fun _ _ => Store.get?_arrayOf⟩,
    own?_of_binds h hname (lastBound?_callBindings_arguments hparams)⟩
  undefined name hvariable hparam harguments hname := by
    rw [own?, h.after, Option.bind_some]
    refine h.undefined_body ?_ hvariable hname
    rw [get?_callBindings, lastBound?_callBindings_eq_none.mpr, Option.map_none]
    rintro name' hname' heq
    obtain rfl := Key.ofText_injective heq
    exact hname'.elim harguments hparam
  functions name hname := by
    obtain ⟨last, f, p, hlast, hf, hcallable, hp, hv⟩ := h.function_body hname fun p hp => by
      rw [get?_callBindings] at hp
      obtain ⟨v, -, rfl⟩ := Option.map_eq_some_iff.mp hp
      rfl
    have hfresh : s.object? f = none :=
      Option.eq_none_iff_forall_ne_some.mpr fun x hx => ne_of_object? (hkept f x hx) hf rfl
    exact ⟨last, f, p, hlast, hfresh, hcallable, by rw [own?, h.after, Option.bind_some, hp], hv⟩
  names key := by
    rw [own?, h.after, Option.bind_some, ← Properties.contains, h.contains_body, Properties.contains,
      get?_callBindings, Option.isSome_map, Option.isSome_iff_ne_none, Ne, lastBound?_callBindings_eq_none]
    push Not
    rw [← exists_or]
    refine exists_congr fun name => ?_
    constructor
    · rintro (⟨hname, rfl⟩ | ⟨hname, rfl⟩)
      · exact ⟨rfl, hname.elim .inl fun h => .inr (.inl h)⟩
      · exact ⟨rfl, .inr (.inr hname)⟩
    · rintro ⟨rfl, hname | hname | hname⟩
      · exact .inl ⟨.inl hname, rfl⟩
      · exact .inl ⟨.inr hname, rfl⟩
      · exact .inr ⟨hname, rfl⟩

end

/-- **The body of a function finds everything bound**: the parameters by their places, the list of
the arguments, and what it declares, in a new scope within the closure. -/
theorem activate_activates (code : FunctionCode) (closure : ObjectId) (args : List Value) (s : Heap) :
    ∃ scope s', activate code closure args s = (.ok scope, s') ∧ s.Activates code closure args scope s' := by
  let new : Object := .new none (.scope (some closure))
  let t : Heap := { s with objects := s.objects.push new }
  let scope : ObjectId := ⟨s.objects.size⟩
  have hfresh : s.object? scope = none := Array.getElem?_eq_none (Nat.le_refl _)
  have hscope : t.object? scope = some new := by rw [Heap.object?_push, if_pos rfl]
  obtain ⟨list, s₁, s', o', hbind, hlist, hne, hlist₁, hothers, hbinds⟩ :=
    bindCall_binds hscope rfl code args
  have hactivate : activate code closure args s = (.ok scope, s') := by
    show (bindCall scope code args >>= fun _ => pure scope : Edit ObjectId) t = _
    exact bind_of_ok hbind
  refine ⟨scope, s', hactivate, .of_binds hfresh ?_ hne hlist₁ (fun id x hx => ?_) hbinds⟩
  · rw [Heap.object?_push, if_neg hne] at hlist
    exact hlist
  · exact hothers id x (Heap.ne_of_object? hx hfresh) (Heap.object?_push_of_eq_some hx new)

/-! ### What a call comes to -/

namespace Invocation.Call

variable {s : Heap} {c last : Call} {n fuel : Nat} {code : FunctionCode} {closure : ObjectId}

/-- The call is one of a script function. -/
def Runs (s : Heap) (c : Call) (code : FunctionCode) (closure : ObjectId) : Prop :=
  (s.object? c.callee).bind Object.callable? = some (.script code closure)

theorem resolve_of_runs (h : c.Runs s code closure) (fuel : Nat) :
    c.resolve s (fuel + 1) = .ok (.script code closure c.receiver c.args) := by
  rw [resolve, Invocation.resolve, show (s.object? c.callee).bind Object.callable? = _ from h]
  rfl

/-- A call that becomes the call of a script function is settled as that one. -/
theorem resolve_of_after_runs (h : c.after s n = some last) (hruns : last.Runs s code closure) (hfuel : n < fuel) :
    c.resolve s fuel = .ok (.script code closure last.receiver last.args) := by
  obtain ⟨more, rfl⟩ := Nat.exists_eq_add_of_lt hfuel
  rw [show n + more + 1 = more + 1 + n by omega, resolve_of_after h, resolve_of_runs hruns]

/-- What is settled as a call of a script function has become one. -/
theorem exists_after_runs {receiver : Value} {args : List Value}
    (h : c.resolve s fuel = .ok (.script code closure receiver args)) :
    ∃ n last, n < fuel ∧ c.after s n = some last ∧ last.Runs s code closure ∧ last.receiver = receiver ∧
      last.args = args := by
  induction fuel generalizing c with
  | zero => cases h
  | succ fuel ih =>
      cases hnext : c.next? s with
      | some c' =>
          rw [resolve_of_next hnext] at h
          obtain ⟨n, last, hn, hafter, hruns⟩ := ih h
          refine ⟨n + 1, last, Nat.succ_lt_succ hn, ?_, hruns⟩
          rw [Nat.add_comm, after_add, after, after, Option.bind_some, hnext, Option.bind_some, hafter]
      | none =>
          rcases resolve_last_cases hnext fuel with ⟨e, he, -⟩ | ⟨code', closure', hruns, hc⟩ | ⟨i, hi, hne⟩
          · rw [he] at h
            cases h
          · rw [hc] at h
            cases h
            exact ⟨0, c, Nat.succ_pos fuel, rfl, hruns, rfl, rfl⟩
          · rw [hi] at h
            exact absurd (Except.ok.inj h) (hne code closure receiver args)

end Invocation.Call

/-- The call that a pending call makes, with the arguments so far. -/
def PendingCall.call (call : PendingCall) : Invocation.Call :=
  ⟨call.callee, call.receiver, call.arguments.toList⟩

namespace Machine

/-- The machine of a call while the body of a script function runs. -/
def entered (m : Machine) (f : Frame) (call : PendingCall) (body : Node) (scope : ObjectId) (receiver : Value) :
    Machine :=
  (m.putBack { f with work := .running call.constructed }).putBack (.opening body scope receiver)

/-- **A call of a script function puts its body on**, in a scope where everything is bound, with the
receiver of the last call that `apply` and `call` have made of it; unless there is no room for a frame. -/
theorem invoke_script (run : NestedRun) (m : Machine) (f : Frame) {fuel n : Nat} {call : PendingCall}
    {s : Store} {last : Invocation.Call} {code : FunctionCode} {closure : ObjectId}
    (h : call.call.after s.toHeap n = some last) (hruns : last.Runs s.toHeap code closure) (hfuel : n < fuel) :
    ∃ scope heap, s.Activates code closure last.args scope heap ∧
      invoke run fuel m f call s =
        (if admitsFrame s (m.depth + 1) then .ok (m.entered f call code.body scope last.receiver)
          else .error .stackExhausted, { s with toHeap := heap }) := by
  have hresolve : Edit.query (call.resolve fuel) s.toHeap =
      (.ok (.script code closure last.receiver last.args), s.toHeap) := by
    rw [Edit.query, show call.resolve fuel s.toHeap = call.call.resolve s.toHeap fuel from rfl,
      Invocation.Call.resolve_of_after_runs h hruns hfuel]
  obtain ⟨scope, heap, hactivate, hbound⟩ := activate_activates code closure last.args s.toHeap
  refine ⟨scope, heap, hbound, ?_⟩
  rw [invoke, bind_of_ok (Run.liftM_eq hresolve)]
  exact bind_of_ok (Run.liftM_eq hactivate)

end Machine

end Stepwise
