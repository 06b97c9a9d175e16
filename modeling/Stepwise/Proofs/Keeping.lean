/-
Edits keep a heap intact.

`Edit.Keeps` says of an edit, at an intact heap, that it leaves an intact heap behind that
has grown out of the one before, in success and in failure, and that its result is fit for
the heap it leaves.  What an edit asks for is little: that the values it is to store are
known, that a function is to close over a scope, and that a new scope has a scope around
it.  Where a value is stored does not matter, since at a place without an object nothing is
stored; and what is read is always known.

There is one lemma for each operation on the heap and each function of the library, in the
order in which the operations are assembled from each other.
-/
import Stepwise.Machine.Resume
import Stepwise.Proofs.Arena

namespace Stepwise

/-- An edit that keeps an intact heap intact, and comes to something fit for it. -/
def Edit.Keeps {α : Type} (roots : List ObjectId) (s : Heap) (P : Heap → α → Prop) (act : Edit α) :
    Prop :=
  s.Intact roots →
    (act s).2.Intact roots ∧ s.Grows (act s).2 ∧ ∀ x, (act s).1 = .ok x → P (act s).2 x

/-- Nothing is asked of a result. -/
def Heap.Anything {α : Type} (_ : Heap) (_ : α) : Prop := True

/-- All of the values are known. -/
def Heap.KnowsAll (s : Heap) (vs : List Value) : Prop := ∀ v ∈ vs, s.Knows v

variable {roots : List ObjectId} {s : Heap}

theorem Heap.Grows.knowsAll {s' : Heap} {vs : List Value} (h : s.Grows s') (hvs : s.KnowsAll vs) :
    s'.KnowsAll vs := fun v hv => h.knows (hvs v hv)

/-- A missing argument is undefined. -/
theorem Heap.KnowsAll.argument {args : List Value} (h : s.KnowsAll args) (i : Nat) :
    s.Knows (argument args i) := by
  unfold Stepwise.argument
  cases hi : args[i]? with
  | none => exact Heap.knows_of_isPrimitive rfl
  | some v => exact h v (List.mem_of_getElem? hi)

namespace Edit.Keeps

variable {α β : Type} {P : Heap → α → Prop} {Q : Heap → β → Prop} {act : Edit α}

theorem pure {x : α} (h : P s x) : (Pure.pure x : Edit α).Keeps roots s P := by
  intro hs
  refine ⟨hs, .refl s, fun y hy => ?_⟩
  cases hy
  exact h

theorem throw (e : Failure) : (MonadExcept.throw e : Edit α).Keeps roots s P := by
  intro hs
  exact ⟨hs, .refl s, fun y hy => by cases hy⟩

theorem ask {f : Heap → α} (h : s.Intact roots → P s (f s)) : (Edit.ask f).Keeps roots s P := by
  intro hs
  refine ⟨hs, .refl s, fun y hy => ?_⟩
  cases hy
  exact h hs

theorem query {f : Heap → Except Failure α} (h : s.Intact roots → ∀ x, f s = .ok x → P s x) :
    (Edit.query f).Keeps roots s P := by
  intro hs
  exact ⟨hs, .refl s, h hs⟩

theorem commit {f : Heap → Heap} (h : s.Intact roots → (f s).Intact roots ∧ s.Grows (f s)) :
    (Edit.commit f).Keeps roots s Heap.Anything := by
  intro hs
  exact ⟨(h hs).1, (h hs).2, fun _ _ => trivial⟩

theorem bind {next : α → Edit β} (hact : act.Keeps roots s P)
    (hnext : ∀ x s', s.Grows s' → P s' x → (next x).Keeps roots s' Q) :
    (act >>= next).Keeps roots s Q := by
  intro hs
  obtain ⟨hs', hgrows, hresult⟩ := hact hs
  refine bind_cases (P := fun r t => t.Intact roots ∧ s.Grows t ∧ ∀ y, r = .ok y → Q t y)
    (fun e _ => ⟨hs', hgrows, fun y hy => by cases hy⟩) fun x hx => ?_
  obtain ⟨hs'', hgrows', hresult'⟩ := hnext x _ hgrows (hresult x hx) hs'
  exact ⟨hs'', hgrows.trans hgrows', hresult'⟩

/-- After a question the heap is the same, and the answer is the one to it. -/
theorem ask_bind {f : Heap → α} {next : α → Edit β}
    (hnext : s.Intact roots → (next (f s)).Keeps roots s Q) :
    (Edit.ask f >>= next).Keeps roots s Q := by
  intro hs
  rw [bind_of_ok (show Edit.ask f s = (.ok (f s), s) from rfl)]
  exact hnext hs hs

theorem query_bind {f : Heap → Except Failure α} {next : α → Edit β}
    (hnext : s.Intact roots → ∀ x, f s = .ok x → (next x).Keeps roots s Q) :
    (Edit.query f >>= next).Keeps roots s Q := by
  intro hs
  rcases hf : f s with e | x
  · rw [bind_of_error (show Edit.query f s = (.error e, s) by simp only [Edit.query, hf])]
    exact ⟨hs, .refl s, fun y hy => by cases hy⟩
  · rw [bind_of_ok (show Edit.query f s = (.ok x, s) by simp only [Edit.query, hf])]
    exact hnext hs x hf hs

theorem weaken {P' : Heap → α → Prop} (hact : act.Keeps roots s P)
    (h : ∀ s' x, P s' x → P' s' x) : act.Keeps roots s P' := by
  intro hs
  obtain ⟨hs', hgrows, hresult⟩ := hact hs
  exact ⟨hs', hgrows, fun x hx => h _ x (hresult x hx)⟩

theorem forM {f : α → Edit PUnit} (xs : List α)
    (hf : ∀ x ∈ xs, ∀ s', s.Grows s' → (f x).Keeps roots s' Heap.Anything) :
    (xs.forM f).Keeps roots s Heap.Anything := by
  induction xs generalizing s with
  | nil => exact pure trivial
  | cons x rest ih =>
      obtain ⟨hx, hrest⟩ := List.forall_mem_cons.mp hf
      refine .bind (hx s (.refl s)) fun _ s' hgrows _ => ih fun y hy s'' hgrows' => ?_
      exact hrest y hy s'' (hgrows.trans hgrows')

/-- What is fit for a heap has to be so when the heap has grown. -/
theorem mapM {f : α → Edit β} (hQ : ∀ s s' y, s.Grows s' → Q s y → Q s' y) (xs : List α)
    (hf : ∀ x ∈ xs, ∀ s', s.Grows s' → (f x).Keeps roots s' Q) :
    (xs.mapM f).Keeps roots s (fun s ys => ∀ y ∈ ys, Q s y) := by
  induction xs generalizing s with
  | nil => exact pure fun y hy => by cases hy
  | cons x rest ih =>
      obtain ⟨hx, hrest⟩ := List.forall_mem_cons.mp hf
      rw [List.mapM_cons]
      refine .bind (hx s (.refl s)) fun y s₁ hgrows hy => ?_
      have hlater := ih (s := s₁) fun z hz s₂ hgrows' => hrest z hz s₂ (hgrows.trans hgrows')
      refine .bind hlater fun ys s₂ hgrows' hys => pure ?_
      exact List.forall_mem_cons.mpr ⟨hQ _ _ _ hgrows' hy, hys⟩

theorem foldlM {f : β → α → Edit β} (xs : List α) (start : β)
    (hf : ∀ x ∈ xs, ∀ b s', s.Grows s' → (f b x).Keeps roots s' Heap.Anything) :
    (xs.foldlM f start).Keeps roots s Heap.Anything := by
  induction xs generalizing s start with
  | nil => exact pure trivial
  | cons x rest ih =>
      obtain ⟨hx, hrest⟩ := List.forall_mem_cons.mp hf
      rw [List.foldlM_cons]
      refine .bind (hx start s (.refl s)) fun b s' hgrows _ => ih b fun y hy b' s'' hgrows' => ?_
      exact hrest y hy b' s'' (hgrows.trans hgrows')

end Edit.Keeps

/-! ### Objects and properties -/

namespace Store

theorem alloc_keeps {o : Object} (ho : s.Intact roots → o.IsIntact roots s ⟨s.objects.size⟩) :
    (alloc o).Keeps roots s fun s' id => s'.Has id ∧ s'.object? id = some o := by
  intro hs
  obtain ⟨hs', hgrows⟩ := hs.push (ho hs)
  refine ⟨hs', hgrows, fun id hid => ?_⟩
  cases hid
  have ho' : (alloc o s).2.object? ⟨s.objects.size⟩ = some o := by
    show ({ s with objects := s.objects.push o } : Heap).object? _ = _
    rw [Heap.object?_push, if_pos rfl]
  exact ⟨Heap.has_of_object? ho', ho'⟩

theorem allocOrdinary_keeps {parent : Option ObjectId}
    (h : s.Intact roots → ∀ p, parent = some p → s.Has p) :
    (allocOrdinary parent).Keeps roots s Heap.Has := by
  have hkind : Kind.ordinary.IsIntact roots s ⟨s.objects.size⟩ := trivial
  exact (alloc_keeps fun hs => .new (h hs) hkind).weaken fun _ _ h => h.1

theorem arrayOf_isIntact {id : ObjectId} (hs : s.Intact roots) {values : List Value}
    (h : s.KnowsAll values) : (arrayOf values).IsIntact roots s id := by
  refine ⟨fun p hp => ?_, ?_, trivial⟩
  · cases hp
    exact hs.has_fixed (by decide)
  · have hfold : ∀ (pairs : List (Value × Nat)) (ps : Properties), ps.All s.Knows →
        (∀ p ∈ pairs, s.Knows p.1) →
        (pairs.foldl (fun ps pair => ps.insert (.ofNat pair.2) (.plain pair.1)) ps).All
          s.Knows := by
      intro pairs
      induction pairs with
      | nil => exact fun ps hps _ => hps
      | cons first rest ih =>
          intro ps hps hpairs
          obtain ⟨hfirst, hrest⟩ := List.forall_mem_cons.mp hpairs
          exact ih _ (hps.insert _ hfirst) hrest
    refine hfold _ _ .empty fun p hp => ?_
    exact h p.1 (List.fst_mem_of_mem_zipIdx hp)

theorem allocArray_keeps {values : List Value} (h : s.KnowsAll values) :
    (allocArray values).Keeps roots s Heap.Has :=
  (alloc_keeps fun hs => arrayOf_isIntact hs h).weaken fun _ _ h => h.1

/-- A new scope is younger than the one around it. -/
theorem allocScope_keeps {outer : ObjectId} (h : s.IsScope outer) :
    (allocScope (some outer)).Keeps roots s Heap.IsScope := by
  have hnew : (alloc (.new none (.scope (some outer)))).Keeps roots s
      fun s' id => s'.Has id ∧ s'.object? id = some (.new none (.scope (some outer))) :=
    alloc_keeps fun _ => .new (fun p hp => by cases hp) ⟨h, h.has⟩
  refine hnew.weaken fun s' id hid => ⟨some outer, ?_⟩
  rw [Heap.link?, hid.2]
  rfl

theorem allocInstance_keeps {parent : Option ObjectId}
    (h : s.Intact roots → ∀ p, parent = some p → s.Has p) :
    (allocInstance parent).Keeps roots s fun s' id =>
      s'.Has id ∧ ∃ o, s'.object? id = some o ∧ o.kind.link? = none := by
  refine .ask_bind fun hs => ?_
  have hkind : (s.instanceKind parent).IsIntact roots s ⟨s.objects.size⟩ ∧
      (s.instanceKind parent).link? = none := by
    unfold Heap.instanceKind
    split <;> exact ⟨trivial, rfl⟩
  have hnew : (alloc (.new parent (s.instanceKind parent))).Keeps roots s fun s' id =>
      s'.Has id ∧ s'.object? id = some (.new parent (s.instanceKind parent)) :=
    alloc_keeps fun hs => .new (h hs) hkind.1
  exact hnew.weaken fun s' id hid => ⟨hid.1, _, hid.2, hkind.2⟩

theorem allocPlain_keeps : allocPlain.Keeps roots s Heap.Has := by
  refine (allocInstance_keeps fun hs p hp => ?_).weaken fun _ _ h => h.1
  cases hp
  exact hs.has_fixed (by decide)

theorem define_keeps (id : ObjectId) (key : Key) {p : Property} (hp : s.Knows p.value) :
    (define id key p).Keeps roots s Heap.Anything := by
  refine .commit fun hs => hs.change fun o _ ho => ⟨ho.define key hp, fun outer hlink => ?_⟩
  rw [Object.link?_define]
  exact hlink

theorem declare_keeps (scope : ObjectId) (name : String) {v : Value} (hv : s.Knows v) :
    (declare scope name v).Keeps roots s Heap.Anything := define_keeps _ _ hv

theorem allocFunction_keeps {callable : Callable} (arity : Nat)
    (h : ∀ code closure, callable = .script code closure → s.IsScope closure) :
    (allocFunction callable arity).Keeps roots s Heap.Has := by
  have hkind : (Kind.function callable).IsIntact roots s ⟨s.objects.size⟩ := by
    cases callable with
    | script code closure => exact h code closure rfl
    | _ => trivial
  have hparent : s.Intact roots → ∀ p, some Intrinsic.function = some p → s.Has p := by
    intro hs p hp
    cases hp
    exact hs.has_fixed (by decide)
  refine .bind (alloc_keeps fun hs => .new (hparent hs) hkind) fun f s₁ _ hf => ?_
  have hproto : (allocOrdinary (some Intrinsic.object)).Keeps roots s₁ Heap.Has := by
    refine allocOrdinary_keeps fun hs p hp => ?_
    cases hp
    exact hs.has_fixed (by decide)
  refine .bind hproto fun proto s₂ hgrows₂ hproto => ?_
  have hf₂ := hgrows₂.has hf.1
  refine .bind (define_keeps _ _ (Heap.knows_object.mpr hproto)) fun _ s₃ hgrows₃ _ => ?_
  have hf₃ := hgrows₃.has hf₂
  refine .bind (define_keeps _ _ (Heap.knows_object.mpr hf₃)) fun _ s₄ hgrows₄ _ => ?_
  have hf₄ := hgrows₄.has hf₃
  refine .bind (define_keeps _ _ (Heap.knows_of_isPrimitive rfl)) fun _ s₅ hgrows₅ _ => ?_
  exact .pure (hgrows₅.has hf₄)

theorem allocScript_keeps (code : FunctionCode) {closure : ObjectId} (h : s.IsScope closure) :
    (allocScript code closure).Keeps roots s Heap.Has :=
  allocFunction_keeps _ fun _ _ heq => by cases heq; exact h

theorem allocNative_keeps (name : String) (code : NativeCode) (arity : Nat) :
    (allocNative name code arity).Keeps roots s Heap.Has :=
  allocFunction_keeps _ fun _ _ heq => by cases heq

theorem setProperty_keeps (target : Value) (key : Key) {v : Value} (hv : s.Knows v) :
    (setProperty target key v).Keeps roots s Heap.Anything := by
  refine .query_bind fun _ write hwrite => .commit fun hs => ?_
  obtain rfl | ⟨id, length, -, -, rfl⟩ | ⟨id, -, rfl⟩ := Heap.planWrite_cases hwrite
  · exact ⟨hs, .refl s⟩
  · refine hs.change fun o _ ho => ⟨ho.resize length, fun outer hlink => ?_⟩
    rw [Object.link?_resize]
    exact hlink
  · refine hs.change fun o _ ho => ⟨ho.put key hv, fun outer hlink => ?_⟩
    rw [Object.link?_put]
    exact hlink

theorem deleteProperty_keeps (target : Value) (key : Key) :
    (deleteProperty target key).Keeps roots s Heap.Anything := by
  refine .ask_bind fun _ => ?_
  split
  · refine .bind (.commit fun hs => hs.change fun o _ ho => ?_) fun _ _ _ _ => .pure trivial
    exact ⟨ho.erase key, fun outer hlink => hlink⟩
  · exact .pure trivial

theorem setLength_keeps (id : ObjectId) (length : Nat) :
    (setLength id length).Keeps roots s Heap.Anything := by
  refine .commit fun hs => hs.change fun o _ ho => ⟨ho.resize length, fun outer hlink => ?_⟩
  rw [Object.link?_resize]
  exact hlink

/-- A kind that refers to nothing may replace any but a scope. -/
theorem setKind_keeps {id : ObjectId} {kind : Kind} (hkind : kind.IsIntact roots s id)
    (h : ∀ o, s.object? id = some o → o.kind.link? = none) :
    (setKind id kind).Keeps roots s Heap.Anything := by
  refine .commit fun hs => hs.change fun o ho hintact => ⟨?_, fun outer hlink => ?_⟩
  · exact ⟨hintact.parent, hintact.properties, hkind⟩
  · rw [h o ho] at hlink
    cases hlink

/-! ### Variables -/

theorem assign_keeps (scope : ObjectId) (name : String) {v : Value} (hv : s.Knows v) :
    (assign scope name v).Keeps roots s Heap.Anything := by
  refine .ask_bind fun _ => ?_
  split
  · exact setProperty_keeps _ _ hv
  · exact .throw _

theorem bindDeclaration_keeps {scope : ObjectId} (h : s.IsScope scope) (d : Declaration) :
    (bindDeclaration scope d).Keeps roots s Heap.Anything := by
  rcases d with name | ⟨name, code⟩
  · refine .ask_bind fun _ => ?_
    split
    · exact .pure trivial
    · exact declare_keeps _ _ (Heap.knows_of_isPrimitive rfl)
  · refine .bind (allocScript_keeps code h) fun f s' _ hf => ?_
    exact declare_keeps _ _ (Heap.knows_object.mpr hf)

theorem hoist_keeps (body : List Node) {scope : ObjectId} (h : s.IsScope scope) :
    (hoist body scope).Keeps roots s Heap.Anything :=
  .forM _ fun d _ _ hgrows => bindDeclaration_keeps (hgrows.isScope h) d

end Store

/-! ### Arrays -/

namespace Sequence

open Store

theorem store_keeps (target : Value) (i : Nat) {v : Value} (hv : s.Knows v) :
    (store target i v).Keeps roots s Heap.Anything := setProperty_keeps _ _ hv

theorem storeLength_keeps (target : Value) (length : Nat) :
    (storeLength target length).Keeps roots s Heap.Anything :=
  setProperty_keeps _ _ (Heap.knows_of_isPrimitive rfl)

theorem take_keeps (target : Value) (i : Nat) :
    (take target i).Keeps roots s fun s' p => s'.Knows p.2 := by
  refine .query_bind fun hs v hv => ?_
  have hv := Heap.getProperty_knows hs hv
  exact .bind (deleteProperty_keeps _ _) fun _ s' hgrows _ => .pure (hgrows.knows hv)

theorem takeAll_keeps (target : Value) (length : Nat) :
    (takeAll target length).Keeps roots s fun s' taken => ∀ p ∈ taken, s'.Knows p.2 := by
  have hmono : ∀ (s s' : Heap) (p : Nat × Value), s.Grows s' → s.Knows p.2 → s'.Knows p.2 :=
    fun _ _ _ hgrows hp => hgrows.knows hp
  exact .ask_bind fun _ => .mapM hmono _ fun i _ s' _ => take_keeps target i

/-- Store values at places told from their positions. -/
private theorem storeAll_keeps (target : Value) (place : Nat → Nat) {values : List Value}
    (h : s.KnowsAll values) :
    (values.zipIdx.forM fun (v, i) => store target (place i) v).Keeps roots s Heap.Anything := by
  refine .forM _ fun p hp s' hgrows => store_keeps _ _ (hgrows.knows (h p.1 ?_))
  exact List.fst_mem_of_mem_zipIdx hp

theorem replaceAll_keeps (target : Value) {elements : List Value} (h : s.KnowsAll elements) :
    (replaceAll target elements).Keeps roots s Heap.Anything := by
  refine .ask_bind fun _ => .bind (storeAll_keeps target id h) fun _ s₁ _ _ => ?_
  refine .bind (.forM _ fun i _ s' _ => ?_) fun _ s₂ _ _ => storeLength_keeps _ _
  exact .bind (deleteProperty_keeps _ _) fun _ _ _ _ => .pure trivial

theorem append_keeps (target : Value) (length : Nat) {v : Value} (hv : s.Knows v) :
    (append target length v).Keeps roots s Heap.Anything := by
  unfold append
  split
  · exact .bind (store_keeps _ _ hv) fun _ _ _ _ => .pure trivial
  · exact .throw _

theorem push_keeps (target : Value) {args : List Value} (h : s.KnowsAll args) :
    (push target args).Keeps roots s Heap.Knows := by
  refine .ask_bind fun _ => ?_
  have happend : (args.foldlM (append target) (s.lengthOf target)).Keeps roots s Heap.Anything :=
    .foldlM _ _ fun v hv length s' hgrows => append_keeps target length (hgrows.knows (h v hv))
  refine .bind happend fun length s₁ _ _ => .bind (storeLength_keeps _ _) fun _ s₂ _ _ => ?_
  exact .pure (Heap.knows_of_isPrimitive rfl)

theorem pop_keeps (target : Value) : (pop target).Keeps roots s Heap.Knows := by
  refine .ask_bind fun _ => ?_
  cases s.lengthOf target with
  | zero =>
      exact .bind (storeLength_keeps _ _) fun _ _ _ _ => .pure (Heap.knows_of_isPrimitive rfl)
  | succ last =>
      refine .bind (take_keeps _ _) fun p s₁ _ hp => ?_
      exact .bind (storeLength_keeps _ _) fun _ s₂ hgrows _ => .pure (hgrows.knows hp)

theorem shift_keeps (target : Value) : (shift target).Keeps roots s Heap.Knows := by
  refine .ask_bind fun _ => ?_
  cases s.lengthOf target with
  | zero =>
      exact .bind (storeLength_keeps _ _) fun _ _ _ _ => .pure (Heap.knows_of_isPrimitive rfl)
  | succ last =>
      refine .query_bind fun hs first hfirst => ?_
      have hfirst := Heap.getProperty_knows hs hfirst
      refine .bind (takeAll_keeps _ _) fun taken s₁ hgrows₁ htaken => ?_
      refine .bind (.forM taken fun p hp s' hgrows => ?_) fun _ s₂ hgrows₂ _ => ?_
      · have hp := hgrows.knows (htaken p hp)
        rcases p with ⟨- | i, v⟩
        · exact .pure trivial
        · exact store_keeps _ _ hp
      · refine .bind (storeLength_keeps _ _) fun _ s₃ hgrows₃ _ => .pure ?_
        exact hgrows₃.knows (hgrows₂.knows (hgrows₁.knows hfirst))

theorem unshift_keeps (target : Value) {args : List Value} (h : s.KnowsAll args) :
    (unshift target args).Keeps roots s Heap.Knows := by
  refine .ask_bind fun _ => ?_
  dsimp only
  split
  · refine .bind (takeAll_keeps _ _) fun taken s₁ hgrows₁ htaken => ?_
    refine .bind (.forM taken fun p hp s' hgrows => ?_) fun _ s₂ hgrows₂ _ => ?_
    · exact store_keeps _ _ (hgrows.knows (htaken p hp))
    · have hargs := hgrows₂.knowsAll (hgrows₁.knowsAll h)
      refine .bind (storeAll_keeps target id hargs) fun _ s₃ _ _ => ?_
      exact .bind (storeLength_keeps _ _) fun _ _ _ _ => .pure (Heap.knows_of_isPrimitive rfl)
  · exact .throw _

theorem fill_keeps (id : ObjectId) {args : List Value} (h : s.KnowsAll args) :
    (fill id args).Keeps roots s Heap.Anything := by
  unfold fill
  split
  · split
    · exact setLength_keeps _ _
    · exact .throw _
  · refine .forM _ fun p hp s' hgrows => define_keeps _ _ (hgrows.knows (h p.1 ?_))
    exact List.fst_mem_of_mem_zipIdx hp

/-- A new array as the value of a call. -/
private theorem returnArray_keeps {values : List Value} (h : s.KnowsAll values) :
    (do return Value.object (← allocArray values) : Edit Value).Keeps roots s Heap.Knows :=
  .bind (allocArray_keeps h) fun _ _ _ hid => .pure (Heap.knows_object.mpr hid)

theorem construct_keeps {receiver : Value} {args : List Value} (hreceiver : s.Knows receiver)
    (h : s.KnowsAll args) : (construct receiver args).Keeps roots s Heap.Knows := by
  refine .ask_bind fun _ => ?_
  split
  · exact .bind (fill_keeps _ h) fun _ s' hgrows _ => .pure (hgrows.knows hreceiver)
  · refine .bind (allocArray_keeps fun v hv => by cases hv) fun id s₁ hgrows₁ hid => ?_
    refine .bind (fill_keeps _ (hgrows₁.knowsAll h)) fun _ s₂ hgrows₂ _ => .pure ?_
    exact Heap.knows_object.mpr (hgrows₂.has hid)

theorem contribution_knows (hs : s.Intact roots) {v : Value} {vs : List Value} (hv : s.Knows v)
    (h : contribution s v = .ok vs) : s.KnowsAll vs := by
  unfold contribution at h
  split at h
  · exact Heap.elements_knows hs h
  · cases h
    exact fun x hx => by rw [List.mem_singleton.mp hx]; exact hv

theorem join_isPrimitive {target r : Value} {args : List Value} (h : join s target args = .ok r) :
    r.isPrimitive = true := by
  unfold join at h
  dsimp only at h
  split at h
  · obtain ⟨text, -, rfl⟩ := exists_of_map_eq_ok h
    rfl
  · cases h
    rfl

theorem place_isPrimitive (found : Option Nat) : (place found).isPrimitive = true := by
  cases found <;> rfl

private theorem knowsAll_take {vs : List Value} (h : s.KnowsAll vs) (n : Nat) :
    s.KnowsAll (vs.take n) := fun v hv => h v (List.mem_of_mem_take hv)

private theorem knowsAll_drop {vs : List Value} (h : s.KnowsAll vs) (n : Nat) :
    s.KnowsAll (vs.drop n) := fun v hv => h v (List.mem_of_mem_drop hv)

theorem splice_keeps (target : Value) {args : List Value} (h : s.KnowsAll args) :
    (splice target args).Keeps roots s Heap.Knows := by
  refine .query_bind fun hs elements hread => .ask_bind fun _ => .ask_bind fun _ => ?_
  have helements : s.KnowsAll elements := Heap.elements_knows hs hread
  refine .bind (replaceAll_keeps _ ?_) fun _ s₁ hgrows _ => returnArray_keeps ?_
  · refine List.forall_mem_append.mpr ⟨List.forall_mem_append.mpr ⟨?_, ?_⟩, ?_⟩
    · exact knowsAll_take helements _
    · exact knowsAll_drop h 2
    · exact knowsAll_drop helements _
  · exact hgrows.knowsAll (knowsAll_take (knowsAll_drop helements _) _)

theorem reverse_keeps {target : Value} (htarget : s.Knows target) :
    (reverse target).Keeps roots s Heap.Knows := by
  refine .query_bind fun hs elements hread => ?_
  have helements : s.KnowsAll elements := Heap.elements_knows hs hread
  refine .bind (replaceAll_keeps _ fun v hv => helements v (List.mem_reverse.mp hv)) ?_
  exact fun _ s₁ hgrows _ => .pure (hgrows.knows htarget)

theorem slice_keeps (target : Value) (args : List Value) :
    (slice target args).Keeps roots s Heap.Knows := by
  refine .query_bind fun hs elements hread => .ask_bind fun _ => .ask_bind fun _ => ?_
  have helements : s.KnowsAll elements := Heap.elements_knows hs hread
  exact returnArray_keeps (knowsAll_take (knowsAll_drop helements _) _)

theorem contributions_know (hs : s.Intact roots) :
    ∀ {vs : List Value} {parts : List (List Value)}, s.KnowsAll vs →
      vs.mapM (contribution s) = .ok parts → s.KnowsAll parts.flatten := by
  intro vs
  induction vs with
  | nil =>
      intro parts _ h
      cases h
      exact fun v hv => by cases hv
  | cons v rest ih =>
      intro parts hvs h
      obtain ⟨hv, hrest⟩ := List.forall_mem_cons.mp hvs
      rw [List.mapM_cons] at h
      obtain ⟨first, hfirst, h⟩ := exists_of_bind_eq_ok h
      obtain ⟨others, hothers, h⟩ := exists_of_bind_eq_ok h
      cases h
      rw [List.flatten_cons]
      exact List.forall_mem_append.mpr ⟨contribution_knows hs hv hfirst, ih hrest hothers⟩

theorem concat_keeps {target : Value} {args : List Value} (htarget : s.Knows target)
    (h : s.KnowsAll args) : (concat target args).Keeps roots s Heap.Knows := by
  refine .query_bind fun hs parts hparts => returnArray_keeps ?_
  exact contributions_know hs (List.forall_mem_cons.mpr ⟨htarget, h⟩) hparts

theorem method_keeps (m : ArrayMethod) {receiver : Value} {args : List Value}
    (hreceiver : s.Knows receiver) (h : s.KnowsAll args) :
    (method m receiver args).Keeps roots s Heap.Knows := by
  refine .query_bind fun hs _ _ => ?_
  cases m with
  | push => exact push_keeps receiver h
  | pop => exact pop_keeps receiver
  | shift => exact shift_keeps receiver
  | unshift => exact unshift_keeps receiver h
  | splice => exact splice_keeps receiver h
  | reverse => exact reverse_keeps hreceiver
  | concat => exact concat_keeps hreceiver h
  | slice => exact slice_keeps receiver args
  | join | toText => exact .query fun _ x hx => Heap.knows_of_isPrimitive (join_isPrimitive hx)
  | indexOf | lastIndexOf =>
      exact .ask fun _ => Heap.knows_of_isPrimitive (place_isPrimitive _)

end Sequence

/-! ### Wrappers, dates, texts and numbers -/

/-- What is fresh from `new` is not a scope. -/
theorem Kind.link?_of_isConvertible {kind : Kind} (h : kind.isConvertible = true) :
    kind.link? = none := by
  cases kind <;> first | rfl | cases h

namespace Wrapping

theorem wrapIfNew_keeps (constructor : ObjectId) {receiver payload : Value}
    (hreceiver : s.Knows receiver) (hpayload : payload.isPrimitive = true) :
    (wrapIfNew constructor receiver payload).Keeps roots s Heap.Knows := by
  refine .ask_bind fun _ => ?_
  split
  · rename_i id hnew
    refine .bind (Store.setKind_keeps hpayload fun o ho => ?_) fun _ s' hgrows _ => ?_
    · exact Kind.link?_of_isConvertible (Heap.isConvertible_of_isBlankInstance hnew ho)
    · exact .pure (hgrows.knows hreceiver)
  · exact .pure (Heap.knows_of_isPrimitive hpayload)

theorem wrap_keeps {constructor : ObjectId} (hfixed : constructor.index < 15) {payload : Value}
    (hpayload : payload.isPrimitive = true) :
    (wrap constructor payload).Keeps roots s Heap.Knows := by
  refine .bind (Store.allocInstance_keeps fun hs p hp => ?_) fun id s₁ _ hid => ?_
  · cases hp
    exact hs.has_fixed hfixed
  · obtain ⟨hhas, o, ho, hlink⟩ := hid
    refine .bind (Store.setKind_keeps hpayload fun o' ho' => ?_) fun _ s₂ hgrows _ => ?_
    · rw [ho] at ho'
      cases ho'
      exact hlink
    · exact .pure (Heap.knows_object.mpr (hgrows.has hhas))

theorem object_keeps {receiver : Value} {args : List Value} (hreceiver : s.Knows receiver)
    (h : s.KnowsAll args) : (object receiver args).Keeps roots s Heap.Knows := by
  have hempty : (do
      let isNew ← Edit.ask fun s => s.isBlankInstance receiver Intrinsic.object
      if isNew then return receiver else return .object (← Store.allocPlain)
      : Edit Value).Keeps roots s Heap.Knows := by
    refine .ask_bind fun _ => ?_
    split
    · exact .pure hreceiver
    · exact .bind Store.allocPlain_keeps fun _ _ _ hid => .pure (Heap.knows_object.mpr hid)
  have hargument := h.argument 0
  unfold object
  split
  · rename_i id hid
    rw [hid] at hargument
    exact .pure hargument
  · exact hempty
  · exact hempty
  · exact wrap_keeps (by decide) rfl
  · exact wrap_keeps (by decide) rfl
  · exact wrap_keeps (by decide) rfl

end Wrapping

namespace Dates

theorem construct_keeps {receiver : Value} (args : List Value) (hreceiver : s.Knows receiver) :
    (construct receiver args).Keeps roots s Heap.Knows := by
  refine .ask_bind fun _ => ?_
  split
  · rename_i id hnew
    refine .ask_bind fun _ => ?_
    refine .bind (Store.setKind_keeps trivial fun o ho => ?_) fun _ s' hgrows _ => ?_
    · exact Kind.link?_of_isConvertible (Heap.isConvertible_of_isBlankInstance hnew ho)
    · exact .pure (hgrows.knows hreceiver)
  · exact .ask fun _ => Heap.knows_of_isPrimitive rfl

/-- What holds a time is not a scope. -/
theorem setTime_keeps {receiver : Value} {before : Float} (h : held s receiver = .ok before)
    (time : Float) : (setTime receiver time).Keeps roots s Heap.Knows := by
  refine .bind (P := Heap.Anything) ?_ fun _ _ _ _ => .pure (Heap.knows_of_isPrimitive rfl)
  cases receiver with
  | object id =>
      refine Store.setKind_keeps trivial fun o ho => ?_
      have hobject : s.objectOf? (.object id) = some o := ho
      unfold held at h
      rw [hobject] at h
      cases hkind : o.kind with
      | scope outer =>
          rw [Option.map_some, hkind] at h
          cases h
      | _ => rfl
  | _ => exact .pure trivial

theorem method_keeps (m : DateMethod) (receiver : Value) (args : List Value) :
    (method m receiver args).Keeps roots s Heap.Knows := by
  have hprimitive {v : Value} (hv : v.isPrimitive = true) :
      (Pure.pure v : Edit Value).Keeps roots s Heap.Knows := .pure (Heap.knows_of_isPrimitive hv)
  cases m with
  | setParts first count =>
      refine .query_bind fun _ time htime => ?_
      obtain ⟨before, hheld, -⟩ := exists_of_bind_eq_ok htime
      cases time with
      | none => exact hprimitive rfl
      | some time => exact setTime_keeps hheld time
  | setTime => exact .query_bind fun _ _ hheld => .ask_bind fun _ => setTime_keeps hheld _
  | toText form =>
      refine .query_bind fun _ time _ => .query fun _ v hv => Heap.knows_of_isPrimitive ?_
      unfold writing at hv
      split at hv <;> cases hv <;> rfl
  | _ => exact .query_bind fun _ time _ => hprimitive rfl

end Dates

theorem Texts.compute_isPrimitive (m : StringMethod) (text : String) (args : List Value) :
    (compute s m text args).isPrimitive = true := by
  cases m with
  | indexOf | lastIndexOf => exact Sequence.place_isPrimitive _
  | _ => rfl

theorem Texts.method_keeps (m : StringMethod) (receiver : Value) (args : List Value) :
    (method m receiver args).Keeps roots s Heap.Knows := by
  cases m with
  | valueOf =>
      refine .query fun _ v hv => ?_
      obtain ⟨text, -, rfl⟩ := exists_of_map_eq_ok hv
      exact Heap.knows_of_isPrimitive rfl
  | split =>
      refine .query_bind fun _ text _ => .ask_bind fun _ => .ask_bind fun _ => ?_
      refine .bind (Store.allocArray_keeps fun v hv => ?_) fun id s' _ hid => ?_
      · obtain ⟨piece, -, rfl⟩ := List.mem_map.mp hv
        exact Heap.knows_of_isPrimitive rfl
      · exact .pure (Heap.knows_object.mpr hid)
  | _ =>
      refine .query_bind fun _ text _ => .ask fun _ => ?_
      exact Heap.knows_of_isPrimitive (compute_isPrimitive _ _ _)

theorem Arithmetic.apply_keeps (f : MathFunction) (args : List Value) :
    (apply f args).Keeps roots s Heap.Knows := by
  cases f with
  | random =>
      refine .bind (P := Heap.Anything) ?_ fun _ _ _ _ => .pure (Heap.knows_of_isPrimitive rfl)
      refine .ask_bind fun _ => .bind (.commit fun hs => ?_) fun _ _ _ _ => .pure trivial
      exact hs.of_objects_eq rfl
  | _ => exact .ask fun _ => Heap.knows_of_isPrimitive rfl

/-! ### The library -/

/-- A function made from source text closes over the global scope. -/
theorem Compiling.construct_keeps (args : List Value) :
    (construct args).Keeps roots s Heap.Knows := by
  refine .query_bind fun hs code _ => ?_
  refine .bind (Store.allocScript_keeps code hs.globalScope) fun f s' _ hf => ?_
  exact .pure (Heap.knows_object.mpr hf)

theorem Conversions.apply_isPrimitive {f : GlobalFunction} {args : List Value} {v : Value}
    (h : apply s f args = .ok v) : v.isPrimitive = true := by
  have hdecoded {keep : Char → Bool} {text : List Char} (h : decoded keep text = .ok v) :
      v.isPrimitive = true := by
    unfold decoded at h
    split at h <;> cases h
    rfl
  cases f with
  | decodeURI | decodeURIComponent => exact hdecoded h
  | _ =>
      cases h
      rfl

theorem Numeral.method_isPrimitive {m : NumberMethod} {receiver v : Value} {args : List Value}
    (h : method s m receiver args = .ok v) : v.isPrimitive = true := by
  have hwritten {written : Except Failure String}
      (h : (do return Value.string (← written)) = .ok v) : v.isPrimitive = true := by
    obtain ⟨text, -, h⟩ := exists_of_bind_eq_ok h
    cases h
    rfl
  obtain ⟨n, -, h⟩ := exists_of_bind_eq_ok h
  cases m with
  | valueOf =>
      cases h
      rfl
  | toPrecision =>
      dsimp only at h
      split at h
      · exact hwritten h
      · cases h
        rfl
  | _ => exact hwritten h

theorem Builtin.call_keeps (b : Builtin) {receiver : Value} {args : List Value}
    (hreceiver : s.Knows receiver) (h : s.KnowsAll args) :
    (b.call receiver args).Keeps roots s Heap.Knows := by
  have hprimitive {f : Heap → Except Failure Value}
      (hf : ∀ v, f s = .ok v → v.isPrimitive = true) : (Edit.query f).Keeps roots s Heap.Knows :=
    .query fun _ v hv => Heap.knows_of_isPrimitive (hf v hv)
  cases b with
  | objectConstructor => exact Wrapping.object_keeps hreceiver h
  | functionConstructor => exact Compiling.construct_keeps args
  | arrayConstructor => exact Sequence.construct_keeps hreceiver h
  | numberConstructor => exact .ask_bind fun _ => Wrapping.wrapIfNew_keeps _ hreceiver rfl
  | stringConstructor => exact .query_bind fun _ _ _ => Wrapping.wrapIfNew_keeps _ hreceiver rfl
  | booleanConstructor => exact Wrapping.wrapIfNew_keeps _ hreceiver rfl
  | dateConstructor => exact Dates.construct_keeps args hreceiver
  | itself => exact .pure hreceiver
  | array m => exact Sequence.method_keeps m hreceiver h
  | string m => exact Texts.method_keeps m receiver args
  | date m => exact Dates.method_keeps m receiver args
  | math f => exact Arithmetic.apply_keeps f args
  | objectToText | dateNow | dateParse | dateUTC =>
      exact .ask fun _ => Heap.knows_of_isPrimitive rfl
  | functionToText =>
      refine hprimitive fun v hv => ?_
      unfold Compiling.functionText at hv
      split at hv <;> cases hv
      rfl
  | booleanToText =>
      refine hprimitive fun v hv => ?_
      obtain ⟨b, -, hv⟩ := exists_of_bind_eq_ok hv
      cases hv
      rfl
  | booleanValue =>
      refine hprimitive fun v hv => ?_
      obtain ⟨b, -, rfl⟩ := exists_of_map_eq_ok hv
      rfl
  | number m => exact hprimitive fun v hv => Numeral.method_isPrimitive hv
  | global f => exact hprimitive fun v hv => Conversions.apply_isPrimitive hv

/-- **A library function keeps the heap intact**, and returns what is known. -/
theorem NativeCode.call_keeps (code : NativeCode) {receiver : Value} {args : List Value}
    (hreceiver : s.Knows receiver) (h : s.KnowsAll args) :
    (code.call receiver args).Keeps roots s Heap.Knows := by
  cases code with
  | builtin b => exact b.call_keeps hreceiver h
  | host f =>
      cases f with
      | record =>
          refine .ask_bind fun _ => .bind (.commit fun hs => ?_) fun _ s' hgrows _ => ?_
          · exact hs.of_objects_eq rfl
          · exact .pure (hgrows.knows (h.argument 0))
      | fail => exact .query fun _ v hv => by cases hv
      | receiver => exact .pure hreceiver
      | argumentCount => exact .pure (Heap.knows_of_isPrimitive rfl)

/-! ### Places and calls -/

theorem Heap.lookup_knows (hs : s.Intact roots) {scope : ObjectId} {name : String} {v : Value}
    (h : s.lookup scope name = .ok v) : s.Knows v := by
  unfold lookup at h
  split at h
  · exact getProperty_knows hs h
  · cases h

theorem Reference.write_keeps (scope : ObjectId) (r : Reference) {v : Value} (hv : s.Knows v) :
    (r.write scope v).Keeps roots s Heap.Anything := by
  rcases r with name | ⟨base, key⟩
  · exact Store.assign_keeps _ _ hv
  · exact Store.setProperty_keeps _ _ hv

theorem Reference.read_knows (hs : s.Intact roots) {scope : ObjectId} {r : Reference} {v : Value}
    (h : r.read s scope = .ok v) : s.Knows v := by
  rcases r with name | ⟨base, key⟩
  · exact Heap.lookup_knows hs h
  · exact Heap.getProperty_knows hs h

theorem Reference.delete_keeps (scope : ObjectId) (r : Reference) :
    (r.delete scope).Keeps roots s Heap.Anything := by
  rcases r with name | ⟨base, key⟩
  · refine .ask_bind fun _ => ?_
    split
    · exact Store.deleteProperty_keeps _ _
    · exact .pure trivial
  · exact Store.deleteProperty_keeps _ _

/-- A function closes over a scope, its own one if it has a name. -/
theorem Code.close_keeps (code : FunctionCode) {scope : ObjectId} (h : s.IsScope scope) :
    (close code scope).Keeps roots s Heap.Has := by
  unfold close
  split
  · exact Store.allocScript_keeps code h
  · refine .bind (Store.allocScope_keeps h) fun inner s₁ _ hinner => ?_
    refine .bind (Store.allocScript_keeps code hinner) fun f s₂ _ hf => ?_
    refine .bind (Store.declare_keeps _ _ (Heap.knows_object.mpr hf)) fun _ s₃ hgrows _ => ?_
    exact .pure (hgrows.has hf)

theorem UpdateOp.perform_keeps (op : UpdateOp) (scope : ObjectId) (leading : Bool)
    (target : Reference) : (op.perform scope leading target).Keeps roots s Heap.Knows := by
  refine .query_bind fun _ old _ => .query_bind fun _ new _ => ?_
  refine .bind (Reference.write_keeps _ _ (Heap.knows_of_isPrimitive rfl)) fun _ _ _ _ => ?_
  exact .pure (Heap.knows_of_isPrimitive rfl)

theorem UnaryOp.perform_keeps (op : UnaryOp) (scope : ObjectId) (operand : Option Completion) :
    (op.perform scope operand).Keeps roots s Heap.Knows := by
  have hunary (v : Value) : (Edit.query fun s => s.unary op v).Keeps roots s Heap.Knows :=
    .query fun _ r hr => Heap.knows_of_isPrimitive (Heap.unary_isPrimitive hr)
  unfold perform
  split
  · refine .bind (Reference.delete_keeps _ _) fun _ _ _ _ => ?_
    exact .pure (Heap.knows_of_isPrimitive rfl)
  · refine .query fun _ r hr => Heap.knows_of_isPrimitive ?_
    unfold Heap.typeOfVariable at hr
    split at hr
    · obtain ⟨v, -, hr⟩ := exists_of_bind_eq_ok hr
      cases hr
      rfl
    · cases hr
      rfl
  · exact hunary _
  · exact hunary _

/-- A new activation has a scope within the one that the function closes over. -/
theorem activate_keeps (code : FunctionCode) {closure : ObjectId} {args : List Value}
    (hclosure : s.IsScope closure) (h : s.KnowsAll args) :
    (activate code closure args).Keeps roots s Heap.IsScope := by
  refine .bind (Store.allocScope_keeps hclosure) fun scope s₁ hgrows₁ hscope₁ => ?_
  have hargs₁ := hgrows₁.knowsAll h
  refine .bind (P := Heap.Anything) ?_ fun _ s₂ hgrows₂ _ => .pure (hgrows₂.isScope hscope₁)
  refine .bind (Store.allocArray_keeps hargs₁) fun list s₂ hgrows₂ hlist => ?_
  refine .bind (Store.declare_keeps _ _ (Heap.knows_object.mpr hlist)) fun _ s₃ hgrows₃ _ => ?_
  have hargs₃ := hgrows₃.knowsAll (hgrows₂.knowsAll hargs₁)
  have hscope₃ := hgrows₃.isScope (hgrows₂.isScope hscope₁)
  refine .bind (.forM _ fun p _ s' hgrows => ?_) fun _ s₄ hgrows₄ _ => ?_
  · exact Store.declare_keeps _ _ (hgrows.knows (hargs₃.argument p.2))
  · exact Store.hoist_keeps _ (hgrows₄.isScope hscope₃)

end Stepwise
