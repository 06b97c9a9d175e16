/-
What an edit can do to a heap.

Whatever a library function or an operator does to the heap is made of a few moves: a new
object, a property stored or taken away, a length set, an object that is nothing special
yet turned into a date or a wrapper, the random numbers carried on, a line written into
the journal.  `Heap.Move` lists them once.  A property of heaps that every move keeps is
kept by every edit, and then nothing has to be said of the single functions any more.

A move is made under a licence, which says what it may store: the code of a new script
function, and the key of a property.  A library function finds code in the texts that the
reader of the heap can read and nowhere else, which is what `Supplies` says, and keys in
the values it is given, which are canonical.  The licence also says whether a length may be
set, since that takes elements away.  No edit does so before it has done the rest of its
work, and that is `Edit.CutsLast`.
-/
import Mathlib.Logic.Relation
import Stepwise.Builtin.Compiling
import Stepwise.Proofs.Objects
import Stepwise.Store.Scope

namespace Stepwise

/-! ### One action after another -/

theorem exists_of_bind_eq_ok {ε α β : Type} {x : Except ε α} {f : α → Except ε β} {b : β}
    (h : x >>= f = .ok b) : ∃ a, x = .ok a ∧ f a = .ok b := by
  cases x with
  | error e => cases h
  | ok a => exact ⟨a, rfl, h⟩

theorem exists_of_map_eq_ok {ε α β : Type} {x : Except ε α} {f : α → β} {b : β}
    (h : x.map f = .ok b) : ∃ a, x = .ok a ∧ f a = b := by
  cases x with
  | error e => cases h
  | ok a => cases h; exact ⟨a, rfl, rfl⟩

section

variable {σ α β : Type} {act : ExceptT Failure (StateM σ) α}
  {next : α → ExceptT Failure (StateM σ) β} {s s' : σ}

theorem bind_of_ok {x : α} (h : act s = (.ok x, s')) : (act >>= next) s = next x s' := by
  simp only [bind, ExceptT.bind, ExceptT.mk, StateT.bind, h, ExceptT.bindCont]

theorem bind_of_error {e : Failure} (h : act s = (.error e, s')) :
    (act >>= next) s = (.error e, s') := by
  simp only [bind, ExceptT.bind, ExceptT.mk, StateT.bind, h, ExceptT.bindCont]
  rfl

/-- What comes after an action that ends well goes on from where that one ended. -/
theorem exists_of_run_bind_eq_ok {y : β} (h : (act >>= next) s = (.ok y, s')) :
    ∃ x t, act s = (.ok x, t) ∧ next x t = (.ok y, s') := by
  rcases hact : act s with ⟨e | x, t⟩
  · rw [bind_of_error hact] at h
    cases h
  · rw [bind_of_ok hact] at h
    exact ⟨x, t, rfl, h⟩

/-- What two actions come to: the first one fails, or the second one goes on from where that ended. -/
theorem bind_cases {P : Except Failure β → σ → Prop}
    (herror : ∀ e, (act s).1 = .error e → P (.error e) (act s).2)
    (hok : ∀ x, (act s).1 = .ok x → P (next x (act s).2).1 (next x (act s).2).2) :
    P ((act >>= next) s).1 ((act >>= next) s).2 := by
  rcases hact : act s with ⟨e | x, t⟩
  · rw [hact] at herror
    rw [bind_of_error hact]
    exact herror e rfl
  · rw [hact] at hok
    rw [bind_of_ok hact]
    exact hok x rfl

/-- The same where only what they leave behind counts. -/
theorem snd_bind {P : σ → Prop} (hact : P (act s).2) (hnext : ∀ x, P (next x (act s).2).2) :
    P ((act >>= next) s).2 :=
  bind_cases (P := fun _ t => P t) (fun _ _ => hact) fun x _ => hnext x

end

/-- An edit of the heap of a store. -/
theorem Run.liftM_eq {α : Type} {act : Edit α} {s : Store} {result : Except Failure α} {heap : Heap}
    (h : act s.toHeap = (result, heap)) :
    (liftM act : Run α) s = (result, { s with toHeap := heap }) := by
  rcases s with ⟨heap₀, config, evalDepth, outerFrames⟩
  show ((act heap₀).1, (⟨(act heap₀).2, config, evalDepth, outerFrames⟩ : Store)) = _
  rw [h]

theorem Run.exists_of_liftM_eq_ok {α : Type} {act : Edit α} {s s' : Store} {x : α}
    (h : (liftM act : Run α) s = (.ok x, s')) :
    ∃ heap, act s.toHeap = (.ok x, heap) ∧ s' = { s with toHeap := heap } := by
  rcases hact : act s.toHeap with ⟨result, heap⟩
  rw [Run.liftM_eq hact] at h
  cases h
  exact ⟨heap, rfl, rfl⟩

/-- A question leaves the heap as it is. -/
theorem Edit.query_eq_ok {α : Type} {f : Heap → Except Failure α} {s s' : Heap} {x : α}
    (h : Edit.query f s = (.ok x, s')) : f s = .ok x ∧ s' = s :=
  ⟨congrArg Prod.fst h, (congrArg Prod.snd h).symm⟩

/-- What comes after a question finds the heap as it was. -/
theorem Edit.ask_bind_eq {α β : Type} (f : Heap → α) (next : α → Edit β) (s : Heap) :
    (Edit.ask f >>= next) s = next (f s) s := rfl

theorem Run.liftM_pure {α : Type} (x : α) : (liftM (pure x : Edit α) : Run α) = pure x := rfl

/-! ### Licences -/

/-- What moves may do. -/
structure Licence where
  /-- Which code may a new script function have? -/
  code : FunctionCode → Prop
  /-- Under which keys may a property be stored? -/
  key : Key → Prop
  canonical : ∀ k, k.IsCanonical → key k
  /-- May the length of an array be set? -/
  cuts : Prop

namespace Licence

/-- Everything is allowed, but code has to be good. -/
abbrev of (good : FunctionCode → Prop) : Licence := ⟨good, fun _ => True, fun _ _ => trivial, True⟩

/-- The same without setting lengths. -/
abbrev firm (l : Licence) : Licence := { l with cuts := False }

end Licence

/-- A kind that `new` gives, without elements, or a date: it can be replaced. -/
def Kind.isConvertible : Kind → Bool
  | .ordinary | .array 0 | .date _ => true
  | _ => false

/-- A kind that replaces another one. -/
def Kind.isBoxed : Kind → Bool
  | .date _ | .wrapper _ => true
  | _ => false

/-- A scope within another one inherits from nothing. -/
def Object.IsUnforked (o : Object) : Prop := o.outerScope? = none ∨ o.parent = none

/-- What is fresh from `new` has such a kind. -/
theorem Heap.isConvertible_of_isBlankInstance {s : Heap} {constructor id : ObjectId} {o : Object}
    (h : s.isBlankInstance (.object id) constructor = true) (ho : s.object? id = some o) :
    o.kind.isConvertible = true := by
  have hobject : s.objectOf? (.object id) = some o := ho
  unfold isBlankInstance at h
  rw [hobject, Option.any_some, Bool.and_eq_true] at h
  obtain ⟨-, hkind⟩ := h
  split at hkind
  · rename_i heq
    rw [heq]
    rfl
  · rename_i heq
    rw [heq]
    rfl
  · cases hkind

/-! ### Moves -/

namespace Heap

/-- One change of a heap. -/
inductive Move (l : Licence) : Heap → Heap → Prop where
  | alloc (s : Heap) (o : Object) (hbounds : o.InBounds) (hkeys : o.HasCanonicalKeys)
      (hlinks : o.IsUnforked)
      (hcode : ∀ code closure, o.callable? = some (.script code closure) → l.code code) :
      Move l s { s with objects := s.objects.push o }
  | define (s : Heap) (id : ObjectId) (key : Key) (p : Property) (hkey : l.key key) :
      Move l s (s.change id fun o => o.define key p)
  | put (s : Heap) (id : ObjectId) (key : Key) (v : Value) (hkey : l.key key) :
      Move l s (s.change id fun o => o.put key v)
  | erase (s : Heap) (id : ObjectId) (key : Key)
      (h : ∀ o p, s.object? id = some o → o.properties.get? key = some p → p.readonly = false) :
      Move l s (s.change id fun o => o.erase key)
  | resize (s : Heap) (id : ObjectId) (length : Nat) (h : l.cuts) :
      Move l s (s.change id fun o => o.resize length)
  | setKind (s : Heap) (id : ObjectId) (kind : Kind) (hkind : kind.isBoxed = true)
      (h : ∀ o, s.object? id = some o → o.kind.isConvertible = true) :
      Move l s (s.change id fun o => { o with kind })
  | reseed (s : Heap) (seed : UInt64) : Move l s { s with seed }
  | record (s : Heap) (row : List Picture) : Move l s { s with journal := s.journal.push row }

/-- Any number of changes. -/
abbrev Moves (l : Licence) : Heap → Heap → Prop := Relation.ReflTransGen (Move l)

/-- The length of one array is set. -/
def Cut (s s' : Heap) : Prop := ∃ id length, s' = s.change id fun o => o.resize length

/-- An object that is no function is added. -/
def Addition (s s' : Heap) : Prop :=
  ∃ o : Object, o.InBounds ∧ o.HasCanonicalKeys ∧ o.IsUnforked ∧ o.callable? = none ∧
    s' = { s with objects := s.objects.push o }

/-- Objects are added, and nothing else happens. -/
abbrev Additions : Heap → Heap → Prop := Relation.ReflTransGen Addition

/-- Moves that set no length, then at most one that does, and then only new objects. -/
def MovesThenCut (l : Licence) (s s' : Heap) : Prop :=
  ∃ t u, s.Moves l.firm t ∧ Relation.ReflGen Cut t u ∧ u.Additions s'

/-- Every function that the reader of the heap can read is good. -/
def Supplies (good : FunctionCode → Prop) (s : Heap) : Prop :=
  ∀ source p code, s.parse source = .ok p → Compiling.firstFunction? p.body = some code → good code

variable {l : Licence} {good : FunctionCode → Prop} {s s' : Heap}

theorem Move.reader_eq (h : Move l s s') : s'.reader = s.reader := by
  cases h <;> rfl

theorem Moves.reader_eq (h : Moves l s s') : s'.reader = s.reader := by
  induction h with
  | refl => rfl
  | tail _ hlast ih => rw [hlast.reader_eq, ih]

/-- What a heap can read does not change. -/
theorem Moves.parse_eq (h : Moves l s s') (source : String) : s'.parse source = s.parse source := by
  unfold parse
  rw [h.reader_eq]

theorem Moves.supplies (h : Moves l s s') (hs : s.Supplies good) : s'.Supplies good := by
  intro source p code hp
  rw [h.parse_eq] at hp
  exact hs source p code hp

/-- A property that every move keeps is kept by any number of them. -/
theorem Moves.keeps {P : Heap → Prop} (hP : ∀ s s', Move l s s' → P s → P s')
    (h : Moves l s s') (hs : P s) : P s' := by
  induction h with
  | refl => exact hs
  | tail _ hlast ih => exact hP _ _ hlast ih

/-- A move that sets no length may be made where lengths may be set. -/
theorem Move.of_firm (h : Move l.firm s s') : Move l s s' := by
  cases h with
  | alloc o hbounds hkeys hlinks hcode => exact .alloc s o hbounds hkeys hlinks hcode
  | define id key p hkey => exact .define s id key p hkey
  | put id key v hkey => exact .put s id key v hkey
  | erase id key h => exact .erase s id key h
  | resize id length h => exact h.elim
  | setKind id kind hkind h => exact .setKind s id kind hkind h
  | reseed seed => exact .reseed s seed
  | record row => exact .record s row

theorem Moves.of_firm (h : Moves l.firm s s') : Moves l s s' :=
  Relation.ReflTransGen.mono (fun _ _ => Move.of_firm) _ _ h

theorem Addition.move (h : Addition s s') : Move l s s' := by
  obtain ⟨o, hbounds, hkeys, hlinks, hplain, rfl⟩ := h
  exact .alloc s o hbounds hkeys hlinks fun code closure hcode => by rw [hplain] at hcode; cases hcode

theorem Additions.moves (h : Additions s s') : Moves l s s' :=
  Relation.ReflTransGen.mono (fun _ _ => Addition.move) _ _ h

theorem MovesThenCut.refl (s : Heap) : MovesThenCut l s s := ⟨s, s, .refl, .refl, .refl⟩

theorem MovesThenCut.moves (h : MovesThenCut l s s') (hl : l.cuts) : Moves l s s' := by
  obtain ⟨t, u, hfirm, hcut, hadded⟩ := h
  refine hfirm.of_firm.trans (Relation.ReflTransGen.trans ?_ hadded.moves)
  cases hcut with
  | refl => exact .refl
  | single hcut =>
      obtain ⟨id, length, rfl⟩ := hcut
      exact .single (.resize t id length hl)

end Heap

/-! ### Edits -/

/-- An edit that only makes moves, as long as the reader supplies good code. -/
def Edit.Moves {α : Type} (l : Licence) (act : Edit α) : Prop :=
  ∀ s : Heap, s.Supplies l.code → s.Moves l (act s).2

/-- An edit that adds objects, and does nothing else. -/
def Edit.Adds {α : Type} (act : Edit α) : Prop := ∀ s : Heap, s.Additions (act s).2

/-- An edit that sets a length at most once, when it has done everything else that is to be
done with the objects that are there. -/
def Edit.CutsLast {α : Type} (l : Licence) (act : Edit α) : Prop :=
  ∀ s : Heap, s.Supplies l.code → s.MovesThenCut l (act s).2

namespace Edit.Moves

variable {α β : Type} {l : Licence}

theorem pure (x : α) : Edit.Moves l (Pure.pure x : Edit α) := fun _ _ => .refl

theorem throw (e : Failure) : Edit.Moves l (MonadExcept.throw e : Edit α) := fun _ _ => .refl

theorem ask (f : Heap → α) : Edit.Moves l (Edit.ask f) := fun _ _ => .refl

theorem query (f : Heap → Except Failure α) : Edit.Moves l (Edit.query f) := fun _ _ => .refl

theorem commit {f : Heap → Heap} (h : ∀ s, Heap.Move l s (f s)) :
    Edit.Moves l (Edit.commit f) := fun s _ => .single (h s)

theorem bind {act : Edit α} {next : α → Edit β} (hact : Edit.Moves l act)
    (hnext : ∀ x, Edit.Moves l (next x)) : Edit.Moves l (act >>= next) := by
  intro s hs
  have hfirst := hact s hs
  exact snd_bind hfirst fun x => hfirst.trans (hnext x _ (hfirst.supplies hs))

/-- What comes after a question may rely on the answer. -/
theorem ask_bind {f : Heap → α} {next : α → Edit β}
    (hnext : ∀ s : Heap, s.Supplies l.code → s.Moves l (next (f s) s).2) :
    Edit.Moves l (Edit.ask f >>= next) := by
  intro s hs
  rw [Edit.ask_bind_eq]
  exact hnext s hs

theorem query_bind {f : Heap → Except Failure α} {next : α → Edit β}
    (hnext : ∀ s x, s.Supplies l.code → f s = .ok x → s.Moves l (next x s).2) :
    Edit.Moves l (Edit.query f >>= next) := by
  intro s hs
  rcases hf : f s with e | x
  · rw [bind_of_error (show Edit.query f s = (.error e, s) by simp only [Edit.query, hf])]
  · rw [bind_of_ok (show Edit.query f s = (.ok x, s) by simp only [Edit.query, hf])]
    exact hnext s x hs hf

theorem forM {f : α → Edit PUnit} (hf : ∀ x, Edit.Moves l (f x)) :
    ∀ xs : List α, Edit.Moves l (xs.forM f) := by
  intro xs
  induction xs with
  | nil => exact pure _
  | cons x rest ih => exact (hf x).bind fun _ => ih

theorem mapM {f : α → Edit β} (hf : ∀ x, Edit.Moves l (f x)) :
    ∀ xs : List α, Edit.Moves l (xs.mapM f) := by
  intro xs
  induction xs with
  | nil => exact pure _
  | cons x rest ih =>
      rw [List.mapM_cons]
      exact (hf x).bind fun _ => ih.bind fun _ => pure _

theorem foldlM {f : β → α → Edit β} (hf : ∀ b x, Edit.Moves l (f b x)) :
    ∀ (xs : List α) (b : β), Edit.Moves l (xs.foldlM f b) := by
  intro xs
  induction xs with
  | nil => intro b; exact pure _
  | cons x rest ih => intro b; exact (hf b x).bind fun _ => ih _

end Edit.Moves

namespace Edit.CutsLast

variable {α β : Type} {l : Licence}

/-- An edit that sets no length. -/
theorem of_moves {act : Edit α} (h : Edit.Moves l.firm act) : Edit.CutsLast l act :=
  fun s hs => ⟨_, _, h s hs, .refl, .refl⟩

theorem moves {act : Edit α} (h : Edit.CutsLast l act) (hl : l.cuts) : Edit.Moves l act :=
  fun s hs => (h s hs).moves hl

/-- What comes before sets no length. -/
theorem bind {act : Edit α} {next : α → Edit β} (hact : Edit.Moves l.firm act)
    (hnext : ∀ x, Edit.CutsLast l (next x)) : Edit.CutsLast l (act >>= next) := by
  intro s hs
  have hfirst := hact s hs
  refine snd_bind ⟨_, _, hfirst, .refl, .refl⟩ fun x => ?_
  obtain ⟨t, u, hrest, hcut, hadded⟩ := hnext x _ (hfirst.supplies hs)
  exact ⟨t, u, hfirst.trans hrest, hcut, hadded⟩

theorem ask_bind {f : Heap → α} {next : α → Edit β}
    (hnext : ∀ s : Heap, s.Supplies l.code → s.MovesThenCut l (next (f s) s).2) :
    Edit.CutsLast l (Edit.ask f >>= next) := by
  intro s hs
  rw [Edit.ask_bind_eq]
  exact hnext s hs

theorem query_bind {f : Heap → Except Failure α} {next : α → Edit β}
    (hnext : ∀ s x, s.Supplies l.code → f s = .ok x → s.MovesThenCut l (next x s).2) :
    Edit.CutsLast l (Edit.query f >>= next) := by
  intro s hs
  rcases hf : f s with e | x
  · rw [bind_of_error (show Edit.query f s = (.error e, s) by simp only [Edit.query, hf])]
    exact .refl s
  · rw [bind_of_ok (show Edit.query f s = (.ok x, s) by simp only [Edit.query, hf])]
    exact hnext s x hs hf

/-- What comes after only adds objects. -/
theorem andThen {act : Edit α} {next : α → Edit β} (hact : Edit.CutsLast l act)
    (hnext : ∀ x, (next x).Adds) : Edit.CutsLast l (act >>= next) := by
  intro s hs
  obtain ⟨t, u, hfirm, hcut, hadded⟩ := hact s hs
  exact snd_bind ⟨t, u, hfirm, hcut, hadded⟩ fun x => ⟨t, u, hfirm, hcut, hadded.trans (hnext x _)⟩

/-- What comes after only makes a value of the result. -/
theorem andReturn {act : Edit α} (hact : Edit.CutsLast l act) (f : α → β) :
    Edit.CutsLast l (act >>= fun x => Pure.pure (f x)) :=
  hact.andThen fun _ _ => .refl

end Edit.CutsLast

/-! ### Runs on a store -/

/-- A run that only makes moves on the heap of the store. -/
def Run.Moves {α : Type} (l : Licence) (act : Run α) : Prop :=
  ∀ s : Store, s.Supplies l.code → s.toHeap.Moves l (act s).2.toHeap

namespace Run.Moves

variable {α β : Type} {l : Licence}

theorem pure (x : α) : Run.Moves l (Pure.pure x : Run α) := fun _ _ => .refl

theorem ask (f : Store → α) : Run.Moves l (Run.ask f) := fun _ _ => .refl

theorem query (f : Store → Except Failure α) : Run.Moves l (Run.query f) := fun _ _ => .refl

theorem edit {act : Edit α} (h : Edit.Moves l act) : Run.Moves l (liftM act : Run α) :=
  fun s hs => h s.toHeap hs

theorem bind {act : Run α} {next : α → Run β} (hact : Run.Moves l act)
    (hnext : ∀ x, Run.Moves l (next x)) : Run.Moves l (act >>= next) := by
  intro s hs
  have hfirst := hact s hs
  exact snd_bind (P := fun t : Store => s.toHeap.Moves l t.toHeap) hfirst fun x =>
    hfirst.trans (hnext x _ (hfirst.supplies hs))

/-- An edit and what comes after it. -/
theorem after_edit {act : Edit α} {next : α → Run β} (hact : Edit.Moves l act)
    (hnext : ∀ x, Run.Moves l (next x)) : Run.Moves l (liftM act >>= next : Run β) :=
  .bind (.edit hact) hnext

end Run.Moves

/-- A run that sets a length at most once, and last. -/
def Run.CutsLast {α : Type} (l : Licence) (act : Run α) : Prop :=
  ∀ s : Store, s.Supplies l.code → s.toHeap.MovesThenCut l (act s).2.toHeap

namespace Run.CutsLast

variable {α β : Type} {l : Licence}

theorem of_moves {act : Run α} (h : Run.Moves l.firm act) : Run.CutsLast l act :=
  fun s hs => ⟨_, _, h s hs, .refl, .refl⟩

theorem edit {act : Edit α} (h : Edit.CutsLast l act) : Run.CutsLast l (liftM act : Run α) :=
  fun s hs => h s.toHeap hs

/-- What comes before sets no length. -/
theorem bind {act : Run α} {next : α → Run β} (hact : Run.Moves l.firm act)
    (hnext : ∀ x, Run.CutsLast l (next x)) : Run.CutsLast l (act >>= next) := by
  intro s hs
  have hfirst := hact s hs
  refine snd_bind (P := fun t : Store => s.toHeap.MovesThenCut l t.toHeap) ⟨_, _, hfirst, .refl, .refl⟩ fun x => ?_
  obtain ⟨t, u, hrest, hcut, hadded⟩ := hnext x _ (hfirst.supplies hs)
  exact ⟨t, u, hfirst.trans hrest, hcut, hadded⟩

/-- What comes after only makes a value of the result. -/
theorem andReturn {act : Run α} (hact : Run.CutsLast l act) (f : α → β) :
    Run.CutsLast l (act >>= fun x => Pure.pure (f x)) := by
  intro s hs
  exact snd_bind (P := fun t : Store => s.toHeap.MovesThenCut l t.toHeap) (hact s hs) fun _ => hact s hs

end Run.CutsLast

end Stepwise
