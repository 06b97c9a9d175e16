/-
What an evaluator goes through.

A host starts programs, edits the heap and takes steps, in any order.  The heaps that there
are to see meanwhile are those between two of these events and those at the instants of a
step, where nested machines run.  Whatever the host does, one of these heaps comes from
the one before by moves that set a length last, or by the host putting in another reader.
-/
import Stepwise.Proofs.Turns

namespace Stepwise

namespace HostOperation

/-- The key under which the operation stores a property, if it does. -/
def KeyedBy (P : Key → Prop) : HostOperation → Prop
  | define _ key _ | write _ key _ => P key
  | _ => True

variable {l : Licence} {op : HostOperation}

/-- What a host does to a heap makes moves, unless it puts in another reader. -/
theorem perform_cutsLast (hcode : ∀ code, l.code code) (hkeys : op.KeyedBy l.key)
    (hreader : ∀ reader, op ≠ .setReader reader) : Edit.CutsLast l op.perform := by
  cases op with
  | newObject parent => exact .of_moves (.bind (Store.allocInstance_moves _) fun _ => .pure _)
  | newArray elements => exact .of_moves (.bind (Store.allocArray_moves _) fun _ => .pure _)
  | newScope outer => exact .of_moves (.bind (Store.allocScope_moves _) fun _ => .pure _)
  | newFunction code closure =>
      exact .of_moves (.bind (Store.allocScript_moves (l := l.firm) (hcode code) _) fun _ => .pure _)
  | newNative name code arity =>
      exact .of_moves (.bind (Store.allocFunction_moves _ fun _ _ heq => by cases heq) fun _ => .pure _)
  | define id key p =>
      exact .of_moves (.bind (Store.define_moves (l := l.firm) _ hkeys _) fun _ => .pure _)
  | write target key v => exact .andReturn (Store.setProperty_cutsLast _ hkeys _) _
  | delete target key => exact .of_moves (.bind (Store.deleteProperty_moves _ _) fun _ => .pure _)
  | setLength id length => exact .andReturn (Store.setLength_cutsLast _ _) _
  | assign scope name v => exact .andReturn (Store.assign_cutsLast _ _ _) _
  | hoist body scope =>
      exact .of_moves (.bind (Store.hoist_moves _ _ fun _ code _ => hcode code) fun _ => .pure _)
  | call code receiver args => exact code.call_cutsLast receiver args
  | setReader reader => exact absurd rfl (hreader reader)

end HostOperation

namespace Evaluator

/-- What a host does with an evaluator.  A program is started over the store that there is. -/
inductive Event where
  | start (p : Program)
  | operate (op : HostOperation)
  | step (fuel : Nat)

/-- The keys that a host passes are among those of `P`. -/
def Event.KeyedBy (P : Key → Prop) : Event → Prop
  | .operate op => op.KeyedBy P
  | _ => True

theorem Event.keyedBy_any (event : Event) : event.KeyedBy fun _ => True := by
  rcases event with p | op | fuel
  · trivial
  · cases op <;> trivial
  · trivial

/-- The evaluator after an event. -/
def handle (e : Evaluator) : Event → Evaluator
  | .start p => start p e.store (pure ())
  | .operate op => { e with store := (Run.edit op.perform e.store).2 }
  | .step fuel => (e.step fuel).2

/-- The heaps that there are to see in the course of an event. -/
def heapsWithin (e : Evaluator) : Event → List Heap
  | .step fuel => (e.instants fuel).map fun p => p.store.toHeap
  | _ => []

/-- The heaps that there are to see from now on, that of now the first. -/
def heaps (e : Evaluator) : List Event → List Heap
  | [] => [e.store.toHeap]
  | event :: rest => e.store.toHeap :: (e.heapsWithin event ++ heaps (e.handle event) rest)

theorem heaps_eq_cons (e : Evaluator) (events : List Event) :
    ∃ later, e.heaps events = e.store.toHeap :: later := by
  cases events with
  | nil => exact ⟨_, rfl⟩
  | cons event rest => exact ⟨_, rfl⟩

end Evaluator

/-- A heap comes from another one by moves, or with another reader. -/
def Heap.Changes (l : Licence) (s t : Heap) : Prop :=
  s.MovesThenCut l t ∨ ∃ reader, t = { s with reader := some reader }

namespace Evaluator

variable {l : Licence} (hcode : ∀ code, l.code code)

include hcode

/-- What a step goes through, and what becomes of its frames. -/
private theorem step_heaps (e : Evaluator) (he : e.machine.KeyedBy l.key) (fuel : Nat) :
    ∃ s, Walk (Heap.Changes l) e.store.toHeap (e.heapsWithin (.step fuel)) s ∧
      s.Changes l (e.step fuel).2.store.toHeap ∧ (e.step fuel).2.machine.KeyedBy l.key := by
  have hinstant : e.instant.KeyedBy l.key := ⟨he, fun _ hm => absurd hm List.not_mem_nil⟩
  obtain ⟨q, hwalk, hends⟩ := e.step_walk fuel
  obtain ⟨hwalk, hq⟩ := hwalk.keeps (fun _ _ hnext => hnext.keyedBy l.canonical) hinstant
  have hheaps : Walk (Heap.Changes l) e.store.toHeap (e.heapsWithin (.step fuel)) q.store.toHeap :=
    hwalk.map (fun p => p.store.toHeap) fun _ _ h => .inl (h.1.movesThenCut hcode h.2)
  refine ⟨q.store.toHeap, hheaps, ?_⟩
  rcases hends with rfl | ⟨hfails, hframes⟩
  · exact ⟨.inl (.refl _), hq.1⟩
  · refine ⟨.inl (hfails.movesThenCut hcode hq), fun f hf => ?_⟩
    rw [hframes] at hf
    cases hf

private theorem event_heaps (e : Evaluator) (he : e.machine.KeyedBy l.key) (event : Event)
    (hevent : event.KeyedBy l.key) :
    ∃ s, Walk (Heap.Changes l) e.store.toHeap (e.heapsWithin event) s ∧
      s.Changes l (e.handle event).store.toHeap ∧ (e.handle event).machine.KeyedBy l.key := by
  cases event with
  | step fuel => exact step_heaps hcode e he fuel
  | start p =>
      refine ⟨_, .stay _, .inl ⟨_, _, ?_, .refl, .refl⟩, fun f hf => ?_⟩
      · exact Store.hoist_moves (l := l.firm) p.body Intrinsic.globalScope
          (fun _ code _ => hcode code) e.store.toHeap fun _ _ code _ _ => hcode code
      · rw [List.mem_singleton.mp hf]
        exact Frame.opening_keyedBy _ _ _
  | operate op =>
      refine ⟨_, .stay _, ?_, he⟩
      by_cases hreader : ∃ reader, op = .setReader reader
      · obtain ⟨reader, rfl⟩ := hreader
        exact .inr ⟨reader, rfl⟩
      · have hmoves := HostOperation.perform_cutsLast hcode hevent
          (fun reader heq => hreader ⟨reader, heq⟩) e.store.toHeap fun _ _ code _ _ => hcode code
        exact .inl hmoves

/-- **Every heap that there is to see comes from the one before.** -/
theorem heaps_isChain (events : List Event) (hevents : ∀ event ∈ events, event.KeyedBy l.key) :
    ∀ e : Evaluator, e.machine.KeyedBy l.key → (e.heaps events).IsChain (Heap.Changes l) := by
  induction events with
  | nil => exact fun e _ => .singleton _
  | cons event rest ih =>
      intro e he
      obtain ⟨hevent, hrest⟩ := List.forall_mem_cons.mp hevents
      obtain ⟨s, hwalk, hlast, hafter⟩ := event_heaps hcode e he event hevent
      have hchain := ih hrest _ hafter
      obtain ⟨later, hlater⟩ := (e.handle event).heaps_eq_cons rest
      rw [heaps, hlater]
      rw [hlater] at hchain
      exact hwalk.isChain_append hlast hchain

/-- What every change keeps is so in all heaps that there are to see, if it is so now. -/
theorem heaps_keep {P : Heap → Prop} (hP : ∀ s t : Heap, s.Changes l t → P s → P t) {e : Evaluator}
    (hmachine : e.machine.KeyedBy l.key) (hstore : P e.store.toHeap) {events : List Event}
    (hevents : ∀ event ∈ events, event.KeyedBy l.key) : ∀ s ∈ e.heaps events, P s := by
  have hchain := heaps_isChain hcode events hevents e hmachine
  refine hchain.induction P _ hP fun hne => ?_
  obtain ⟨later, hlater⟩ := e.heaps_eq_cons events
  simp only [hlater, List.head_cons]
  exact hstore

end Evaluator

/-! ### What every change keeps -/

namespace Evaluator

variable {roots : List ObjectId} {e : Evaluator} {P : Heap → Prop}
  (hchange : ∀ s t : Heap, s.Changes (.of fun _ => True) t → P s → P t)

include hchange

private theorem heaps_keep_one (e : Evaluator) (he : P e.store.toHeap) (event : Event) :
    ∀ s ∈ e.heaps [event], P s :=
  heaps_keep (fun _ => trivial) hchange (fun f _ => f.keyedBy_any) he fun event _ => event.keyedBy_any

/-- What every change keeps is so after an event, if it was so before. -/
theorem handle_keeps (e : Evaluator) (he : P e.store.toHeap) (event : Event) :
    P (e.handle event).store.toHeap := by
  refine heaps_keep_one hchange e he event _ ?_
  simp [heaps]

/-- What every new store has, and every change keeps, is so wherever a fair host comes to, between
two steps and at every instant of a step. -/
theorem HostedFairly.heaps_keep
    (hcreate : ∀ config reader clock seed, P (Store.create config reader clock seed).toHeap)
    (he : HostedFairly roots e) (fuel : Nat) : ∀ p ∈ e.instant :: e.instants fuel, P p.store.toHeap := by
  have hstore : P e.store.toHeap := by
    induction he with
    | realm config reader clock seed => exact hcreate config reader clock seed
    | start p _ ih => exact handle_keeps hchange _ ih (.start p)
    | operate op _ _ ih => exact handle_keeps hchange _ ih (.operate op)
    | step fuel _ ih => exact handle_keeps hchange _ ih (.step fuel)
  refine List.forall_mem_cons.mpr ⟨hstore, fun p hp => heaps_keep_one hchange e hstore (.step fuel) _ ?_⟩
  have hwithin : p.store.toHeap ∈ e.heapsWithin (.step fuel) :=
    List.mem_map_of_mem (f := fun p : Instant => p.store.toHeap) hp
  simp [heaps, hwithin]

end Evaluator

end Stepwise
