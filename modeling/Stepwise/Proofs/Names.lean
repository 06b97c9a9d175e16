/-
The keys in heaps.

A property is stored under a key that a text, a number or a value is read as, and such a key
is told by the text that it writes.  Scripts and library functions see to that themselves, and
a host does if the keys that it passes are read from texts.  So no two keys in a heap write the
same text: what a key stands for is a name.
-/
import Stepwise.Proofs.History
import Stepwise.Proofs.Hoisting
import Stepwise.Proofs.Start

namespace Stepwise

/-- Everything is allowed under canonical keys. -/
def Licence.canonicalKeys : Licence := ⟨fun _ => True, Key.IsCanonical, fun _ h => h, True⟩

namespace Heap

/-- All keys of all objects are canonical. -/
def HasCanonicalKeys (s : Heap) : Prop := s.Every Object.HasCanonicalKeys

variable {s s' : Heap}

theorem HasCanonicalKeys.own? (h : s.HasCanonicalKeys) {id : ObjectId} {key : Key} {p : Property}
    (hp : s.own? id key = some p) : key.IsCanonical := by
  obtain ⟨o, ho, hget⟩ := Option.bind_eq_some_iff.mp hp
  exact h id o ho key (by rw [Properties.contains, hget]; rfl)

/-- A move made under canonical keys leaves the keys canonical. -/
theorem Move.hasCanonicalKeys (h : Move .canonicalKeys s s') (hs : s.HasCanonicalKeys) :
    s'.HasCanonicalKeys := by
  cases h with
  | alloc o _ hkeys _ _ => exact Every.push hs hkeys
  | define id key p hkey => exact Every.change hs id fun o ho => ho.define hkey p
  | put id key v hkey => exact Every.change hs id fun o ho => ho.put hkey v
  | erase id key _ => exact Every.change hs id fun o ho => ho.erase key
  | resize id length _ => exact Every.change hs id fun o ho => ho.resize length
  | setKind id kind _ _ => exact Every.change hs id fun o ho => ho
  | reseed seed => exact hs
  | record row => exact hs

theorem Changes.hasCanonicalKeys (h : s.Changes .canonicalKeys s') (hs : s.HasCanonicalKeys) :
    s'.HasCanonicalKeys := by
  rcases h with h | ⟨reader, rfl⟩
  · exact (h.moves trivial).keeps (fun _ _ hmove => hmove.hasCanonicalKeys) hs
  · exact hs

end Heap

theorem Store.create_hasCanonicalKeys (config : Config) (reader : Option SourceReader) (clock : Float)
    (seed : UInt64) : (create config reader clock seed).toHeap.HasCanonicalKeys := by
  refine create_every (l := .canonicalKeys) config clock seed (fun _ => trivial)
    (fun _ _ hmove => hmove.hasCanonicalKeys) fun o ho => ?_
  exact Library.fixedObjects_induction .new (fun _ _ _ hkey h => h.define hkey _) ho

/-- **Whatever an evaluator goes through, the keys in its heap are canonical**, if those that a host
passes are. -/
theorem Evaluator.heaps_haveCanonicalKeys (config : Config) (reader : Option SourceReader)
    (clock : Float) (seed : UInt64) {events : List Event}
    (hevents : ∀ event ∈ events, event.KeyedBy Key.IsCanonical) :
    let e : Evaluator := ⟨Store.create config reader clock seed, .idle⟩
    ∀ s ∈ e.heaps events, s.HasCanonicalKeys := by
  intro e
  have hmachine : e.machine.KeyedBy Key.IsCanonical := fun f hf => absurd hf List.not_mem_nil
  have hstore : e.store.toHeap.HasCanonicalKeys := Store.create_hasCanonicalKeys config reader clock seed
  exact heaps_keep (l := .canonicalKeys) (fun _ => trivial) (fun _ _ h hs => h.hasCanonicalKeys hs)
    hmachine hstore hevents

/-- A step leaves the keys canonical, in the frames and in the heap. -/
theorem Machine.step_hasCanonicalKeys {m m' : Machine} {s s' : Store} {fuel : Nat}
    (hmachine : m.KeyedBy Key.IsCanonical) (hkeys : s.HasCanonicalKeys)
    (hstep : step (runNested fuel) fuel m s = (.ok (some m'), s')) :
    m'.KeyedBy Key.IsCanonical ∧ s'.HasCanonicalKeys := by
  constructor
  · rcases m with ⟨- | ⟨f, below⟩, completion⟩
    · cases hstep
    · obtain ⟨m₁, s₁, hturn, hsome⟩ := exists_of_run_bind_eq_ok hstep
      cases hsome
      obtain ⟨hf, hbelow⟩ := List.forall_mem_cons.mp hmachine
      have hrest : KeyedBy Key.IsCanonical ⟨below, completion⟩ := hbelow
      exact hrest.turn (fun _ hkey => hkey) hf hturn
  · let e : Evaluator := ⟨s, m⟩
    have hend : (e.step fuel).2 = ⟨s', m'⟩ := by
      simp only [Evaluator.step, e, hstep]
    have hmem : s'.toHeap ∈ e.heaps [.step fuel] := by
      simp [Evaluator.heaps, Evaluator.handle, hend]
    have hevents : ∀ event ∈ [Evaluator.Event.step fuel], event.KeyedBy Key.IsCanonical := by
      intro event hevent
      rw [List.mem_singleton.mp hevent]
      trivial
    exact Evaluator.heaps_keep (l := .canonicalKeys) (e := e) (fun _ => trivial)
      (fun _ _ h hs => h.hasCanonicalKeys hs) hmachine hkeys hevents _ hmem

end Stepwise
