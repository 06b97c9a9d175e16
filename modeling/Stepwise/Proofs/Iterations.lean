/-
Loops over the names of a value.

Between one name and the next the body runs, and with it whatever it calls.  Meanwhile the loop
waits in a frame below, with what is left of its enumeration, and nothing above touches that.  So
a run of the machine, for as long as it stands on what is below the loop, is a sequence of turns
of one enumeration, each in a heap of its own (`run_turns`); what is so at the beginning and is
kept by turns is so at every instant (`loop_invariant`).

The names that have been assigned are read off the run (`assigned`).  They are all different, each
is there when it is assigned, and they come in the order of `Heap.loopKeys` if the objects keep
their properties.  As every turn shortens the enumeration, there is a last one.
-/
import Mathlib.Order.OrderIsoNat
import Stepwise.Proofs.Enumerations
import Stepwise.Proofs.Initializers
import Stepwise.Proofs.Names

namespace Stepwise

/-! ### The frame of a loop -/

namespace Frame

/-- What is left of the enumeration of a loop over names, and the body.  An enumeration begins
when there is a value. -/
def loop? (s : Heap) (f : Frame) : Option (Enumeration × Node) :=
  match f.work with
  | .forInObject target body => some (.start s target f.result, body)
  | .forInNext names body => some (names, body)
  | _ => none

variable {f : Frame} {s s' : Heap} {names names' : Enumeration} {body : Node} {c : Context} {key : Key}
  {a : Action}

/-- The turn of a loop looks for the next name. -/
theorem resume_loop (h : f.loop? s = some (names, body)) (c : Context) :
    ∃ g : Frame, f.resume c s = g.nextName c names body s := by
  rcases f with ⟨work, value, scope, receiver, labels⟩
  cases work with
  | forInObject target body' =>
      cases h
      exact ⟨_, rfl⟩
  | forInNext names' body' =>
      cases h
      exact ⟨_, rfl⟩
  | _ => cases h

theorem nextName_of_none (h : names.next? s = none) : f.nextName c names body s = (.ok .leave, s) := by
  rw [nextName, Edit.ask_bind_eq, h]
  rfl

theorem nextName_eq_ok (h : names.next? s = some (key, names'))
    (hok : f.nextName c names body s = (.ok a, s')) :
    names.target.write c.scope (.string key.toText) s = (.ok (), s') ∧
      a = f.awaitValue (.forInNext names' body) body := by
  rw [nextName, Edit.ask_bind_eq, h] at hok
  obtain ⟨⟨⟩, heap, hwrite, hawait⟩ := exists_of_run_bind_eq_ok hok
  cases hawait
  rw [← Enumeration.target_eq_of_next? h]
  exact ⟨hwrite, rfl⟩

end Frame

/-! ### Waiting on a base -/

theorem length_handTo (c : Completion) (frames : List Frame) : (handTo c frames).length = frames.length := by
  cases frames <;> rfl

/-- A frame with work of some kind stands on a base. -/
def WorksOn (base : List Frame) (P : Work → Prop) (frames : List Frame) : Prop :=
  ∃ above g, frames = above ++ g :: base ∧ P g.work

namespace WorksOn

variable {base below frames found : List Frame} {P : Work → Prop}

theorem cons (h : WorksOn base P frames) (f : Frame) : WorksOn base P (f :: frames) := by
  obtain ⟨above, g, rfl, hwork⟩ := h
  exact ⟨f :: above, g, rfl, hwork⟩

theorem handTo (h : WorksOn base P frames) (c : Completion) : WorksOn base P (handTo c frames) := by
  obtain ⟨above, g, rfl, hwork⟩ := h
  cases above with
  | nil => exact ⟨[], { g with value := some c }, rfl, hwork⟩
  | cons f rest => exact ⟨{ f with value := some c } :: rest, g, rfl, hwork⟩

/-- What is left of the frames has the frame, or it ends below it. -/
theorem suffix (h : WorksOn base P frames) (hfound : found <:+ frames)
    (hlength : base.length < found.length) : WorksOn base P found := by
  obtain ⟨above, g, rfl, hwork⟩ := h
  obtain ⟨above', rfl⟩ := List.suffix_of_suffix_length_le (List.suffix_append above (g :: base)) hfound hlength
  exact ⟨above', g, rfl, hwork⟩

/-- The action of a frame above leaves the work as it is, or it leaves nothing above the base. -/
theorem leaves {a : Action} (h : WorksOn base P below) (hleaves : a.Leaves below frames)
    (hlength : base.length < frames.length) : WorksOn base P frames := by
  cases a with
  | await f child =>
      obtain rfl : frames = child :: f :: below := hleaves
      exact (h.cons f).cons child
  | invoke f call =>
      rcases hleaves with ⟨v, rfl⟩ | ⟨constructed, opened, scope, receiver, rfl⟩
      · exact h.handTo _
      · exact (h.cons _).cons _
  | become f | again f =>
      obtain rfl : frames = f :: below := hleaves
      exact h.cons f
  | deliver c =>
      obtain rfl : frames = Stepwise.handTo c below := hleaves
      exact h.handTo c
  | leave | complete v =>
      obtain rfl : frames = below := hleaves
      exact h
  | breakTo label | continueAt label => exact h.suffix hleaves hlength
  | returnWith v =>
      obtain ⟨found, hfound, rfl⟩ := hleaves
      rw [length_handTo] at hlength
      exact (h.suffix hfound hlength).handTo _

end WorksOn

/-- A loop stands on a base, with what is left of its enumeration. -/
def LoopAt (base : List Frame) (names : Enumeration) (body : Node) (frames : List Frame) : Prop :=
  ∃ above g, frames = above ++ g :: base ∧ g.work = .forInNext names body

theorem loopAt_iff {base frames : List Frame} {names : Enumeration} {body : Node} :
    LoopAt base names body frames ↔ WorksOn base (· = .forInNext names body) frames := Iff.rfl

namespace Machine

/-! ### Turns of a loop -/

section

variable {base : List Frame} {names names' : Enumeration} {body : Node} {m m' : Machine} {s s' : Store}
  {here there : Machine × Store}

theorem StandsOn.length_lt (h : StandsOn base m) : base.length < m.frames.length := by
  obtain ⟨above, hne, hframes⟩ := h
  have hpos := List.length_pos_of_ne_nil hne
  rw [hframes, List.length_append]
  omega

/-- What is left of the enumeration of the loop on a base, and the body. -/
def loopOf (base : List Frame) (here : Machine × Store) : Option (Enumeration × Node) :=
  (here.1.frames.drop (here.1.depth - (base.length + 1))).head?.bind (Frame.loop? here.2.toHeap)

theorem loopOf_eq {above : List Frame} {g : Frame} (hframes : here.1.frames = above ++ g :: base) :
    loopOf base here = g.loop? here.2.toHeap := by
  have hdepth : here.1.depth - (base.length + 1) = above.length := by
    rw [depth, hframes, List.length_append, List.length_cons]
    omega
  rw [loopOf, hdepth, hframes, List.drop_left, List.head?_cons, Option.bind_some]

theorem loopOf_cons {f : Frame} (hframes : here.1.frames = f :: base) :
    loopOf base here = f.loop? here.2.toHeap :=
  loopOf_eq (show here.1.frames = [] ++ f :: base from hframes)

theorem loopOf_of_loopAt (h : LoopAt base names body here.1.frames) :
    loopOf base here = some (names, body) := by
  obtain ⟨above, g, hframes, hwork⟩ := h
  rw [loopOf_eq hframes, Frame.loop?, hwork]

/-- The key that the loop on a base assigns between two instants, if it assigns one: then it is the
turn of the loop, and the body stands on it afterwards. -/
def assigned? (base : List Frame) (here there : Machine × Store) : Option Key :=
  if here.1.depth = base.length + 1 ∧ there.1.depth = base.length + 2 then
    (loopOf base here).bind fun loop => (loop.1.next? here.2.toHeap).map Prod.fst
  else none

/-- The name is written to the target, and the body begins. -/
structure Assigns (base : List Frame) (target : Reference) (body : Node) (key : Key)
    (here there : Machine × Store) : Prop where
  writes : target.write (scopeOf base) (.string key.toText) here.2.toHeap = (.ok (), there.2.toHeap)
  begins : ∃ g, there.1.frames = .ofNode body false :: g :: base

/-- What happens to a loop between two instants. -/
inductive Goes (base : List Frame) (body : Node) (here there : Machine × Store)
    (names names' : Enumeration) : Prop where
  /-- It waits; it cannot have been its turn, unless the machine has not gone on at all. -/
  | waits (heq : names' = names) (hassigned : assigned? base here there = none)
      (hwaits : here.1.depth = base.length + 1 → there.1 = here.1)
  /-- It assigns the next name. -/
  | assigns {key : Key} (hnext : names.next? here.2.toHeap = some (key, names'))
      (hassigned : assigned? base here there = some key)
      (h : Assigns base names.target body key here there)

/-- The loop goes from one instant to the next. -/
def Turns (base : List Frame) (body : Node) (here there : Machine × Store) : Prop :=
  ∃ names names', loopOf base here = some (names, body) ∧ loopOf base there = some (names', body) ∧
    Goes base body here there names names'

/-- The turn of a loop ends it if no name is left. -/
theorem step_loop_of_none {f : Frame} {run : NestedRun} {fuel : Nat} (hframes : m.frames = f :: base)
    (hloop : f.loop? s.toHeap = some (names, body)) (hnone : names.next? s.toHeap = none) :
    step run fuel m s = (.ok (some { m with frames := base }), s) := by
  rcases m with ⟨frames, completion⟩
  obtain rfl : frames = f :: base := hframes
  obtain ⟨g, hg⟩ := f.resume_loop hloop (context ⟨base, completion⟩)
  have hresume : f.resume (context ⟨base, completion⟩) s.toHeap = (.ok .leave, s.toHeap) :=
    hg.trans (Frame.nextName_of_none hnone)
  exact bind_of_ok (bind_of_ok (Run.liftM_eq hresume))

/-- The turn of a loop assigns the next name. -/
theorem step_loop_of_some {f : Frame} {run : NestedRun} {fuel : Nat} {key : Key}
    (hframes : m.frames = f :: base) (hloop : f.loop? s.toHeap = some (names, body))
    (hnext : names.next? s.toHeap = some (key, names'))
    (hstep : step run fuel m s = (.ok (some m'), s')) :
    Assigns base names.target body key (m, s) (m', s') ∧ LoopAt base names' body m'.frames := by
  obtain ⟨a, heap, hresume, hobey⟩ := exists_of_step_eq_ok hframes hstep
  obtain ⟨g, hg⟩ := f.resume_loop hloop (context { m with frames := base })
  rw [hg] at hresume
  obtain ⟨hwrite, rfl⟩ := Frame.nextName_eq_ok hnext hresume
  obtain ⟨rfl, rfl, -⟩ := push_eq_ok hobey
  exact ⟨⟨hwrite, _, rfl⟩, [.ofNode body false], _, rfl, rfl⟩

theorem assigned?_of_assigns {f : Frame} {target : Reference} {key : Key}
    (hframes : here.1.frames = f :: base) (hloop : loopOf base here = some (names, body))
    (hnext : names.next? here.2.toHeap = some (key, names'))
    (h : Assigns base target body key here there) : assigned? base here there = some key := by
  obtain ⟨g, hbegins⟩ := h.begins
  have hdepth : here.1.depth = base.length + 1 ∧ there.1.depth = base.length + 2 := by
    rw [depth, depth, hframes, hbegins]
    exact ⟨rfl, rfl⟩
  rw [assigned?, if_pos hdepth, hloop, Option.bind_some, hnext]
  rfl

/-- The loop takes its turn, and goes on. -/
theorem step_turns {f : Frame} {run : NestedRun} {fuel : Nat} (hframes : m.frames = f :: base)
    (hloop : f.loop? s.toHeap = some (names, body)) (hstep : step run fuel m s = (.ok (some m'), s'))
    (hstands : StandsOn base m') :
    ∃ names', LoopAt base names' body m'.frames ∧ Goes base body (m, s) (m', s') names names' := by
  rcases hnext : names.next? s.toHeap with - | ⟨key, names'⟩
  · rw [step_loop_of_none hframes hloop hnext] at hstep
    cases hstep
    exact absurd hstands.length_lt (Nat.lt_irrefl _)
  · obtain ⟨hassigns, hthere⟩ := step_loop_of_some hframes hloop hnext hstep
    have hhere : loopOf base (m, s) = some (names, body) := (loopOf_cons hframes).trans hloop
    exact ⟨names', hthere, .assigns hnext (assigned?_of_assigns hframes hhere hnext hassigns) hassigns⟩

/-- **From one instant to the next a loop waits or takes its turn**, as long as something stands
on the base. -/
theorem Next.goes (hnext : Next here there) (h : LoopAt base names body here.1.frames)
    (hstands : StandsOn base there.1) :
    ∃ names', LoopAt base names' body there.1.frames ∧ Goes base body here there names names' := by
  cases hnext with
  | @host m s s' hs =>
      refine ⟨names, h, .waits rfl (if_neg ?_) fun _ => rfl⟩
      dsimp only
      omega
  | @step m m' s s' fuel hstep =>
      obtain ⟨above, g, hframes, hwork⟩ := h
      cases above with
      | nil =>
          have hloop : g.loop? s.toHeap = some (names, body) := by rw [Frame.loop?, hwork]
          exact step_turns hframes hloop hstep hstands
      | cons f rest =>
          obtain ⟨c, a, heap, -, hleaves⟩ := exists_action_of_step hframes hstep
          have hthere : LoopAt base names body m'.frames :=
            loopAt_iff.mpr (.leaves ⟨rest, g, rfl, hwork⟩ hleaves hstands.length_lt)
          have hdepth : m.depth ≠ base.length + 1 := by
            rw [depth, hframes]
            simp only [List.cons_append, List.length_cons, List.length_append]
            omega
          exact ⟨names, hthere, .waits rfl (if_neg fun h => hdepth h.1) fun h => absurd h hdepth⟩

end

/-! ### Runs of a loop -/

/-- The frame of a loop over the names of a value has got the value, and takes its first turn. -/
structure LoopBegins (base : List Frame) (target : Reference) (body : Node) (v : Value)
    (here there : Machine × Store) : Prop where
  frames : ∃ f, here.1.frames = f :: base ∧ f.work = .forInObject target body ∧ f.result = v
  step : ∃ fuel, Machine.step (runNested fuel) fuel here.1 here.2 = (.ok (some there.1), there.2)

section

variable {base : List Frame} {target : Reference} {body : Node} {v : Value}
  {run : Nat → Machine × Store} {n : Nat}

theorem LoopBegins.exists_loop {here there : Machine × Store} (h : LoopBegins base target body v here there) :
    ∃ f, here.1.frames = f :: base ∧
      f.loop? here.2.toHeap = some (.start here.2.toHeap target v, body) := by
  obtain ⟨f, hframes, hwork, rfl⟩ := h.frames
  exact ⟨f, hframes, by rw [Frame.loop?, hwork]⟩

theorem LoopBegins.loopOf {here there : Machine × Store} (h : LoopBegins base target body v here there) :
    loopOf base here = some (.start here.2.toHeap target v, body) := by
  obtain ⟨f, hframes, hloop⟩ := h.exists_loop
  exact (loopOf_cons hframes).trans hloop

/-- A run that stands on the base is made of turns of the loop. -/
theorem run_turns (hbegins : LoopBegins base target body v (run 0) (run 1)) :
    ∀ n, (∀ i < n, Next (run i) (run (i + 1))) → (∀ i ≤ n, StandsOn base (run i).1) →
      ∀ i < n, Turns base body (run i) (run (i + 1)) := by
  -- the frame of the loop has its last form from the first turn on
  have hloops : ∀ i n, i < n → (∀ i < n, Next (run i) (run (i + 1))) →
      (∀ i ≤ n, StandsOn base (run i).1) →
      ∃ names names', loopOf base (run i) = some (names, body) ∧
        LoopAt base names' body (run (i + 1)).1.frames ∧
        Goes base body (run i) (run (i + 1)) names names' := by
    intro i n hi hnext hstands
    induction i with
    | zero =>
        obtain ⟨f, hframes, hloop⟩ := hbegins.exists_loop
        obtain ⟨fuel, hstep⟩ := hbegins.step
        obtain ⟨names', hthere, hgoes⟩ := step_turns hframes hloop hstep (hstands 1 hi)
        exact ⟨_, names', hbegins.loopOf, hthere, hgoes⟩
    | succ i ih =>
        obtain ⟨-, names, -, hhere, -⟩ := ih (Nat.lt_of_succ_lt hi)
        obtain ⟨names', hthere, hgoes⟩ := (hnext (i + 1) hi).goes hhere (hstands (i + 2) hi)
        exact ⟨names, names', loopOf_of_loopAt hhere, hthere, hgoes⟩
  intro n hnext hstands i hi
  obtain ⟨names, names', hhere, hthere, hgoes⟩ := hloops i n hi hnext hstands
  exact ⟨names, names', hhere, loopOf_of_loopAt hthere, hgoes⟩

/-- **What is so when a loop begins, and is kept by its turns, is so at every instant.** -/
theorem loop_invariant {P : Nat → Enumeration → Prop}
    (hbegins : LoopBegins base target body v (run 0) (run 1))
    (hturns : ∀ i < n, Turns base body (run i) (run (i + 1)))
    (hstart : P 0 (.start (run 0).2.toHeap target v))
    (hgoes : ∀ i < n, ∀ names names', loopOf base (run i) = some (names, body) →
      loopOf base (run (i + 1)) = some (names', body) →
      Goes base body (run i) (run (i + 1)) names names' → P i names → P (i + 1) names') :
    ∀ k ≤ n, ∃ names, loopOf base (run k) = some (names, body) ∧ P k names := by
  intro k
  induction k with
  | zero => exact fun _ => ⟨_, hbegins.loopOf, hstart⟩
  | succ k ih =>
      intro hk
      obtain ⟨names, hloop, hP⟩ := ih (Nat.le_of_succ_le hk)
      obtain ⟨names₁, names', hhere, hthere, hturn⟩ := hturns k hk
      rw [hloop] at hhere
      cases hhere
      exact ⟨names', hthere, hgoes k hk names names' hloop hthere hturn hP⟩

/-- The keys that a loop has assigned in the first steps of a run. -/
def assigned (base : List Frame) (run : Nat → Machine × Store) (n : Nat) : List Key :=
  (List.range n).filterMap fun i => assigned? base (run i) (run (i + 1))

theorem assigned_succ (base : List Frame) (run : Nat → Machine × Store) (n : Nat) :
    assigned base run (n + 1) = assigned base run n ++ (assigned? base (run n) (run (n + 1))).toList := by
  rw [assigned, List.range_succ, List.filterMap_append]
  rfl

theorem mem_assigned {key : Key} :
    key ∈ assigned base run n ↔ ∃ i < n, assigned? base (run i) (run (i + 1)) = some key := by
  simp [assigned]

/-! ### No name twice -/

theorem assigned_nodup (hbegins : LoopBegins base target body v (run 0) (run 1))
    (hturns : ∀ i < n, Turns base body (run i) (run (i + 1))) : (assigned base run n).Nodup := by
  have hfresh := loop_invariant (P := fun i names => Enumeration.Fresh (assigned base run i) names)
    hbegins hturns (Enumeration.start_fresh _ target v) ?_ n (Nat.le_refl n)
  · obtain ⟨names, -, hnodup, -⟩ := hfresh
    exact hnodup.of_append_left
  · intro i hi names names' _ _ hgoes h
    rw [assigned_succ]
    cases hgoes with
    | waits heq hassigned hwaits =>
        rw [hassigned, heq, Option.toList_none, List.append_nil]
        exact h
    | assigns hnext hassigned hassigns =>
        rw [hassigned, Option.toList_some]
        exact h.next hnext

/-! ### Where a name comes from -/

/-- Between two instants the loop has reached an object, as the last one before it goes on with a
name, and the object has an enumerable property under the key. -/
def Reaches (base : List Frame) (body : Node) (owner : ObjectId) (key : Key)
    (here there : Machine × Store) : Prop :=
  ∃ names names' passed p, loopOf base here = some (names, body) ∧
    loopOf base there = some (names', body) ∧ names.chain = passed ++ owner :: names'.chain ∧
    here.2.own? owner key = some p ∧ p.enumerable = true

/-- A queued key has its owner from one of the turns before, or it is of a text. -/
def Queued (base : List Frame) (body : Node) (v : Value) (run : Nat → Machine × Store) (n : Nat)
    (queued : Option ObjectId × Key) : Prop :=
  match queued with
  | (none, key) => key ∈ textKeys v
  | (some owner, key) => owner ∈ (run 0).2.enumerated v ∧
      ∃ j < n, Reaches base body owner key (run j) (run (j + 1))

theorem Queued.succ {queued : Option ObjectId × Key} (h : Queued base body v run n queued) :
    Queued base body v run (n + 1) queued := by
  rcases queued with ⟨- | owner, key⟩
  · exact h
  · obtain ⟨howner, j, hj, hreaches⟩ := h
    exact ⟨howner, j, Nat.lt_succ_of_lt hj, hreaches⟩

/-- All that is queued comes from the turns before, and what is left of the chain is of the chain
at the beginning. -/
structure Sourced (base : List Frame) (target : Reference) (body : Node) (v : Value)
    (run : Nat → Machine × Store) (n : Nat) (names : Enumeration) : Prop where
  target : names.target = target
  chain : names.chain <:+ (run 0).2.enumerated v
  queue : ∀ queued ∈ names.queue, Queued base body v run n queued

/-- What a turn goes on with, and what it leaves queued, comes from this turn or one before. -/
private theorem Sourced.next {names names' : Enumeration} {key : Key}
    (h : Sourced base target body v run n names) (hhere : loopOf base (run n) = some (names, body))
    (hthere : loopOf base (run (n + 1)) = some (names', body))
    (hnext : names.next? (run n).2.toHeap = some (key, names')) :
    Sourced base target body v run (n + 1) names' ∧
      ∃ owner, Enumeration.isPresent (run n).2.toHeap (owner, key) = true ∧
        Queued base body v run (n + 1) (owner, key) := by
  obtain ⟨owner, hpresent, hadvances⟩ := Enumeration.exists_advances_of_next? hnext
  have hsuffix := Enumeration.chain_suffix hadvances
  have hqueue : ∀ queued ∈ (owner, key) :: names'.queue, Queued base body v run (n + 1) queued := by
    intro queued hqueued
    rcases Enumeration.queue_origin hadvances queued hqueued with hold | ⟨id, key', p, passed, hpassed, rfl, hp, hshown⟩
    · exact (h.queue queued hold).succ
    · have hmem : id ∈ names.chain := by
        rw [hpassed]
        simp
      exact ⟨h.chain.mem hmem, n, Nat.lt_succ_self n, names, names', passed, p, hhere, hthere, hpassed, hp, hshown⟩
  refine ⟨⟨?_, hsuffix.trans h.chain, fun queued hqueued => ?_⟩, owner, hpresent, ?_⟩
  · exact (Enumeration.target_eq_of_next? hnext).trans h.target
  · exact hqueue queued (List.mem_cons_of_mem _ hqueued)
  · exact hqueue _ List.mem_cons_self

theorem loop_sourced (hbegins : LoopBegins base target body v (run 0) (run 1))
    (hturns : ∀ i < n, Turns base body (run i) (run (i + 1))) :
    ∀ k ≤ n, ∃ names, loopOf base (run k) = some (names, body) ∧ Sourced base target body v run k names := by
  refine loop_invariant (P := Sourced base target body v run) hbegins hturns ?_ ?_
  · rw [Enumeration.start_eq]
    refine ⟨rfl, List.suffix_refl _, fun queued hqueued => ?_⟩
    obtain ⟨key, hkey, rfl⟩ := List.mem_map.mp hqueued
    exact hkey
  · intro i hi names names' hhere hthere hgoes h
    cases hgoes with
    | waits heq hassigned hwaits =>
        rw [heq]
        exact ⟨h.target, h.chain, fun queued hqueued => (h.queue queued hqueued).succ⟩
    | assigns hnext hassigned hassigns => exact (h.next hhere hthere hnext).1

/-- What an assigned key is: the number of a unit of the text, or the key of a property that an
object has, and that was enumerable when the object was reached. -/
def ComesFrom (base : List Frame) (body : Node) (v : Value) (run : Nat → Machine × Store) (i : Nat)
    (key : Key) : Prop :=
  key ∈ textKeys v ∨ ∃ owner ∈ (run 0).2.enumerated v, ((run i).2.own? owner key).isSome = true ∧
    ∃ j ≤ i, Reaches base body owner key (run j) (run (j + 1))

theorem assigned?_comesFrom (hbegins : LoopBegins base target body v (run 0) (run 1))
    (hturns : ∀ i < n, Turns base body (run i) (run (i + 1))) {i : Nat} (hi : i < n) {key : Key}
    (hkey : assigned? base (run i) (run (i + 1)) = some key) :
    Assigns base target body key (run i) (run (i + 1)) ∧ ComesFrom base body v run i key := by
  obtain ⟨names, hloop, hsourced⟩ := loop_sourced hbegins hturns i (Nat.le_of_lt hi)
  obtain ⟨names₁, names', hhere, hthere, hgoes⟩ := hturns i hi
  rw [hloop] at hhere
  cases hhere
  cases hgoes with
  | waits heq hassigned hwaits =>
      rw [hassigned] at hkey
      cases hkey
  | assigns hnext hassigned hassigns =>
      rw [hassigned] at hkey
      cases hkey
      rw [hsourced.target] at hassigns
      obtain ⟨-, owner, hpresent, hqueued⟩ := hsourced.next hloop hthere hnext
      refine ⟨hassigns, ?_⟩
      cases owner with
      | none => exact .inl hqueued
      | some owner =>
          obtain ⟨howner, j, hj, hreaches⟩ := hqueued
          rw [Enumeration.isPresent_some] at hpresent
          exact .inr ⟨owner, howner, hpresent, j, Nat.le_of_lt_succ hj, hreaches⟩

/-! ### All names, in order -/

theorem loop_steady (hbegins : LoopBegins base target body v (run 0) (run 1))
    (hturns : ∀ i < n, Turns base body (run i) (run (i + 1)))
    (hsame : ∀ i < n, (run 0).2.SameProperties (run i).2.toHeap ((run 0).2.enumerated v)) :
    ∃ names, loopOf base (run n) = some (names, body) ∧
      Enumeration.Steady (run 0).2.toHeap ((run 0).2.enumerated v) names ∧
      assigned base run n ++ names.remaining (run 0).2.toHeap = (run 0).2.loopKeys v := by
  refine loop_invariant (P := fun i names =>
    Enumeration.Steady (run 0).2.toHeap ((run 0).2.enumerated v) names ∧
      assigned base run i ++ names.remaining (run 0).2.toHeap = (run 0).2.loopKeys v)
    hbegins hturns ⟨Enumeration.start_steady _ target v, Enumeration.remaining_start _ target v⟩ ?_ n (Nat.le_refl n)
  intro i hi names names' _ _ hgoes ⟨hsteady, hall⟩
  rw [assigned_succ]
  cases hgoes with
  | waits heq hassigned hwaits =>
      rw [hassigned, heq, Option.toList_none, List.append_nil]
      exact ⟨hsteady, hall⟩
  | assigns hnext hassigned hassigns =>
      obtain ⟨hsteady', hremaining⟩ := hsteady.next (hsame i hi) hnext
      refine ⟨hsteady', ?_⟩
      rw [hassigned, Option.toList_some, List.append_assoc, List.singleton_append, ← hremaining]
      exact hall

/-! ### The last turn -/

/-- From some instant on a loop takes no turn any more. -/
theorem loop_rests (hturns : ∀ i, Turns base body (run i) (run (i + 1))) :
    ∃ N, ∀ i ≥ N, assigned? base (run i) (run (i + 1)) = none ∧
      ((run i).1.depth = base.length + 1 → (run (i + 1)).1 = (run i).1) := by
  choose names names' hhere hthere hgoes using hturns
  have hnext (i : Nat) : names' i = names (i + 1) := by
    have hboth := (hthere i).symm.trans (hhere (i + 1))
    exact congrArg Prod.fst (Option.some.inj hboth)
  have hantitone : Antitone fun i => (names i).measure := by
    refine antitone_nat_of_succ_le fun i => ?_
    have hturn := hgoes i
    rw [hnext] at hturn
    cases hturn with
    | waits heq hassigned hwaits => exact le_of_eq (congrArg Enumeration.measure heq)
    | assigns hnext' hassigned hassigns => exact (Enumeration.measure_lt_of_next? hnext').le
  obtain ⟨N, hN⟩ := WellFoundedLT.antitone_chain_condition hantitone
  refine ⟨N, fun i hi => ?_⟩
  have hturn := hgoes i
  rw [hnext] at hturn
  cases hturn with
  | waits heq hassigned hwaits => exact ⟨hassigned, hwaits⟩
  | assigns hnext' hassigned hassigns =>
      have hlt := Enumeration.measure_lt_of_next? hnext'
      have hsame : (names (i + 1)).measure = (names i).measure :=
        (hN (i + 1) (Nat.le_succ_of_le hi)).symm.trans (hN i hi)
      exact absurd hsame hlt.ne

/-! ### What a loop visits -/

/-- What a loop over the names of a value has done in the first steps of a run. -/
structure Visits (base : List Frame) (target : Reference) (body : Node) (v : Value)
    (run : Nat → Machine × Store) (n : Nat) : Prop where
  /-- No key is assigned twice, and no name either, as all keys in a heap write different names. -/
  once : (assigned base run n).Nodup ∧
    ((∀ i < n, (run i).2.HasCanonicalKeys) → ((assigned base run n).map Key.toText).Nodup)
  /-- A key that is assigned is written to the target; it is the number of a unit of the text, or
  the object still has it that it was queued from. -/
  assigns : ∀ i < n, ∀ key, assigned? base (run i) (run (i + 1)) = some key →
    Assigns base target body key (run i) (run (i + 1)) ∧ ComesFrom base body v run i key
  /-- A value that is neither a text nor an object has no names. -/
  nothing : (∀ text, v ≠ .string text) → (∀ id, v ≠ .object id) → assigned base run n = []
  /-- Names come in order if the objects keep their properties. -/
  inOrder : (∀ i < n, (run 0).2.SameProperties (run i).2.toHeap ((run 0).2.enumerated v)) →
    assigned base run n <+: (run 0).2.loopKeys v
  /-- When it is the turn of the loop and no name is left, the loop is left. -/
  leaves : (run n).1.depth = base.length + 1 → ∃ names, loopOf base (run n) = some (names, body) ∧
    (names.next? (run n).2.toHeap = none → ∀ fuel, step (runNested fuel) fuel (run n).1 (run n).2 =
      (.ok (some { (run n).1 with frames := base }), (run n).2))
  /-- When the loop is left in its own turn, all names have come. -/
  all : (∀ i ≤ n, (run 0).2.SameProperties (run i).2.toHeap ((run 0).2.enumerated v)) →
    (run n).1.depth = base.length + 1 → ∀ there, Next (run n) there → there.1.frames = base →
      assigned base run n = (run 0).2.loopKeys v

theorem StandsOn.exists_frame {m : Machine} (h : StandsOn base m) (hdepth : m.depth = base.length + 1) :
    ∃ f, m.frames = f :: base := by
  obtain ⟨above, hne, hframes⟩ := h
  rw [depth, hframes, List.length_append] at hdepth
  obtain ⟨f, rfl⟩ := List.length_eq_one_iff.mp (show above.length = 1 by omega)
  exact ⟨f, hframes⟩

/-- When it is the turn of the loop and it is left then, no name is left. -/
theorem next?_of_left {here there : Machine × Store} {names : Enumeration} (hstands : StandsOn base here.1)
    (hdepth : here.1.depth = base.length + 1) (hloop : loopOf base here = some (names, body))
    (hnext : Next here there) (hleft : there.1.frames = base) : names.next? here.2.toHeap = none := by
  obtain ⟨f, hframes⟩ := hstands.exists_frame hdepth
  have hframe : f.loop? here.2.toHeap = some (names, body) := (loopOf_cons hframes).symm.trans hloop
  cases hnext with
  | host hs =>
      rw [depth, hleft] at hdepth
      omega
  | @step m m' s s' fuel hstep =>
      rcases hkey : names.next? s.toHeap with - | ⟨key, names'⟩
      · rfl
      · obtain ⟨⟨-, g, hbegins⟩, -⟩ := step_loop_of_some hframes hframe hkey hstep
        have hlength := congrArg List.length (hbegins.symm.trans hleft)
        simp only [List.length_cons] at hlength
        omega

theorem ComesFrom.isCanonical {i : Nat} {key : Key} (h : ComesFrom base body v run i key)
    (hkeys : (run i).2.HasCanonicalKeys) : key.IsCanonical := by
  rcases h with htext | ⟨owner, -, hthere, -⟩
  · unfold textKeys at htext
    split at htext
    · obtain ⟨j, -, rfl⟩ := List.mem_map.mp htext
      exact Key.ofNat_isCanonical j
    · cases htext
  · obtain ⟨p, hp⟩ := Option.isSome_iff_exists.mp hthere
    exact hkeys.own? hp

theorem visits (hbegins : LoopBegins base target body v (run 0) (run 1))
    (hnext : ∀ i < n, Next (run i) (run (i + 1))) (hstands : ∀ i ≤ n, StandsOn base (run i).1) :
    Visits base target body v run n := by
  have hturns := run_turns hbegins n hnext hstands
  have hnodup := assigned_nodup hbegins hturns
  have hcomes {i : Nat} (hi : i < n) {key : Key} (hkey : assigned? base (run i) (run (i + 1)) = some key) :=
    assigned?_comesFrom hbegins hturns hi hkey
  constructor
  · refine ⟨hnodup, fun hkeys => hnodup.map_on fun key hkey key' hkey' htext => ?_⟩
    obtain ⟨i, hi, hassigned⟩ := mem_assigned.mp hkey
    obtain ⟨i', hi', hassigned'⟩ := mem_assigned.mp hkey'
    exact ((hcomes hi hassigned).2.isCanonical (hkeys i hi)).eq_of_toText_eq
      ((hcomes hi' hassigned').2.isCanonical (hkeys i' hi')) htext
  · exact fun i hi key hkey => hcomes hi hkey
  · intro htext hobject
    refine List.eq_nil_iff_forall_not_mem.mpr fun key hkey => ?_
    obtain ⟨i, hi, hassigned⟩ := mem_assigned.mp hkey
    rcases (hcomes hi hassigned).2 with hmem | ⟨owner, hmem, -⟩
    · cases v <;> first | exact absurd rfl (htext _) | cases hmem
    · cases v <;> first | exact absurd rfl (htext _) | exact absurd rfl (hobject _) | cases hmem
  · intro hsame
    obtain ⟨names, -, -, hall⟩ := loop_steady hbegins hturns hsame
    exact ⟨_, hall⟩
  · intro hdepth
    obtain ⟨names, hloop, -⟩ := loop_sourced hbegins hturns n (Nat.le_refl n)
    obtain ⟨f, hframes⟩ := (hstands n (Nat.le_refl n)).exists_frame hdepth
    have hframe := (loopOf_cons hframes).symm.trans hloop
    exact ⟨names, hloop, fun hnone fuel => step_loop_of_none hframes hframe hnone⟩
  · intro hsame hdepth there hthere hleft
    obtain ⟨names, hloop, hsteady, hall⟩ :=
      loop_steady hbegins hturns fun i hi => hsame i (Nat.le_of_lt hi)
    have hnone := next?_of_left (hstands n (Nat.le_refl n)) hdepth hloop hthere hleft
    rw [hsteady.finished (hsame n (Nat.le_refl n)) hnone, List.append_nil] at hall
    exact hall

/-- **A loop over names assigns each name at most once, and comes to an end, whatever the body
does.**

The frame of the loop has got a value and takes its first turn.  The run may then go on with any
target and any body, as long as something stands on the frames below the loop.  The names that are
assigned are all different; each one is there when it is assigned, and was enumerable when its
object was reached.  If the objects of the chain keep their properties, the names come in the order
of `Heap.loopKeys`, and all of them have come when the loop is left in its own turn.  And if the
run stands on the base forever, there is a last turn: the loop ends, unless the body does not. -/
theorem loop_visits_each_name_once (hbegins : LoopBegins base target body v (run 0) (run 1)) :
    (∀ n, (∀ i < n, Next (run i) (run (i + 1))) → (∀ i ≤ n, StandsOn base (run i).1) →
      Visits base target body v run n) ∧
    ((∀ i, Next (run i) (run (i + 1))) → (∀ i, StandsOn base (run i).1) →
      ∃ N, ∀ i ≥ N, assigned? base (run i) (run (i + 1)) = none ∧
        ((run i).1.depth = base.length + 1 → (run (i + 1)).1 = (run i).1)) := by
  refine ⟨fun n hnext hstands => visits hbegins hnext hstands, fun hnext hstands => ?_⟩
  have hturns (i : Nat) : Turns base body (run i) (run (i + 1)) :=
    run_turns hbegins (i + 1) (fun j _ => hnext j) (fun j _ => hstands j) i (Nat.lt_succ_self i)
  exact loop_rests hturns

end

/-- A store with a scope for the variable `x`, and an object with the name `a`. -/
def withNames : Store :=
  .holding #[(Object.new none (.scope none)).define (.ofText "x") (.plain .undefined),
    (Object.new none .ordinary).define (.ofText "a") (.plain .null)]

/-- The run of `for (x in o) ;` from the value of `o` on. -/
def runLoop (i : Nat) : Machine × Store :=
  let f : Frame := { work := .forInObject (.variable "x") .empty, value := some (.value (.object ⟨1⟩)) }
  let e := (Evaluator.run 0 i ⟨withNames, ⟨[f], .undefined⟩⟩).2
  (e.machine, e.store)

/-- The loop over an object with the name `a` assigns this name. -/
theorem loop_visits_each_name_once_single :
    (runLoop 3).1.frames = [] ∧ (assigned [] runLoop 2).Nodup ∧
      assigned [] runLoop 2 = (runLoop 0).2.loopKeys (.object ⟨1⟩) ∧
      (runLoop 0).2.loopKeys (.object ⟨1⟩) = [.ofText "a"] := by
  have hbegins : LoopBegins [] (.variable "x") .empty (.object ⟨1⟩) (runLoop 0) (runLoop 1) :=
    ⟨⟨_, rfl, rfl, rfl⟩, 0, rfl⟩
  have hnext : ∀ i < 3, Next (runLoop i) (runLoop (i + 1)) := by
    intro i hi
    match i, hi with
    | 0, _ | 1, _ | 2, _ => exact .step 0 rfl
  have hstands : ∀ i ≤ 2, StandsOn [] (runLoop i).1 := by
    intro i hi
    match i, hi with
    | 0, _ | 1, _ | 2, _ => exact ⟨_, List.cons_ne_nil _ _, (List.append_nil _).symm⟩
  have hsame : ∀ i ≤ 2, (runLoop 0).2.SameProperties (runLoop i).2.toHeap
      ((runLoop 0).2.enumerated (.object ⟨1⟩)) := by
    intro i hi id hid
    rw [show (runLoop 0).2.enumerated (.object ⟨1⟩) = [⟨1⟩] from rfl] at hid
    rw [List.mem_singleton.mp hid]
    match i, hi with
    | 0, _ | 1, _ | 2, _ => rfl
  have hvisits := (loop_visits_each_name_once hbegins).1 2
    (fun i hi => hnext i (Nat.lt_succ_of_lt hi)) hstands
  exact ⟨rfl, hvisits.once.1, hvisits.all hsame rfl _ (hnext 2 (Nat.lt_succ_self 2)) rfl, rfl⟩

end Machine

end Stepwise
