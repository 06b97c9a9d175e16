/-
Calls that `apply` and `call` pass on.

A call of `apply` or of `call` is not made: it becomes a call of its receiver, which may be
one of the two again.  `call` uses up an argument each time, so it cannot go on like that;
but `apply` takes new arguments out of a list, and a list may hold itself.

The heap does not change meanwhile, and everything that a call is made of after the first
time was found there: the function is one of its functions, the arguments are the end of
one of its lists.  There are finitely many such calls, so a call that is passed on and on
comes back to one that it has been before.  That is the only way not to come to an end.
-/
import Mathlib.Data.Finite.Prod
import Mathlib.Data.Fintype.Pigeonhole
import Mathlib.Data.List.Infix
import Mathlib.Data.Set.Finite.Lattice
import Stepwise.Machine.Calling
import Stepwise.Proofs.Grammar

namespace Stepwise

namespace Invocation

/-- A call with all its arguments. -/
structure Call where
  callee : ObjectId
  receiver : Value
  args : List Value

/-- What a call is settled as, with fuel to pass it on. -/
def Call.resolve (s : Heap) (fuel : Nat) (c : Call) : Except Failure Invocation :=
  Invocation.resolve s fuel c.callee c.receiver c.args

/-- The call that `apply` or `call` makes of a call. -/
def Call.next? (s : Heap) (c : Call) : Option Call :=
  match (s.object? c.callee).bind Object.callable? with
  | some .apply =>
    match target s c.receiver "apply", spread s c.args with
    | .ok callee, .ok args => some ⟨callee, receiverOf c.args, args⟩
    | _, _ => none
  | some .call =>
    match target s c.receiver "call" with
    | .ok callee => some ⟨callee, receiverOf c.args, c.args.drop 1⟩
    | _ => none
  | _ => none

/-- The call after it was passed on a number of times, if it was so often. -/
def Call.after (s : Heap) : Nat → Call → Option Call
  | 0, c => some c
  | n + 1, c => (c.after s n).bind (Call.next? s)

variable {s : Heap} {c c' : Call}

/-! ### One call after the other -/

private theorem target_ne_outOfFuel {receiver : Value} {name : String} :
    target s receiver name ≠ .error .outOfFuel := by
  unfold target
  split
  · split <;> intro h <;> cases h
  · intro h
    cases h

private theorem spread_ne_outOfFuel {args : List Value} : spread s args ≠ .error .outOfFuel := by
  unfold spread
  split
  · unfold Heap.elements
    dsimp only
    split <;> intro h <;> cases h
  · intro h
    cases h

/-- A call that is passed on is settled as the call that it becomes. -/
theorem Call.resolve_of_next (h : c.next? s = some c') (fuel : Nat) :
    c.resolve s (fuel + 1) = c'.resolve s fuel := by
  unfold Call.next? at h
  unfold Call.resolve
  rw [Invocation.resolve]
  split at h
  · rename_i hcallable
    split at h
    · rename_i callee args htarget hspread
      cases h
      rw [hcallable]
      simp only [htarget, hspread]
      rfl
    · cases h
  · rename_i hcallable
    split at h
    · rename_i callee htarget
      cases h
      rw [hcallable]
      simp only [htarget]
      rfl
    · cases h
  · cases h

/-- A call that is not passed on fails, or it is the call of a script function or of another one. -/
theorem Call.resolve_last_cases (h : c.next? s = none) (fuel : Nat) :
    (∃ e, c.resolve s (fuel + 1) = .error e ∧ e ≠ .outOfFuel) ∨
      (∃ code closure, (s.object? c.callee).bind Object.callable? = some (.script code closure) ∧
        c.resolve s (fuel + 1) = .ok (.script code closure c.receiver c.args)) ∨
      ∃ i, c.resolve s (fuel + 1) = .ok i ∧ ∀ code closure receiver args, i ≠ .script code closure receiver args := by
  unfold Call.next? at h
  unfold Call.resolve
  rw [Invocation.resolve]
  cases hcallable : (s.object? c.callee).bind Object.callable? with
  | none => exact .inl ⟨_, rfl, nofun⟩
  | some f =>
      rw [hcallable] at h
      cases f with
      | script code closure => exact .inr (.inl ⟨code, closure, rfl, rfl⟩)
      | native n => exact .inr (.inr ⟨_, rfl, nofun⟩)
      | eval => exact .inr (.inr ⟨_, rfl, nofun⟩)
      | apply =>
          dsimp only at h ⊢
          cases htarget : target s c.receiver "apply" with
          | error e => exact .inl ⟨e, rfl, fun heq => target_ne_outOfFuel (htarget.trans (congrArg _ heq))⟩
          | ok callee =>
              cases hspread : spread s c.args with
              | error e => exact .inl ⟨e, rfl, fun heq => spread_ne_outOfFuel (hspread.trans (congrArg _ heq))⟩
              | ok args =>
                  rw [htarget, hspread] at h
                  cases h
      | call =>
          dsimp only at h ⊢
          cases htarget : target s c.receiver "call" with
          | error e => exact .inl ⟨e, rfl, fun heq => target_ne_outOfFuel (htarget.trans (congrArg _ heq))⟩
          | ok callee =>
              rw [htarget] at h
              cases h

/-- A call that is not passed on is settled at once. -/
theorem Call.resolve_of_last (h : c.next? s = none) (fuel : Nat) :
    c.resolve s (fuel + 1) ≠ .error .outOfFuel := by
  intro hfuel
  rcases resolve_last_cases h fuel with ⟨e, he, hne⟩ | ⟨_, _, -, hi⟩ | ⟨i, hi, -⟩
  · rw [he] at hfuel
    exact hne (Except.error.inj hfuel)
  · rw [hi] at hfuel
    cases hfuel
  · rw [hi] at hfuel
    cases hfuel

/-- The fuel that a call was passed on with is what the settling of the rest lacks. -/
theorem Call.resolve_of_after {n : Nat} (h : c.after s n = some c') (fuel : Nat) :
    c.resolve s (fuel + n) = c'.resolve s fuel := by
  induction n generalizing c' fuel with
  | zero =>
      cases h
      rfl
  | succ n ih =>
      obtain ⟨before, hbefore, hnext⟩ := Option.bind_eq_some_iff.mp h
      rw [show fuel + (n + 1) = fuel + 1 + n by omega, ih hbefore, resolve_of_next hnext]

/-- A call runs out of any fuel just if it is always passed on. -/
theorem Call.never_settled_iff (c : Call) :
    (∀ fuel, c.resolve s fuel = .error .outOfFuel) ↔ ∀ n, (c.after s n).isSome = true := by
  constructor
  · intro hfuel n
    induction n with
    | zero => rfl
    | succ n ih =>
        obtain ⟨c', hc'⟩ := Option.isSome_iff_exists.mp ih
        have hnext : c'.next? s ≠ none := by
          intro hlast
          refine resolve_of_last hlast 0 ?_
          rw [← resolve_of_after hc' 1]
          exact hfuel _
        rw [Call.after, hc']
        exact Option.isSome_iff_ne_none.mpr hnext
  · intro hafter fuel
    obtain ⟨c', hc'⟩ := Option.isSome_iff_exists.mp (hafter fuel)
    rw [← Nat.zero_add fuel, resolve_of_after hc' 0]
    rfl

/-! ### Finitely many calls -/

/-- An object that is not there has the same elements wherever it is not. -/
private theorem elements_of_absent {id : ObjectId} (h : s.objects.size ≤ id.index) :
    s.elements (.object id) = s.elements (.object ⟨s.objects.size⟩) := by
  have habsent : ∀ i : ObjectId, s.objects.size ≤ i.index →
      ∀ key, s.property (.object i) key = .undefined := by
    intro i hi key
    have hnone : s.object? i = none := Array.getElem?_eq_none hi
    have hfind : s.find? i key = none := by
      simp only [Heap.find?, Heap.walkFuel, Heap.findFrom, List.contains_nil, hnone,
        Bool.false_eq_true, if_false]
    simp only [Heap.property, Heap.stringData?, Heap.arrayProperty?, Heap.objectOf?, Heap.start?,
      Value.objectId?, hnone, hfind, Option.map_none, Option.bind_none, Option.bind_some, ite_self]
  have hboth : ∀ key, s.property (.object id) key = s.property (.object ⟨s.objects.size⟩) key := by
    intro key
    rw [habsent id h, habsent ⟨s.objects.size⟩ (Nat.le_refl _)]
  have helement : s.element (.object id) = s.element (.object ⟨s.objects.size⟩) := by
    funext i
    exact hboth _
  simp only [Heap.elements, Heap.lengthOf, Heap.getProperty, Value.isNullish, hboth, helement,
    Bool.false_eq_true, if_false]

/-- The lists that the arguments of a call and of all that it becomes are the ends of. -/
def Call.sources (s : Heap) (c : Call) : Set (List Value) :=
  {c.args, []} ∪ (fun i => (s.elements (.object ⟨i⟩)).toOption.getD []) '' {i | i ≤ s.objects.size}

/-- What arguments may come up. -/
def Call.arguments (s : Heap) (c : Call) : Set (List Value) :=
  ⋃ l ∈ c.sources s, {rest | rest ∈ l.tails}

private theorem Call.finite_arguments : (c.arguments s).Finite := by
  have hsources : (c.sources s).Finite :=
    (Set.toFinite _).union ((Set.finite_le_nat _).image _)
  refine hsources.biUnion fun l _ => ?_
  exact List.finite_toSet l.tails

/-- The calls that a call may become: of a function of the heap, or of what is called first. -/
def Call.descendants (s : Heap) (c : Call) : Set Call :=
  (fun p : ObjectId × Value × List Value => ⟨p.1, p.2.1, p.2.2⟩) ''
    ((insert c.callee (ObjectId.mk '' {i | i < s.objects.size})) ×ˢ
      (insert c.receiver (receiverOf '' c.arguments s)) ×ˢ c.arguments s)

private theorem Call.finite_descendants : (c.descendants s).Finite := by
  have hcallees : Set.Finite (insert c.callee (ObjectId.mk '' {i | i < s.objects.size})) :=
    ((Set.finite_lt_nat _).image _).insert _
  have hreceivers : Set.Finite (insert c.receiver (receiverOf '' c.arguments s)) :=
    (finite_arguments.image _).insert _
  exact (Set.Finite.prod hcallees (Set.Finite.prod hreceivers finite_arguments)).image _

private theorem mem_size_of_target {receiver : Value} {name : String} {callee : ObjectId}
    (h : target s receiver name = .ok callee) : callee.index < s.objects.size := by
  unfold target at h
  split at h
  · rename_i id
    by_cases hcallable : s.isCallable (.object id) = true
    · rw [if_pos hcallable] at h
      cases h
      by_contra habsent
      have hnone : s.object? callee = none := Array.getElem?_eq_none (Nat.le_of_not_lt habsent)
      simp [Heap.isCallable, Heap.callable?, Heap.objectOf?, Value.objectId?, hnone] at hcallable
    · rw [if_neg hcallable] at h
      cases h
  · cases h

private theorem Call.spread_mem_arguments {args rest : List Value} (h : spread s args = .ok rest) :
    rest ∈ c.arguments s := by
  have hwhole : ∀ l ∈ c.sources s, l ∈ c.arguments s := by
    intro l hl
    exact Set.mem_biUnion hl ((List.mem_tails _ _).mpr (List.suffix_refl l))
  unfold spread at h
  split at h
  · rename_i id _
    refine hwhole _ (Or.inr ?_)
    rcases Nat.lt_or_ge id.index s.objects.size with hlt | hge
    · exact ⟨id.index, Nat.le_of_lt hlt, by simp only [h]; rfl⟩
    · rw [elements_of_absent hge] at h
      exact ⟨s.objects.size, Nat.le_refl _, by simp only [h]; rfl⟩
  · cases h
    exact hwhole _ (Or.inl (Or.inr rfl))

private theorem Call.drop_mem_arguments {args : List Value} (h : args ∈ c.arguments s) :
    args.drop 1 ∈ c.arguments s := by
  obtain ⟨l, hl, hargs⟩ := Set.mem_iUnion₂.mp h
  have hsuffix : args.drop 1 <:+ l := (List.drop_suffix 1 args).trans ((List.mem_tails _ _).mp hargs)
  exact Set.mem_biUnion hl ((List.mem_tails _ _).mpr hsuffix)

/-- What a call becomes is one of finitely many calls. -/
theorem Call.after_mem_descendants {n : Nat} (h : c.after s n = some c') :
    c' ∈ c.descendants s := by
  induction n generalizing c' with
  | zero =>
      cases h
      have hargs : c.args ∈ c.arguments s :=
        Set.mem_biUnion (Or.inl (Or.inl rfl)) ((List.mem_tails _ _).mpr (List.suffix_refl c.args))
      exact ⟨(c.callee, c.receiver, c.args), ⟨Or.inl rfl, Or.inl rfl, hargs⟩, rfl⟩
  | succ n ih =>
      obtain ⟨before, hbefore, hnext⟩ := Option.bind_eq_some_iff.mp h
      obtain ⟨⟨callee, receiver, args⟩, ⟨-, -, hargs⟩, rfl⟩ := ih hbefore
      have hreceiver : receiverOf args ∈ receiverOf '' c.arguments s := ⟨args, hargs, rfl⟩
      unfold Call.next? at hnext
      split at hnext
      · split at hnext
        · rename_i callee' args' htarget hspread
          cases hnext
          have hcallee := mem_size_of_target htarget
          exact ⟨(callee', receiverOf args, args'),
            ⟨Or.inr ⟨callee'.index, hcallee, rfl⟩, Or.inr hreceiver, spread_mem_arguments hspread⟩, rfl⟩
        · cases hnext
      · split at hnext
        · rename_i callee' htarget
          cases hnext
          have hcallee := mem_size_of_target htarget
          exact ⟨(callee', receiverOf args, args.drop 1),
            ⟨Or.inr ⟨callee'.index, hcallee, rfl⟩, Or.inr hreceiver, drop_mem_arguments hargs⟩, rfl⟩
        · cases hnext
      · cases hnext

/-! ### Coming back -/

/-- What a call becomes depends on the call alone. -/
theorem Call.after_add (i n : Nat) :
    c.after s (i + n) = (c.after s i).bind fun c' => c'.after s n := by
  induction n with
  | zero =>
      show c.after s i = _
      cases c.after s i <;> rfl
  | succ n ih =>
      show (c.after s (i + n)).bind (Call.next? s) = _
      rw [ih, Option.bind_assoc]
      rfl

/-- A call that has come back is always passed on. -/
private theorem Call.after_isSome_of_ring {i j : Nat} (hij : i < j) (hi : c.after s i = some c')
    (hj : c.after s j = some c') (n : Nat) : (c.after s n).isSome = true := by
  induction n using Nat.strong_induction_on with
  | _ n ih =>
      rcases Nat.lt_or_ge n j with hlt | hge
      · -- what is passed on as often as `j` was passed on before
        obtain ⟨more, rfl⟩ := Nat.exists_eq_add_of_lt hlt
        rw [show n + more + 1 = n + (more + 1) by omega, after_add] at hj
        obtain ⟨found, hfound, -⟩ := Option.bind_eq_some_iff.mp hj
        rw [hfound]
        rfl
      · obtain ⟨more, rfl⟩ := Nat.exists_eq_add_of_le hge
        have hback : c.after s (j + more) = c.after s (i + more) := by
          rw [after_add, after_add, hi, hj]
        rw [hback]
        exact ih (i + more) (by omega)

/-- **A call that is never settled comes back to itself.**  To pass a call on takes an end, unless
it becomes a call that it has been before; and then no fuel suffices. -/
theorem never_settled_iff_comes_back (s : Heap) (call : PendingCall) :
    let c : Call := ⟨call.callee, call.receiver, call.arguments.toList⟩
    (∀ fuel, call.resolve fuel s = .error .outOfFuel) ↔
      ∃ i j, i < j ∧ ∃ c', c.after s i = some c' ∧ c.after s j = some c' := by
  intro c
  have hresolve : ∀ fuel, call.resolve fuel s = c.resolve s fuel := fun _ => rfl
  simp only [hresolve, Call.never_settled_iff]
  constructor
  · intro hafter
    have hcall : ∀ n, ∃ c', c.after s n = some c' := fun n =>
      Option.isSome_iff_exists.mp (hafter n)
    choose at' hat using hcall
    have hfinite : Finite (c.descendants s) := Call.finite_descendants
    obtain ⟨i, j, hne, heq⟩ := Finite.exists_ne_map_eq_of_infinite
      (fun n => (⟨at' n, Call.after_mem_descendants (hat n)⟩ : c.descendants s))
    have hsame : at' i = at' j := congrArg Subtype.val heq
    rcases Nat.lt_or_gt_of_ne hne with hlt | hgt
    · exact ⟨i, j, hlt, at' i, hat i, by rw [hat j, hsame]⟩
    · exact ⟨j, i, hgt, at' i, by rw [hat j, hsame], hat i⟩
  · rintro ⟨i, j, hij, c', hi, hj⟩ n
    exact Call.after_isSome_of_ring hij hi hj n

/-- A heap of `apply` and of a list that holds `apply` and itself. -/
def ringOfApply : Heap :=
  (Store.holding #[⟨none, .empty, .function .apply⟩, Store.arrayOf [.object ⟨0⟩, .object ⟨1⟩]]).toHeap

/-- `apply`, called on itself with a list that holds `apply` and the list, is never settled: it
becomes the same call again. -/
theorem apply_of_itself_is_never_settled :
    let call : PendingCall := ⟨⟨0⟩, .object ⟨0⟩, none, #[.object ⟨0⟩, .object ⟨1⟩]⟩
    ∀ fuel, call.resolve fuel ringOfApply = .error .outOfFuel := by
  intro call fuel
  let c : Call := ⟨⟨0⟩, .object ⟨0⟩, [.object ⟨0⟩, .object ⟨1⟩]⟩
  have hlist : ringOfApply.elements (.object ⟨1⟩) = .ok [.object ⟨0⟩, .object ⟨1⟩] := by
    with_unfolding_all rfl
  have hnext : c.next? ringOfApply = some c := by
    have hspread : spread ringOfApply c.args = .ok [.object ⟨0⟩, .object ⟨1⟩] := hlist
    unfold Call.next?
    rw [hspread]
    rfl
  show c.resolve ringOfApply fuel = .error .outOfFuel
  induction fuel with
  | zero => rfl
  | succ fuel ih => rw [Call.resolve_of_next hnext, ih]

end Invocation

end Stepwise
