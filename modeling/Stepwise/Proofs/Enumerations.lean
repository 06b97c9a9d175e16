/-
What an enumeration visits.

An enumeration is suspended between one key and the next, and anything may happen to the heap
meanwhile.  What it does in one heap, on the way to the next key, is made of two things
(`Advance`): it passes over a key that is gone, and when no keys are queued it reaches the next
object and queues the keys that it shows.

No key is visited twice, since only unseen keys are queued and all of them are seen then
(`Fresh`).  A key comes from the object that it was queued from, and is still there.  And every
turn shortens the chain, or the queue where the chain stays, so no enumeration goes on forever.

As long as the objects of the chain keep their properties, what has been visited and what remains
are together one list (`Steady`).  `Heap.loopKeys` tells that list without an enumeration.
-/
import Mathlib.Data.List.Nodup
import Mathlib.Data.List.Range
import Mathlib.Data.Prod.Lex
import Mathlib.Logic.Relation
import Stepwise.Machine.Enumeration
import Stepwise.Proofs.Chains

namespace Stepwise

/-! ### The keys of an object -/

namespace Properties

variable {ps : Properties} {key : Key} {p : Property}

theorem map_fst_toList (ps : Properties) : ps.toList.map Prod.fst = ps.keys := by
  have hindices : ps.indices.map Key.index = ps.elements.toList.map fun q => Key.index q.1 := by
    rw [indices, ← Std.TreeMap.map_fst_toList_eq_keys, List.map_map]
    rfl
  rw [keys, hindices, toList, List.map_append, List.map_map, List.map_map]
  rfl

theorem mem_named {s : String} : (s, p) ∈ ps.named ↔ ps.named.lookup s = some p := by
  have hdistinct := ps.distinct
  generalize ps.named = named at hdistinct ⊢
  induction named with
  | nil => simp
  | cons first rest ih =>
      obtain ⟨t, q⟩ := first
      simp only [List.map_cons, List.nodup_cons] at hdistinct
      by_cases hst : s = t
      · subst hst
        have hnew : (s, p) ∉ rest := fun hmem => hdistinct.1 (List.mem_map_of_mem hmem)
        simp [hnew, eq_comm]
      · simp [List.lookup_cons, beq_false_of_ne hst, hst, ih hdistinct.2]

theorem mem_toList : (key, p) ∈ ps.toList ↔ ps.get? key = some p := by
  cases key with
  | index i => simp [toList, get?, Std.TreeMap.mem_toList_iff_getElem?_eq_some]
  | name s => simp [toList, get?, mem_named]

theorem mem_keys : key ∈ ps.keys ↔ ps.contains key = true := by
  rw [← map_fst_toList, contains, Option.isSome_iff_exists]
  constructor
  · intro h
    obtain ⟨⟨key, p⟩, hmem, rfl⟩ := List.mem_map.mp h
    exact ⟨p, mem_toList.mp hmem⟩
  · rintro ⟨p, hp⟩
    exact List.mem_map.mpr ⟨(key, p), mem_toList.mpr hp, rfl⟩

theorem indices_ascending (ps : Properties) : ps.indices.Pairwise (· < ·) :=
  ps.elements.ordered_keys.imp fun h => Nat.compare_eq_lt.mp h

theorem keys_eq (ps : Properties) :
    ps.keys = ps.indices.map Key.index ++ (ps.named.map Prod.fst).map Key.name := by
  rw [keys, List.map_map]
  rfl

theorem keys_nodup (ps : Properties) : ps.keys.Nodup := by
  have hindices : ps.indices.Nodup := ps.indices_ascending.imp Nat.ne_of_lt
  rw [keys_eq]
  refine List.nodup_append.mpr ⟨hindices.map fun _ _ h => Key.index.inj h,
    ps.distinct.map fun _ _ h => Key.name.inj h, ?_⟩
  intro a ha b hb hab
  obtain ⟨i, -, rfl⟩ := List.mem_map.mp ha
  obtain ⟨s, -, rfl⟩ := List.mem_map.mp hb
  cases hab

/-- A new name comes behind all keys that there are. -/
theorem keys_insert_name (ps : Properties) (s : String) (p : Property) :
    (ps.insert (.name s) p).keys =
      if ps.contains (.name s) = true then ps.keys else ps.keys ++ [.name s] := by
  have hthere : s ∈ ps.named.map Prod.fst ↔ ps.contains (.name s) = true := by
    rw [← mem_keys, keys_eq]
    simp
  rw [keys_eq, keys_eq, insert, map_fst_insertNamed]
  by_cases hs : s ∈ ps.named.map Prod.fst
  · rw [if_pos hs, if_pos (hthere.mp hs)]
    rfl
  · rw [if_neg hs, if_neg (hs ∘ hthere.mpr), List.map_append, List.append_assoc]
    rfl

end Properties

/-! ### Turns of an enumeration -/

namespace Enumeration

/-- What an enumeration does in a heap on the way to the next key. -/
inductive Advance (s : Heap) : Enumeration → Enumeration → Prop where
  /-- A key that is gone is passed over. -/
  | skip {target : Reference} {queued : Option ObjectId × Key} {queue : List (Option ObjectId × Key)}
      {chain : List ObjectId} {seen : List Key} (h : isPresent s queued = false) :
      Advance s ⟨target, queued :: queue, chain, seen⟩ ⟨target, queue, chain, seen⟩
  /-- When no keys are queued, the next object is reached. -/
  | reach {target : Reference} {id : ObjectId} {chain : List ObjectId} {seen : List Key} :
      Advance s ⟨target, [], id :: chain, seen⟩
        ⟨target, queueOf s seen id, chain, seen ++ (unseen s seen id).map Prod.fst⟩

/-- Any number of such things, in one heap. -/
abbrev Advances (s : Heap) : Enumeration → Enumeration → Prop := Relation.ReflTransGen (Advance s)

variable {s : Heap} {names names' : Enumeration} {key : Key}

/-- Keys that are gone are passed over, all of them. -/
theorem advances_dropWhile (s : Heap) (target : Reference) (queue : List (Option ObjectId × Key))
    (chain : List ObjectId) (seen : List Key) :
    Advances s ⟨target, queue, chain, seen⟩
      ⟨target, queue.dropWhile fun queued => !isPresent s queued, chain, seen⟩ := by
  induction queue with
  | nil => exact .refl
  | cons queued rest ih =>
      cases hpresent : isPresent s queued with
      | true =>
          rw [List.dropWhile_cons_of_neg (by simp [hpresent])]
      | false =>
          rw [List.dropWhile_cons_of_pos (by simp [hpresent])]
          exact .head (.skip hpresent) ih

theorem isPresent_some (s : Heap) (owner : ObjectId) (key : Key) :
    isPresent s (some owner, key) = (s.own? owner key).isSome := by
  show (s.object? owner).any (fun o => o.properties.contains key) = (s.own? owner key).isSome
  rw [Heap.own?]
  cases s.object? owner <;> rfl

/-- The first key that is not passed over is there. -/
private theorem isPresent_of_dropWhile {queue rest : List (Option ObjectId × Key)}
    {queued : Option ObjectId × Key}
    (h : (queue.dropWhile fun queued => !isPresent s queued) = queued :: rest) :
    isPresent s queued = true := by
  have hhead := List.head?_dropWhile_not (fun queued => !isPresent s queued) queue
  rw [h] at hhead
  simpa using hhead

/-- What a turn comes to: the enumeration advances to a queued key that is there, and that is the
next one; or it advances until nothing is left. -/
def EndsWith (s : Heap) (names : Enumeration) : Option (Key × Enumeration) → Prop
  | some (key, names') => ∃ owner, isPresent s (owner, key) = true ∧
      Advances s names { names' with queue := (owner, key) :: names'.queue }
  | none => ∃ last : Enumeration, last.queue = [] ∧ last.chain = [] ∧ Advances s names last

theorem EndsWith.head {result : Option (Key × Enumeration)} (h : Advances s names names')
    (hends : EndsWith s names' result) : EndsWith s names result := by
  cases result with
  | none =>
      obtain ⟨last, hqueue, hchain, hlast⟩ := hends
      exact ⟨last, hqueue, hchain, h.trans hlast⟩
  | some next =>
      obtain ⟨owner, hpresent, hnext⟩ := hends
      exact ⟨owner, hpresent, h.trans hnext⟩

private theorem nextFrom_endsWith (s : Heap) (target : Reference)
    (queue : List (Option ObjectId × Key)) (chain : List ObjectId) (seen : List Key) :
    EndsWith s ⟨target, queue, chain, seen⟩ (nextFrom s target queue chain seen) := by
  induction chain generalizing queue seen with
  | nil =>
      have hdrop := advances_dropWhile s target queue [] seen
      rcases hrest : queue.dropWhile fun queued => !isPresent s queued with - | ⟨⟨owner, key⟩, rest⟩
      · rw [nextFrom, hrest]
        rw [hrest] at hdrop
        exact ⟨_, rfl, rfl, hdrop⟩
      · rw [nextFrom, hrest]
        rw [hrest] at hdrop
        exact ⟨owner, isPresent_of_dropWhile hrest, hdrop⟩
  | cons id chain ih =>
      have hdrop := advances_dropWhile s target queue (id :: chain) seen
      rcases hrest : queue.dropWhile fun queued => !isPresent s queued with - | ⟨⟨owner, key⟩, rest⟩
      · rw [nextFrom, hrest]
        rw [hrest] at hdrop
        exact .head (hdrop.tail .reach) (ih _ _)
      · rw [nextFrom, hrest]
        rw [hrest] at hdrop
        exact ⟨owner, isPresent_of_dropWhile hrest, hdrop⟩

theorem next?_endsWith (s : Heap) (names : Enumeration) : EndsWith s names (names.next? s) :=
  nextFrom_endsWith s names.target names.queue names.chain names.seen

theorem exists_advances_of_next? (h : names.next? s = some (key, names')) :
    ∃ owner, isPresent s (owner, key) = true ∧
      Advances s names { names' with queue := (owner, key) :: names'.queue } := by
  have hends := next?_endsWith s names
  rw [h] at hends
  exact hends

theorem Advance.target_eq (h : Advance s names names') : names'.target = names.target := by
  cases h <;> rfl

theorem target_eq_of_next? (h : names.next? s = some (key, names')) : names'.target = names.target := by
  obtain ⟨owner, -, hadvances⟩ := exists_advances_of_next? h
  generalize hlast : ({ names' with queue := (owner, key) :: names'.queue } : Enumeration) = last at hadvances
  have htarget : last.target = names.target := by
    clear hlast
    induction hadvances with
    | refl => rfl
    | tail _ hlast ih => rw [hlast.target_eq, ih]
  rw [← hlast] at htarget
  exact htarget

/-! ### What an object queues -/

variable {seen visited : List Key} {id : ObjectId} {p : Property}

theorem mem_unseen : (key, p) ∈ unseen s seen id ↔ s.own? id key = some p ∧ key ∉ seen := by
  unfold unseen Heap.own?
  cases s.object? id with
  | none => simp
  | some o => simp [Properties.mem_toList]

theorem mem_unseenKeys :
    key ∈ (unseen s seen id).map Prod.fst ↔ (s.own? id key).isSome = true ∧ key ∉ seen := by
  rw [Option.isSome_iff_exists]
  constructor
  · intro h
    obtain ⟨⟨key, p⟩, hmem, rfl⟩ := List.mem_map.mp h
    obtain ⟨hp, hnew⟩ := mem_unseen.mp hmem
    exact ⟨⟨p, hp⟩, hnew⟩
  · rintro ⟨⟨p, hp⟩, hnew⟩
    exact List.mem_map.mpr ⟨(key, p), mem_unseen.mpr ⟨hp, hnew⟩, rfl⟩

theorem unseenKeys_nodup (s : Heap) (seen : List Key) (id : ObjectId) :
    ((unseen s seen id).map Prod.fst).Nodup := by
  unfold unseen
  cases s.object? id with
  | none => exact List.nodup_nil
  | some o =>
      have hkeys : (o.properties.toList.map Prod.fst).Nodup := by
        rw [Properties.map_fst_toList]
        exact o.properties.keys_nodup
      exact hkeys.sublist (List.filter_sublist.map _)

theorem mem_queueOf {queued : Option ObjectId × Key} :
    queued ∈ queueOf s seen id ↔
      ∃ key p, queued = (some id, key) ∧ s.own? id key = some p ∧ p.enumerable = true ∧ key ∉ seen := by
  unfold queueOf
  constructor
  · intro h
    obtain ⟨⟨key, p⟩, hmem, rfl⟩ := List.mem_map.mp h
    obtain ⟨hunseen, hshown⟩ := List.mem_filter.mp hmem
    obtain ⟨hp, hnew⟩ := mem_unseen.mp hunseen
    exact ⟨key, p, rfl, hp, hshown, hnew⟩
  · rintro ⟨key, p, rfl, hp, hshown, hnew⟩
    exact List.mem_map.mpr ⟨(key, p), List.mem_filter.mpr ⟨mem_unseen.mpr ⟨hp, hnew⟩, hshown⟩, rfl⟩

/-- The keys that an object queues are among those that it makes seen. -/
theorem queuedKeys_sublist (s : Heap) (seen : List Key) (id : ObjectId) :
    ((queueOf s seen id).map Prod.snd).Sublist ((unseen s seen id).map Prod.fst) := by
  have hmap : (queueOf s seen id).map Prod.snd =
      ((unseen s seen id).filter fun q => q.2.enumerable).map Prod.fst := by
    rw [queueOf, List.map_map]
    rfl
  rw [hmap]
  exact List.filter_sublist.map _

/-! ### No key twice -/

/-- What has been visited and what is queued are keys all different, and seen. -/
structure Fresh (visited : List Key) (names : Enumeration) : Prop where
  nodup : (visited ++ names.queue.map Prod.snd).Nodup
  seen : ∀ key ∈ visited ++ names.queue.map Prod.snd, key ∈ names.seen

namespace Fresh

theorem advance (h : Fresh visited names) (hadvance : Advance s names names') : Fresh visited names' := by
  obtain ⟨hnodup, hseen⟩ := h
  cases hadvance with
  | @skip target queued queue chain seen hgone =>
      have hsublist : (visited ++ queue.map Prod.snd).Sublist
          (visited ++ (queued :: queue).map Prod.snd) :=
        (List.sublist_cons_self _ _).append_left visited
      exact ⟨hnodup.sublist hsublist, fun key hkey => hseen key (hsublist.mem hkey)⟩
  | @reach target id chain seen =>
      have hvisited : ∀ key ∈ visited, key ∈ seen := fun key hkey => hseen key (by simp [hkey])
      refine ⟨List.nodup_append.mpr ⟨hnodup.of_append_left, ?_, ?_⟩, fun key hkey => ?_⟩
      · exact (unseenKeys_nodup s seen id).sublist (queuedKeys_sublist s seen id)
      · intro a ha b hb hab
        have hnew := (mem_unseenKeys.mp ((queuedKeys_sublist s seen id).mem hb)).2
        rw [← hab] at hnew
        exact hnew (hvisited a ha)
      · rcases List.mem_append.mp hkey with hkey | hkey
        · exact List.mem_append_left _ (hvisited key hkey)
        · exact List.mem_append_right _ ((queuedKeys_sublist s seen id).mem hkey)

theorem advances (h : Fresh visited names) (hadvances : Advances s names names') : Fresh visited names' := by
  induction hadvances with
  | refl => exact h
  | tail _ hlast ih => exact ih.advance hlast

theorem next (h : Fresh visited names) (hnext : names.next? s = some (key, names')) :
    Fresh (visited ++ [key]) names' := by
  obtain ⟨owner, -, hadvances⟩ := exists_advances_of_next? hnext
  obtain ⟨hnodup, hseen⟩ := h.advances hadvances
  have hmove : visited ++ [key] ++ names'.queue.map Prod.snd =
      visited ++ ((owner, key) :: names'.queue).map Prod.snd := by simp
  refine ⟨?_, ?_⟩
  · rw [hmove]
    exact hnodup
  · rw [hmove]
    exact hseen

end Fresh

/-! ### Where keys come from -/

/-- The chain gets shorter from its front. -/
theorem chain_suffix (h : Advances s names names') : names'.chain <:+ names.chain := by
  induction h with
  | refl => exact List.suffix_refl _
  | tail _ hlast ih =>
      refine List.IsSuffix.trans ?_ ih
      cases hlast with
      | skip hgone => exact List.suffix_refl _
      | reach => exact List.suffix_cons _ _

/-- What is queued has been queued before, or it is an enumerable property of the object that was
reached last. -/
theorem queue_origin (h : Advances s names names') :
    ∀ queued ∈ names'.queue, queued ∈ names.queue ∨ ∃ id key p passed,
      names.chain = passed ++ id :: names'.chain ∧ queued = (some id, key) ∧
        s.own? id key = some p ∧ p.enumerable = true := by
  induction h with
  | refl => exact fun queued hqueued => .inl hqueued
  | tail hadvances hlast ih =>
      cases hlast with
      | skip hgone => exact fun queued hqueued => ih queued (List.mem_cons_of_mem _ hqueued)
      | reach =>
          intro queued hqueued
          obtain ⟨key, p, rfl, hp, hshown, -⟩ := mem_queueOf.mp hqueued
          obtain ⟨passed, hpassed⟩ := chain_suffix hadvances
          exact .inr ⟨_, key, p, passed, hpassed.symm, rfl, hp, hshown⟩

/-! ### Every turn shortens the enumeration -/

/-- How much of an enumeration is left: objects to reach, and keys that are queued. -/
def measure (names : Enumeration) : Nat ×ₗ Nat := toLex (names.chain.length, names.queue.length)

theorem Advance.measure_lt (h : Advance s names names') : names'.measure < names.measure := by
  cases h with
  | skip hgone => exact Prod.Lex.right _ (Nat.lt_succ_self _)
  | reach => exact Prod.Lex.left _ _ (Nat.lt_succ_self _)

theorem measure_lt_of_next? (h : names.next? s = some (key, names')) : names'.measure < names.measure := by
  obtain ⟨owner, -, hadvances⟩ := exists_advances_of_next? h
  have hle : ∀ {a b : Enumeration}, Advances s a b → b.measure ≤ a.measure := by
    intro a b h
    induction h with
    | refl => exact le_refl _
    | tail _ hlast ih => exact hlast.measure_lt.le.trans ih
  refine lt_of_lt_of_le ?_ (hle hadvances)
  exact Prod.Lex.right _ (Nat.lt_succ_self _)

/-! ### What remains

As long as the objects of the chain keep their properties, the keys still to come can be told.
-/

/-- The keys still to come from the objects of a chain. -/
def remainingIn (s : Heap) : (seen : List Key) → (chain : List ObjectId) → List Key
  | _, [] => []
  | seen, id :: chain =>
    (queueOf s seen id).map Prod.snd ++ remainingIn s (seen ++ (unseen s seen id).map Prod.fst) chain

/-- The keys still to come, if all that are queued are there. -/
def remaining (s : Heap) (names : Enumeration) : List Key :=
  names.queue.map Prod.snd ++ remainingIn s names.seen names.chain

end Enumeration

/-- Some objects have the same properties in two heaps. -/
def Heap.SameProperties (s s' : Heap) (ids : List ObjectId) : Prop :=
  ∀ id ∈ ids, (s'.object? id).map Object.properties = (s.object? id).map Object.properties

namespace Enumeration

variable {s s' : Heap} {names names' : Enumeration} {key : Key} {seen : List Key} {id : ObjectId}
  {ids : List ObjectId}

theorem unseen_congr (h : s.SameProperties s' ids) (hid : id ∈ ids) : unseen s' seen id = unseen s seen id := by
  have hsame := h id hid
  unfold unseen
  cases hthere : s.object? id with
  | none =>
      rw [hthere] at hsame
      rw [Option.map_eq_none_iff.mp hsame]
  | some o =>
      rw [hthere] at hsame
      obtain ⟨o', ho', hproperties⟩ := Option.map_eq_some_iff.mp hsame
      rw [ho']
      exact congrArg (fun ps : Properties => ps.toList.filter _) hproperties

theorem queueOf_congr (h : s.SameProperties s' ids) (hid : id ∈ ids) :
    queueOf s' seen id = queueOf s seen id := by
  rw [queueOf, queueOf, unseen_congr h hid]

theorem isPresent_congr (h : s.SameProperties s' ids) {queued : Option ObjectId × Key}
    (hqueued : ∀ owner, queued.1 = some owner → owner ∈ ids) : isPresent s' queued = isPresent s queued := by
  obtain ⟨- | owner, key⟩ := queued
  · rfl
  · have hsame := h owner (hqueued owner rfl)
    have hany (s : Heap) : isPresent s (some owner, key) =
        ((s.object? owner).map Object.properties).any (·.contains key) := by
      rw [Option.any_map]
      rfl
    rw [hany, hany, hsame]

/-- The objects still to come are among some objects; and so are those that keys are queued from,
and the keys are there. -/
structure Steady (s : Heap) (ids : List ObjectId) (names : Enumeration) : Prop where
  chain : ∀ id ∈ names.chain, id ∈ ids
  owners : ∀ queued ∈ names.queue, ∀ owner, queued.1 = some owner → owner ∈ ids
  present : ∀ queued ∈ names.queue, isPresent s queued = true

namespace Steady

/-- The enumeration goes on in a heap where the objects have the same properties. -/
theorem advance (h : Steady s ids names) (hsame : s.SameProperties s' ids)
    (hadvance : Advance s' names names') :
    Steady s ids names' ∧ names'.remaining s = names.remaining s := by
  obtain ⟨hchain, howners, hpresent⟩ := h
  cases hadvance with
  | skip hgone =>
      rw [isPresent_congr hsame (howners _ List.mem_cons_self), hpresent _ List.mem_cons_self] at hgone
      cases hgone
  | @reach target id chain seen =>
      have hid : id ∈ ids := hchain id List.mem_cons_self
      rw [queueOf_congr hsame hid, unseen_congr hsame hid]
      refine ⟨⟨fun id' hid' => hchain id' (List.mem_cons_of_mem _ hid'), ?_, ?_⟩, rfl⟩
      · intro queued hqueued owner howner
        obtain ⟨key, p, rfl, -⟩ := mem_queueOf.mp hqueued
        cases howner
        exact hid
      · intro queued hqueued
        obtain ⟨key, p, rfl, hp, -⟩ := mem_queueOf.mp hqueued
        rw [isPresent_some, hp, Option.isSome_some]

theorem advances (h : Steady s ids names) (hsame : s.SameProperties s' ids)
    (hadvances : Advances s' names names') :
    Steady s ids names' ∧ names'.remaining s = names.remaining s := by
  induction hadvances with
  | refl => exact ⟨h, rfl⟩
  | tail _ hlast ih =>
      obtain ⟨hsteady, hremaining⟩ := ih.1.advance hsame hlast
      exact ⟨hsteady, hremaining.trans ih.2⟩

/-- The next key is the first of those that remain. -/
theorem next (h : Steady s ids names) (hsame : s.SameProperties s' ids)
    (hnext : names.next? s' = some (key, names')) :
    Steady s ids names' ∧ names.remaining s = key :: names'.remaining s := by
  obtain ⟨owner, -, hadvances⟩ := exists_advances_of_next? hnext
  obtain ⟨⟨hchain, howners, hpresent⟩, hremaining⟩ := h.advances hsame hadvances
  refine ⟨⟨hchain, fun queued hqueued => ?_, fun queued hqueued => ?_⟩, hremaining.symm⟩
  · exact howners queued (List.mem_cons_of_mem _ hqueued)
  · exact hpresent queued (List.mem_cons_of_mem _ hqueued)

/-- No next key is left when none remain. -/
theorem finished (h : Steady s ids names) (hsame : s.SameProperties s' ids) (hnext : names.next? s' = none) :
    names.remaining s = [] := by
  have hends := next?_endsWith s' names
  rw [hnext] at hends
  obtain ⟨⟨target, queue, chain, seen⟩, hqueue, hchain, hadvances⟩ := hends
  obtain rfl : queue = [] := hqueue
  obtain rfl : chain = [] := hchain
  exact (h.advances hsame hadvances).2.symm

end Steady

end Enumeration

/-! ### The keys that a loop visits -/

/-- The numbers of the units of a text. -/
def textKeys : Value → List Key
  | .string text => (List.range (Units.length text.toList)).map Key.ofNat
  | _ => []

theorem textKeys_nodup (v : Value) : (textKeys v).Nodup := by
  unfold textKeys
  split
  · exact List.nodup_range.map Key.ofNat_injective
  · exact List.nodup_nil

namespace Heap

/-- The objects that an enumeration looks into: those of the chain, if the value is an object or a
text. -/
def enumerated (s : Heap) (v : Value) : List ObjectId :=
  match v with
  | .string _ | .object _ => s.chain v
  | _ => []

/-- The keys of an object: the indices in ascending order, then the names in the order in which
they were added. -/
def keysOf (s : Heap) (id : ObjectId) : List Key :=
  match s.object? id with
  | some o => o.properties.keys
  | none => []

/-- Does the object have an enumerable property under the key? -/
def shows (s : Heap) (id : ObjectId) (key : Key) : Bool := (s.own? id key).any Property.enumerable

/-- The keys that an object shows, but for those that are taken and those that a nearer object
has, shown or not. -/
def keysBeyond (s : Heap) (taken : List Key) (nearer : List ObjectId) (id : ObjectId) : List Key :=
  (s.keysOf id).filter fun key =>
    s.shows id key && !taken.contains key && !nearer.any fun near => (s.own? near key).isSome

/-- The same for all objects of a chain, one after the other. -/
def keysAlong (s : Heap) (taken : List Key) : (nearer chain : List ObjectId) → List Key
  | _, [] => []
  | nearer, id :: chain => s.keysBeyond taken nearer id ++ s.keysAlong taken (nearer ++ [id]) chain

/-- The keys that a loop over the names of a value visits if nothing changes: the numbers of the
units of a text, then what the objects of the chain show. -/
def loopKeys (s : Heap) (v : Value) : List Key :=
  textKeys v ++ s.keysAlong (textKeys v) [] (s.enumerated v)

end Heap

namespace Enumeration

variable {s : Heap} {seen taken : List Key} {id : ObjectId} {nearer chain : List ObjectId}
  {target : Reference} {v : Value}

theorem map_fst_unseen (s : Heap) (seen : List Key) (id : ObjectId) :
    (unseen s seen id).map Prod.fst = (s.keysOf id).filter fun key => !seen.contains key := by
  unfold unseen Heap.keysOf
  cases s.object? id with
  | none => rfl
  | some o =>
      show _ = o.properties.keys.filter fun key => !seen.contains key
      rw [← Properties.map_fst_toList, List.filter_map]
      rfl

theorem map_snd_queueOf (s : Heap) (seen : List Key) (id : ObjectId) :
    (queueOf s seen id).map Prod.snd =
      (s.keysOf id).filter fun key => s.shows id key && !seen.contains key := by
  have hshown : (unseen s seen id).filter (fun q => q.2.enumerable) =
      (unseen s seen id).filter ((s.shows id) ∘ Prod.fst) := by
    refine List.filter_congr fun ⟨key, p⟩ hmem => ?_
    have hp : s.own? id key = some p := (mem_unseen.mp hmem).1
    rw [Function.comp_apply, Heap.shows, hp, Option.any_some]
  calc
    (queueOf s seen id).map Prod.snd
      = ((unseen s seen id).filter fun q => q.2.enumerable).map Prod.fst := by
        rw [queueOf, List.map_map]
        rfl
    _ = ((unseen s seen id).map Prod.fst).filter (s.shows id) := by
        rw [hshown, List.filter_map]
    _ = (s.keysOf id).filter fun key => s.shows id key && !seen.contains key := by
        rw [map_fst_unseen, List.filter_filter]

/-- The keys seen are those that were taken and those of the objects before. -/
theorem remainingIn_eq
    (hseen : ∀ key, key ∈ seen ↔ key ∈ taken ∨ ∃ near ∈ nearer, (s.own? near key).isSome = true) :
    remainingIn s seen chain = s.keysAlong taken nearer chain := by
  induction chain generalizing seen nearer with
  | nil => rfl
  | cons id chain ih =>
      have hhere : (queueOf s seen id).map Prod.snd = s.keysBeyond taken nearer id := by
        rw [map_snd_queueOf, Heap.keysBeyond]
        refine List.filter_congr fun key _ => ?_
        have hcontains : seen.contains key =
            (taken.contains key || nearer.any fun near => (s.own? near key).isSome) := by
          rw [Bool.eq_iff_iff]
          simpa using hseen key
        rw [hcontains, Bool.not_or, Bool.and_assoc]
      have hthen : ∀ key, key ∈ seen ++ (unseen s seen id).map Prod.fst ↔
          key ∈ taken ∨ ∃ near ∈ nearer ++ [id], (s.own? near key).isSome = true := by
        intro key
        rw [List.mem_append, mem_unseenKeys]
        have hbefore := hseen key
        constructor
        · rintro (hold | ⟨hown, -⟩)
          · rcases hbefore.mp hold with htaken | ⟨near, hnear, hown⟩
            · exact .inl htaken
            · exact .inr ⟨near, by simp [hnear], hown⟩
          · exact .inr ⟨id, by simp, hown⟩
        · intro h
          by_cases hold : key ∈ seen
          · exact .inl hold
          · rcases h with htaken | ⟨near, hnear, hown⟩
            · exact absurd (hbefore.mpr (.inl htaken)) hold
            · rcases List.mem_append.mp hnear with hnear | hnear
              · exact absurd (hbefore.mpr (.inr ⟨near, hnear, hown⟩)) hold
              · rw [List.mem_singleton.mp hnear] at hown
                exact .inr ⟨hown, hold⟩
      rw [remainingIn, Heap.keysAlong, hhere, ih hthen]

/-! ### Beginning -/

theorem start_eq (s : Heap) (target : Reference) (v : Value) :
    start s target v = ⟨target, (textKeys v).map fun key => (none, key), s.enumerated v, textKeys v⟩ := by
  cases v <;> rfl

theorem start_fresh (s : Heap) (target : Reference) (v : Value) : Fresh [] (start s target v) := by
  have hqueue : (start s target v).queue.map Prod.snd = textKeys v := by
    rw [start_eq, List.map_map]
    exact List.map_id _
  refine ⟨?_, fun key hkey => ?_⟩
  · rw [hqueue]
    exact textKeys_nodup v
  · rw [hqueue] at hkey
    rw [start_eq]
    exact hkey

theorem start_steady (s : Heap) (target : Reference) (v : Value) :
    Steady s (s.enumerated v) (start s target v) := by
  rw [start_eq]
  refine ⟨fun id hid => hid, fun queued hqueued => ?_, fun queued hqueued => ?_⟩
  all_goals obtain ⟨key, -, rfl⟩ := List.mem_map.mp hqueued
  · intro owner howner
    cases howner
  · rfl

/-- What remains at the beginning are all keys that the loop visits. -/
theorem remaining_start (s : Heap) (target : Reference) (v : Value) :
    (start s target v).remaining s = s.loopKeys v := by
  have hall : remainingIn s (textKeys v) (s.enumerated v) =
      s.keysAlong (textKeys v) [] (s.enumerated v) := remainingIn_eq fun key => by simp
  rw [start_eq, remaining, Heap.loopKeys, hall, List.map_map]
  exact congrArg (· ++ _) (List.map_id _)

end Enumeration

end Stepwise
