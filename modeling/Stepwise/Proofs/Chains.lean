/-
Walks along prototypes.

Three walks follow the links from an object to the prototype that it inherits from: one
looks for a property, one collects the objects on the way, and one looks for a constructor.
A script can tie the links into a ring, so each of them remembers where it has been.  They
do not remember the same: the first two keep the objects that they came through, the third
only the prototypes, and it starts one link further on.

The definitions of the store count the steps of a walk down from a number of them.  Here
the walks stand once more as loops that nothing counts (`findTurn`, `chainTurn` and
`inheritsTurn`), and each of them ends with what the definition tells.  No object is met
twice, so the objects met before, as long as they are there, are no more than the heap has.

The agreement of the walks is then one of the definitions.  A property is looked for in the
objects of the chain, with the same steps (`findFrom_eq_findSome?`).  An instance is told by
a chain that may come back to where it started, and so that chain is compared with the one
of the value by what can be reached at all (`mem_chainFrom`).
-/
import Mathlib.Data.List.Nodup
import Mathlib.Data.List.Perm.Subperm
import Mathlib.Data.List.Range
import Mathlib.Logic.Relation
import Stepwise.Builtin.Install
import Stepwise.Proofs.Objects

namespace Stepwise

/-! ### Loops -/

/-- A loop comes to an end with a result: its turns go on from one state to another, and no
number of them is given. -/
inductive Loop.Ends {σ α : Type} (turn : σ → σ ⊕ α) : σ → α → Prop where
  | done {x : σ} {a : α} : turn x = .inr a → Ends turn x a
  | again {x y : σ} {a : α} : turn x = .inl y → Ends turn y a → Ends turn x a

/-! ### What a string answers -/

namespace Units

private theorem length_cons (c : Char) (rest : List Char) :
    length (c :: rest) = (if c.toNat < 0x10000 then 1 else 2) + length rest := by
  have hfrom : ∀ (text : List Char) (n : Nat),
      text.foldl (fun n c => n + if c.toNat < 0x10000 then 1 else 2) n = n + length text := by
    intro text
    induction text with
    | nil => intro n; rfl
    | cons d text ih =>
        intro n
        unfold length
        rw [List.foldl_cons, List.foldl_cons, ih, ih]
        omega
  unfold length
  rw [List.foldl_cons, hfrom]
  simp [length]

/-- The positions that have a unit are those below the length. -/
theorem at?_isSome (text : List Char) (i : Nat) : (at? text i).isSome = decide (i < length text) := by
  induction text generalizing i with
  | nil => simp [at?, length]
  | cons c rest ih =>
      rw [length_cons]
      unfold at?
      by_cases hc : c.toNat < 0x10000
      · rw [if_pos hc, if_pos hc]
        cases i with
        | zero =>
            have hlt : 0 < 1 + length rest := by omega
            simp [hlt]
        | succ i =>
            simp only [ih]
            congr 1
            simp only [eq_iff_iff]
            omega
      · rw [if_neg hc, if_neg hc]
        match i with
        | 0 =>
            have hlt : 0 < 2 + length rest := by omega
            simp [ofChar, hc, hlt]
        | 1 =>
            have hlt : 1 < 2 + length rest := by omega
            simp [ofChar, hc, hlt]
        | i + 2 =>
            simp only [ih]
            congr 1
            simp only [eq_iff_iff]
            omega

end Units

namespace Heap

/-- A string owns the keys that it answers. -/
theorem stringProperty?_isSome (text : String) (key : Key) :
    (stringProperty? text key).isSome = stringOwns text key := by
  cases key with
  | index i =>
      show ((Units.charAt? text.toList i).map Value.string).isSome = _
      simp [Units.charAt?, stringOwns, Units.at?_isSome]
  | name s =>
      unfold stringProperty? stringOwns
      by_cases h : (Key.name s == .length) = true
      · simp [h]
      · simp [h]

/-- What a string or an array answers by itself. -/
def ownAnswer? (s : Heap) (v : Value) (key : Key) : Option Value :=
  ((s.stringData? v).bind fun text => stringProperty? text key).or (s.arrayProperty? v key)

theorem arrayProperty?_isSome (s : Heap) (v : Value) (key : Key) :
    (s.arrayProperty? v key).isSome = (key == .length && s.isArray v) := by
  unfold arrayProperty? isArray
  by_cases h : (key == .length) = true
  · rw [if_pos h, h]
    cases s.objectOf? v <;> simp [Object.isArray]
  · rw [if_neg h]
    simp [h]

end Heap

/-! ### The walks as loops -/

namespace Heap

/-- A turn of the search for a property: the objects that were looked at, and the next one. -/
def findTurn (s : Heap) (key : Key) :
    List ObjectId × Option ObjectId → (List ObjectId × Option ObjectId) ⊕ Option Property
  | (_, none) => .inr none
  | (visited, some id) =>
    if id ∈ visited then .inr none
    else
      match s.object? id with
      | none => .inr none
      | some o =>
        match o.properties.get? key with
        | some p => .inr (some p)
        | none => .inl (id :: visited, o.parent.bind s.prototypeOf?)

/-- A turn of the walk that collects the chain: the chain so far, and the next object. -/
def chainTurn (s : Heap) :
    List ObjectId × Option ObjectId → (List ObjectId × Option ObjectId) ⊕ List ObjectId
  | (chain, none) => .inr chain
  | (chain, some id) => if id ∈ chain then .inr chain else .inl (chain ++ [id], s.next? id)

/-- A turn of the search for a constructor: the prototypes that were met, and the parent that
has come up. -/
def inheritsTurn (s : Heap) (constructor : ObjectId) :
    List ObjectId × ObjectId → (List ObjectId × ObjectId) ⊕ Bool
  | (visited, parent) =>
    if parent = constructor then .inr true
    else
      match s.prototypeOf? parent with
      | none => .inr false
      | some proto =>
        if proto ∈ visited then .inr false
        else
          match (s.object? proto).bind Object.parent with
          | none => .inr false
          | some next => .inl (proto :: visited, next)

variable {s : Heap} {id j : ObjectId} {visited : List ObjectId}

/-! ### Objects that were met -/

/-- Different objects of the heap, as a walk has met them. -/
structure Met (s : Heap) (visited : List ObjectId) : Prop where
  nodup : visited.Nodup
  there : ∀ id ∈ visited, (s.object? id).isSome = true

theorem Met.nil : s.Met [] := ⟨List.nodup_nil, nofun⟩

theorem Met.cons (h : s.Met visited) (hnew : id ∉ visited) {o : Object} (ho : s.object? id = some o) :
    s.Met (id :: visited) := by
  refine ⟨List.nodup_cons.mpr ⟨hnew, h.nodup⟩, fun j hj => ?_⟩
  rcases List.mem_cons.mp hj with rfl | hj
  · rw [ho]
    rfl
  · exact h.there j hj

private theorem index_lt_of_isSome (h : (s.object? id).isSome = true) : id.index < s.objects.size := by
  obtain ⟨o, ho⟩ := Option.isSome_iff_exists.mp h
  exact (Array.getElem?_eq_some_iff.mp ho).1

private theorem index_injective : Function.Injective ObjectId.index := by
  rintro ⟨i⟩ ⟨j⟩ rfl
  rfl

/-- Objects that were met are no more than the heap has. -/
theorem Met.length_le (h : s.Met visited) : visited.length ≤ s.objects.size := by
  have hsub : visited.map ObjectId.index ⊆ List.range s.objects.size := by
    intro i hi
    obtain ⟨j, hj, rfl⟩ := List.mem_map.mp hi
    exact List.mem_range.mpr (index_lt_of_isSome (h.there j hj))
  have hle := (List.subperm_of_subset (List.Nodup.map index_injective h.nodup) hsub).length_le
  simpa using hle

/-- When as many were met as the heap has, there is no other one. -/
theorem Met.mem_of_size_le (h : s.Met visited) (hsize : s.objects.size ≤ visited.length)
    {o : Object} (ho : s.object? j = some o) : j ∈ visited := by
  by_contra hnew
  have hle := (h.cons hnew ho).length_le
  simp only [List.length_cons] at hle
  omega

/-! ### Every walk comes to an end -/

/-- The next object after one that is not there. -/
theorem next?_of_eq_none (h : s.object? id = none) : s.next? id = none := by
  unfold next?
  rw [h]
  rfl

theorem next?_of_eq_some {o : Object} (h : s.object? id = some o) :
    s.next? id = o.parent.bind s.prototypeOf? := by
  unfold next?
  rw [h]
  rfl

theorem findFrom_succ (key : Key) (fuel : Nat) (visited : List ObjectId) (id : ObjectId) :
    s.findFrom key (fuel + 1) visited id =
      if id ∈ visited then none
      else (s.own? id key).or ((s.next? id).bind (s.findFrom key fuel (id :: visited))) := by
  rw [findFrom]
  by_cases hseen : id ∈ visited
  · rw [if_pos (List.contains_iff_mem.mpr hseen), if_pos hseen]
  rw [if_neg fun h => hseen (List.contains_iff_mem.mp h), if_neg hseen, own?]
  cases ho : s.object? id with
  | none =>
      rw [next?_of_eq_none ho]
      rfl
  | some o =>
      rw [next?_of_eq_some ho]
      cases hp : o.properties.get? key with
      | some p => simp [hp]
      | none => cases hnext : o.parent.bind s.prototypeOf? <;> simp [hp, hnext]

theorem chainFrom_succ (fuel : Nat) (visited : List ObjectId) (id : ObjectId) :
    s.chainFrom (fuel + 1) visited id =
      if id ∈ visited then []
      else id :: (s.next? id).elim [] (s.chainFrom fuel (id :: visited)) := by
  rw [chainFrom]
  by_cases hseen : id ∈ visited
  · rw [if_pos (List.contains_iff_mem.mpr hseen), if_pos hseen]
  · rw [if_neg fun h => hseen (List.contains_iff_mem.mp h), if_neg hseen]
    cases s.next? id <;> rfl

/-- The loop that looks for a property ends with the property that `findFrom` finds. -/
theorem findTurn_ends (key : Key) {fuel : Nat} (hmet : s.Met visited)
    (hfuel : s.objects.size < visited.length + fuel) (next : Option ObjectId) :
    Loop.Ends (s.findTurn key) (visited, next) (next.bind (s.findFrom key fuel visited)) := by
  induction fuel generalizing visited next with
  | zero =>
      have := hmet.length_le
      omega
  | succ fuel ih =>
      cases next with
      | none => exact .done rfl
      | some id =>
          rw [Option.bind_some, findFrom_succ]
          by_cases hseen : id ∈ visited
          · rw [if_pos hseen]
            exact .done (if_pos hseen)
          rw [if_neg hseen, own?]
          cases ho : s.object? id with
          | none =>
              rw [next?_of_eq_none ho]
              exact .done (by simp only [findTurn, if_neg hseen, ho]; rfl)
          | some o =>
              rw [next?_of_eq_some ho, Option.bind_some]
              cases hp : o.properties.get? key with
              | some p => exact .done (by simp only [findTurn, if_neg hseen, ho, hp]; rfl)
              | none =>
                  have hturn : s.findTurn key (visited, some id) =
                      .inl (id :: visited, o.parent.bind s.prototypeOf?) := by
                    simp only [findTurn, if_neg hseen, ho, hp]
                  exact .again hturn (ih (hmet.cons hseen ho) (by simp only [List.length_cons]; omega) _)

/-- The loop that collects the chain adds what `chainFrom` collects. -/
theorem chainTurn_ends {fuel : Nat} (hmet : s.Met visited)
    (hfuel : s.objects.size < visited.length + fuel) (next : Option ObjectId) :
    Loop.Ends s.chainTurn (visited.reverse, next)
      (visited.reverse ++ next.elim [] (s.chainFrom fuel visited)) := by
  induction fuel generalizing visited next with
  | zero =>
      have := hmet.length_le
      omega
  | succ fuel ih =>
      cases next with
      | none => exact .done (by simp [chainTurn])
      | some id =>
          rw [Option.elim_some, chainFrom_succ]
          by_cases hseen : id ∈ visited
          · rw [if_pos hseen, List.append_nil]
            exact .done (by simp [chainTurn, hseen])
          rw [if_neg hseen]
          have hturn : s.chainTurn (visited.reverse, some id) =
              .inl ((id :: visited).reverse, s.next? id) := by
            simp [chainTurn, hseen]
          cases ho : s.object? id with
          | none =>
              -- An object that is not there is not among those met, but it is the last.
              rw [next?_of_eq_none ho] at hturn ⊢
              exact .again hturn (.done (by simp [chainTurn]))
          | some o =>
              have hrest := ih (hmet.cons hseen ho) (by simp only [List.length_cons]; omega) (s.next? id)
              rw [List.reverse_cons, List.append_assoc] at hrest
              exact .again (by rw [hturn, List.reverse_cons]) hrest

/-- The loop that looks for a constructor ends with what `inheritsFrom` tells. -/
theorem inheritsTurn_ends (constructor : ObjectId) {fuel : Nat} (hmet : s.Met visited)
    (hfuel : s.objects.size < visited.length + fuel) (parent : ObjectId) :
    Loop.Ends (s.inheritsTurn constructor) (visited, parent)
      (s.inheritsFrom constructor fuel visited parent) := by
  induction fuel generalizing visited parent with
  | zero =>
      have := hmet.length_le
      omega
  | succ fuel ih =>
      rw [inheritsFrom]
      by_cases hfound : parent = constructor
      · rw [if_pos (beq_iff_eq.mpr hfound)]
        exact .done (if_pos hfound)
      rw [if_neg fun h => hfound (beq_iff_eq.mp h)]
      cases hproto : s.prototypeOf? parent with
      | none => exact .done (by simp only [inheritsTurn, if_neg hfound, hproto])
      | some proto =>
          dsimp only
          by_cases hseen : proto ∈ visited
          · rw [if_pos (List.contains_iff_mem.mpr hseen)]
            exact .done (by simp only [inheritsTurn, if_neg hfound, hproto, if_pos hseen])
          rw [if_neg fun h => hseen (List.contains_iff_mem.mp h)]
          cases hnext : (s.object? proto).bind Object.parent with
          | none =>
              exact .done (by simp only [inheritsTurn, if_neg hfound, hproto, if_neg hseen, hnext])
          | some next =>
              obtain ⟨o, ho, -⟩ := Option.bind_eq_some_iff.mp hnext
              exact .again
                (by simp only [inheritsTurn, if_neg hfound, hproto, if_neg hseen, hnext])
                (ih (hmet.cons hseen ho) (by simp only [List.length_cons]; omega) next)

/-! ### The objects of a chain -/

/-- No object stands twice in a chain, nor one that was met before. -/
theorem chainFrom_nodup (s : Heap) (fuel : Nat) (visited : List ObjectId) (id : ObjectId) :
    (s.chainFrom fuel visited id).Nodup ∧ ∀ j ∈ s.chainFrom fuel visited id, j ∉ visited := by
  induction fuel generalizing visited id with
  | zero => exact ⟨List.nodup_nil, nofun⟩
  | succ fuel ih =>
      rw [chainFrom_succ]
      by_cases hseen : id ∈ visited
      · rw [if_pos hseen]
        exact ⟨List.nodup_nil, nofun⟩
      rw [if_neg hseen]
      cases s.next? id with
      | none => exact ⟨by simp, fun j hj => by rwa [List.mem_singleton.mp hj]⟩
      | some next =>
          obtain ⟨hnodup, hnew⟩ := ih (id :: visited) next
          refine ⟨List.nodup_cons.mpr ⟨fun h => hnew id h List.mem_cons_self, hnodup⟩, fun j hj => ?_⟩
          rcases List.mem_cons.mp hj with rfl | hj
          · exact hseen
          · exact fun h => hnew j hj (List.mem_cons_of_mem _ h)

theorem chain_nodup (s : Heap) (v : Value) : (s.chain v).Nodup := by
  unfold chain
  cases s.start? v with
  | none => exact List.nodup_nil
  | some id => exact (s.chainFrom_nodup _ _ id).1

/-- A property is found in the first object of the chain that owns it. -/
theorem findFrom_eq_findSome? (s : Heap) (key : Key) (fuel : Nat) (visited : List ObjectId)
    (id : ObjectId) :
    s.findFrom key fuel visited id = (s.chainFrom fuel visited id).findSome? (s.own? · key) := by
  induction fuel generalizing visited id with
  | zero => rfl
  | succ fuel ih =>
      rw [findFrom_succ, chainFrom_succ]
      by_cases hseen : id ∈ visited
      · rw [if_pos hseen, if_pos hseen]
        rfl
      rw [if_neg hseen, if_neg hseen, List.findSome?_cons]
      cases hp : s.own? id key with
      | some p => rfl
      | none =>
          cases hnext : s.next? id with
          | none => rfl
          | some next => exact ih (id :: visited) next

theorem find?_start?_eq (s : Heap) (v : Value) (key : Key) :
    ((s.start? v).bind fun id => s.find? id key) = (s.chain v).findSome? (s.own? · key) := by
  unfold chain find?
  cases s.start? v with
  | none => rfl
  | some id => exact s.findFrom_eq_findSome? key _ _ id

/-! ### What can be reached -/

/-- An object is come to from another one along prototypes. -/
def Reaches (s : Heap) : ObjectId → ObjectId → Prop :=
  Relation.ReflTransGen fun i j => s.next? i = some j

/-- What is reached is the object itself or reached from the next one. -/
theorem reaches_iff : s.Reaches id j ↔ id = j ∨ ∃ next, s.next? id = some next ∧ s.Reaches next j :=
  Relation.ReflTransGen.cases_head_iff

/-- A chain has what can be reached only. -/
theorem reaches_of_mem_chainFrom {fuel : Nat} (h : j ∈ s.chainFrom fuel visited id) :
    s.Reaches id j := by
  induction fuel generalizing visited id with
  | zero => cases h
  | succ fuel ih =>
      rw [chainFrom_succ] at h
      split at h
      · cases h
      · rcases List.mem_cons.mp h with rfl | h
        · exact .refl
        · cases hnext : s.next? id with
          | none =>
              rw [hnext] at h
              cases h
          | some next =>
              rw [hnext] at h
              exact .head hnext (ih h)

/-- **A chain has all that can be reached**, as long as what is left out was met before, and
what comes after the objects met is met or still to come. -/
theorem mem_of_reaches {fuel : Nat} (hmet : s.Met visited)
    (hfuel : s.objects.size ≤ visited.length + fuel)
    (hclosed : ∀ i ∈ visited, ∀ next, s.next? i = some next → next ∈ visited ∨ next = id)
    {o : Object} (ho : s.object? j = some o) (h : s.Reaches id j) :
    j ∈ visited ∨ j ∈ s.chainFrom fuel visited id := by
  induction fuel generalizing visited id with
  | zero => exact .inl (hmet.mem_of_size_le hfuel ho)
  | succ fuel ih =>
      rw [chainFrom_succ]
      by_cases hseen : id ∈ visited
      · -- The walk has come round, and nothing that was met leads on to anything else.
        have hinside : ∀ i, s.Reaches id i → i ∈ visited := by
          intro i hi
          induction hi with
          | refl => exact hseen
          | tail _ hnext hi =>
              rcases hclosed _ hi _ hnext with h | rfl
              · exact h
              · exact hseen
        exact .inl (hinside j h)
      rw [if_neg hseen]
      rcases reaches_iff.mp h with rfl | ⟨next, hnext, hreach⟩
      · exact .inr List.mem_cons_self
      · rw [hnext]
        obtain ⟨o', ho'⟩ : ∃ o', s.object? id = some o' := by
          cases ho' : s.object? id with
          | none =>
              rw [next?_of_eq_none ho'] at hnext
              cases hnext
          | some o' => exact ⟨o', rfl⟩
        have hclosed' : ∀ i ∈ id :: visited, ∀ after, s.next? i = some after →
            after ∈ id :: visited ∨ after = next := by
          intro i hi after hafter
          rcases List.mem_cons.mp hi with rfl | hi
          · exact .inr (Option.some.inj (hafter.symm.trans hnext))
          · rcases hclosed i hi after hafter with h | rfl
            · exact .inl (List.mem_cons_of_mem _ h)
            · exact .inl List.mem_cons_self
        rcases ih (hmet.cons hseen ho') (by simp only [List.length_cons]; omega) hclosed' hreach with h | h
        · rcases List.mem_cons.mp h with rfl | h
          · exact .inr List.mem_cons_self
          · exact .inl h
        · exact .inr (List.mem_cons_of_mem _ h)

/-- An object that is there stands in the chain if and only if it can be reached. -/
theorem mem_chainFrom {fuel : Nat} (hfuel : s.objects.size ≤ fuel) {o : Object}
    (ho : s.object? j = some o) : j ∈ s.chainFrom fuel [] id ↔ s.Reaches id j := by
  refine ⟨reaches_of_mem_chainFrom, fun h => ?_⟩
  rcases mem_of_reaches Met.nil (by simpa using hfuel) nofun ho h with h | h
  · cases h
  · exact h

/-! ### Instances -/

/-- The constructor that an object is an instance of, the nearest one. -/
def parentAt? (s : Heap) (id : ObjectId) : Option ObjectId := (s.object? id).bind Object.parent

/-- The search for a constructor looks at the parent that it starts with, and then at those of
the chain from its prototype. -/
theorem inheritsFrom_eq (s : Heap) (constructor : ObjectId) (fuel : Nat) (visited : List ObjectId)
    (parent : ObjectId) :
    s.inheritsFrom constructor (fuel + 1) visited parent = (parent == constructor ||
      (s.prototypeOf? parent).any fun proto =>
        (s.chainFrom fuel visited proto).any fun j => s.parentAt? j == some constructor) := by
  induction fuel generalizing visited parent with
  | zero =>
      rw [inheritsFrom]
      cases hfound : parent == constructor with
      | true => rfl
      | false =>
          cases s.prototypeOf? parent with
          | none => rfl
          | some proto =>
              simp only [inheritsFrom, chainFrom, Option.any_some, List.any_nil]
              cases (s.object? proto).bind Object.parent <;> simp
  | succ fuel ih =>
      rw [inheritsFrom]
      cases hfound : parent == constructor with
      | true => rfl
      | false =>
          cases hproto : s.prototypeOf? parent with
          | none => rfl
          | some proto =>
              simp only [Bool.false_eq_true, if_false, Bool.false_or, Option.any_some]
              rw [chainFrom_succ]
              by_cases hseen : proto ∈ visited
              · rw [if_pos (List.contains_iff_mem.mpr hseen), if_pos hseen]
                rfl
              rw [if_neg fun h => hseen (List.contains_iff_mem.mp h), if_neg hseen, List.any_cons, parentAt?]
              cases hobject : s.object? proto with
              | none =>
                  rw [next?_of_eq_none hobject]
                  rfl
              | some o =>
                  rw [next?_of_eq_some hobject, Option.bind_some]
                  cases hnext : o.parent with
                  | none => rfl
                  | some next =>
                      simp only [ih, Option.bind_some]
                      cases s.prototypeOf? next <;> rfl

/-- **An object inherits from a constructor** if it is the parent, or the parent of something
that is reached from the prototype of the parent. -/
theorem inherits_iff (parent constructor : ObjectId) :
    s.inherits parent constructor = true ↔ parent = constructor ∨
      ∃ proto, s.prototypeOf? parent = some proto ∧
        ∃ j, s.Reaches proto j ∧ s.parentAt? j = some constructor := by
  have hmem (proto : ObjectId) :
      (s.chainFrom s.objects.size [] proto).any (fun j => s.parentAt? j == some constructor) = true ↔
        ∃ j, s.Reaches proto j ∧ s.parentAt? j = some constructor := by
    rw [List.any_eq_true]
    refine exists_congr fun j => ?_
    rw [beq_iff_eq]
    refine and_congr_left fun hparent => ?_
    obtain ⟨o, ho, -⟩ := Option.bind_eq_some_iff.mp hparent
    exact mem_chainFrom (Nat.le_refl _) ho
  unfold inherits walkFuel
  rw [inheritsFrom_eq, Bool.or_eq_true, beq_iff_eq]
  refine or_congr_right ?_
  rw [Option.any_eq_true]
  exact exists_congr fun proto => and_congr_right fun _ => hmem proto

/-- An object of the chain of a value is its start or comes after that. -/
theorem exists_mem_chain_iff (v : Value) (constructor : ObjectId) :
    (∃ j ∈ s.chain v, s.parentAt? j = some constructor) ↔
      ∃ id, s.start? v = some id ∧ ∃ j, s.Reaches id j ∧ s.parentAt? j = some constructor := by
  unfold chain
  cases s.start? v with
  | none => simp
  | some id =>
      simp only [Option.some.injEq, exists_eq_left']
      refine exists_congr fun j => and_congr_left fun hparent => ?_
      obtain ⟨o, ho, -⟩ := Option.bind_eq_some_iff.mp hparent
      exact mem_chainFrom (Nat.le_succ _) ho

/-- **A value is an instance of a constructor** if that is the parent of an object on its chain,
or wraps the value, which is a primitive. -/
theorem isInstance_iff (v : Value) (constructor : ObjectId) :
    s.isInstance v constructor = true ↔
      (∃ j ∈ s.chain v, s.parentAt? j = some constructor) ∨
        v.isPrimitive = true ∧ s.parent? v = some constructor := by
  rw [exists_mem_chain_iff, isInstance, Option.any_eq_true]
  have hprimitive (hv : v.isPrimitive = true) : s.start? v = (s.parent? v).bind s.prototypeOf? := by
    cases v <;> first | rfl | cases hv
  cases hv : v.isPrimitive with
  | true =>
      rw [hprimitive hv]
      constructor
      · rintro ⟨parent, hparent, hinherits⟩
        rcases (inherits_iff parent constructor).mp hinherits with rfl | ⟨proto, hproto, hreach⟩
        · exact .inr ⟨rfl, hparent⟩
        · exact .inl ⟨proto, by rw [hparent]; exact hproto, hreach⟩
      · rintro (⟨id, hid, hreach⟩ | ⟨-, hparent⟩)
        · obtain ⟨parent, hparent, hproto⟩ := Option.bind_eq_some_iff.mp hid
          exact ⟨parent, hparent, (inherits_iff _ _).mpr (.inr ⟨id, hproto, hreach⟩)⟩
        · exact ⟨constructor, hparent, (inherits_iff _ _).mpr (.inl rfl)⟩
  | false =>
      obtain ⟨id, rfl⟩ : ∃ id, v = .object id := by
        cases v with
        | object id => exact ⟨id, rfl⟩
        | _ => cases hv
      -- Here the search starts at the parent of the first object, which is met again if the
      -- chain comes back to it.
      have hstep (j : ObjectId) : s.Reaches id j ↔ id = j ∨
          ∃ parent, s.parentAt? id = some parent ∧ ∃ proto, s.prototypeOf? parent = some proto ∧
            s.Reaches proto j := by
        rw [reaches_iff]
        refine or_congr_right ⟨?_, ?_⟩
        · rintro ⟨next, hnext, hreach⟩
          obtain ⟨o, ho, hnext⟩ := Option.bind_eq_some_iff.mp hnext
          obtain ⟨parent, hparent, hproto⟩ := Option.bind_eq_some_iff.mp hnext
          exact ⟨parent, by rw [parentAt?, ho]; exact hparent, next, hproto, hreach⟩
        · rintro ⟨parent, hparent, proto, hproto, hreach⟩
          obtain ⟨o, ho, hparent⟩ := Option.bind_eq_some_iff.mp hparent
          exact ⟨proto, by rw [next?_of_eq_some ho, hparent]; exact hproto, hreach⟩
      simp only [Bool.false_eq_true, false_and, or_false]
      constructor
      · rintro ⟨parent, hparent, hinherits⟩
        refine ⟨id, rfl, ?_⟩
        rcases (inherits_iff parent constructor).mp hinherits with rfl | ⟨proto, hproto, j, hreach, hj⟩
        · exact ⟨id, .refl, hparent⟩
        · exact ⟨j, (hstep j).mpr (.inr ⟨parent, hparent, proto, hproto, hreach⟩), hj⟩
      · rintro ⟨start, hstart, j, hreach, hj⟩
        obtain rfl : start = id := (Option.some.inj hstart).symm
        rcases (hstep j).mp hreach with rfl | ⟨parent, hparent, proto, hproto, hreach⟩
        · exact ⟨constructor, hj, (inherits_iff _ _).mpr (.inl rfl)⟩
        · exact ⟨parent, hparent, (inherits_iff _ _).mpr (.inr ⟨proto, hproto, j, hreach, hj⟩)⟩

/-! ### Reading along the chain -/

/-- What a value other than null and undefined has for a key: its own answer, or else what the
first object of its chain that owns the key stores there. -/
theorem getProperty_eq {v : Value} (hv : v.isNullish = false) (key : Key) :
    s.getProperty v key = .ok ((s.ownAnswer? v key).getD
      (((s.chain v).findSome? (s.own? · key)).elim .undefined Property.value)) := by
  unfold getProperty property ownAnswer?
  rw [hv, ← find?_start?_eq]
  cases (s.stringData? v).bind fun text => stringProperty? text key with
  | some value => rfl
  | none =>
      cases s.arrayProperty? v key with
      | some value => rfl
      | none => cases (s.start? v).bind fun id => s.find? id key <;> rfl

theorem getProperty_of_isNullish {v : Value} (hv : v.isNullish = true) (key : Key) :
    s.getProperty v key =
      .error (.wrongType ("Cannot read property '" ++ key.toText ++ "' of " ++ v.toText)) := by
  unfold getProperty
  rw [hv]
  rfl

/-- An object has a key if it answers it by itself, or if an object of its chain owns it. -/
theorem hasOf_iff (id : ObjectId) (key : Key) :
    s.hasOf id key = true ↔ (s.ownAnswer? (.object id) key).isSome = true ∨
      ∃ j ∈ s.chain (.object id), (s.own? j key).isSome = true := by
  have hfind : s.find? id key = (s.chain (.object id)).findSome? (s.own? · key) :=
    s.find?_start?_eq (.object id) key
  have hstring : ((s.stringData? (.object id)).bind fun text => stringProperty? text key).isSome =
      (s.stringData? (.object id)).any fun text => stringOwns text key := by
    cases s.stringData? (.object id) with
    | none => rfl
    | some text => exact stringProperty?_isSome text key
  have howned : (s.find? id key).isSome = true ↔
      ∃ j ∈ s.chain (.object id), (s.own? j key).isSome = true := by
    rw [hfind, List.findSome?_isSome_iff]
  rw [hasOf, Bool.or_eq_true, howned, ownAnswer?, Option.isSome_or, arrayProperty?_isSome, hstring,
    Bool.or_comm]

/-- **The walks along prototypes end, and they agree**, whatever the links are tied to.

Each loop ends with what the definition tells, and the chain has no object twice.  Null and
undefined cannot be read.  What any other value has for a key that it does not answer by itself
is what the first object of its chain that owns the key stores; an object has the key if it
answers it or some object of its chain owns it; and a value is an instance of the constructors
that objects of its chain have as parents, and of the one that wraps it. -/
theorem walks_agree (s : Heap) (v : Value) (key : Key) (constructor : ObjectId) :
    Loop.Ends (s.findTurn key) ([], s.start? v) ((s.start? v).bind (s.find? · key)) ∧
    Loop.Ends s.chainTurn ([], s.start? v) (s.chain v) ∧
    (∀ parent, Loop.Ends (s.inheritsTurn constructor) ([], parent) (s.inherits parent constructor)) ∧
    (s.chain v).Nodup ∧
    (v.isNullish = true → s.getProperty v key =
      .error (.wrongType ("Cannot read property '" ++ key.toText ++ "' of " ++ v.toText))) ∧
    (v.isNullish = false → s.ownAnswer? v key = none → s.getProperty v key =
      .ok (((s.chain v).findSome? (s.own? · key)).elim .undefined Property.value)) ∧
    (∀ id, v = .object id → ∃ has, s.hasProperty v key = .ok has ∧
      (has = true ↔ (s.ownAnswer? v key).isSome = true ∨
        ∃ j ∈ s.chain v, (s.own? j key).isSome = true) ∧
      (has = false → s.getProperty v key = .ok .undefined)) ∧
    (s.isInstance v constructor = true ↔
      (∃ j ∈ s.chain v, s.parentAt? j = some constructor) ∨
        v.isPrimitive = true ∧ s.parent? v = some constructor) := by
  have hfuel : s.objects.size < ([] : List ObjectId).length + s.walkFuel := by
    simp [walkFuel]
  refine ⟨findTurn_ends key Met.nil hfuel _, ?_, inheritsTurn_ends constructor Met.nil hfuel,
    s.chain_nodup v, fun hv => getProperty_of_isNullish hv key, fun hv hown => ?_, ?_,
    isInstance_iff v constructor⟩
  · have hchain : s.chain v = (s.start? v).elim [] (s.chainFrom s.walkFuel []) := by
      unfold chain
      cases s.start? v <;> rfl
    rw [hchain]
    exact chainTurn_ends Met.nil hfuel _
  · rw [getProperty_eq hv, hown]
    rfl
  · rintro id rfl
    refine ⟨s.hasOf id key, rfl, hasOf_iff id key, fun hmissing => ?_⟩
    have hnone : ¬s.hasOf id key = true := by simp [hmissing]
    obtain ⟨hown, hchain⟩ := not_or.mp (mt (hasOf_iff id key).mpr hnone)
    have hfind : (s.chain (.object id)).findSome? (s.own? · key) = none :=
      List.findSome?_eq_none_iff.mpr fun j hj => by
        have := fun h => hchain ⟨j, hj, h⟩
        simpa using this
    rw [getProperty_eq rfl, Option.not_isSome_iff_eq_none.mp hown, hfind]
    rfl

/-- Two constructors, each with an instance of the other one as its prototype. -/
def ring : Heap where
  objects :=
    #[⟨none, ⟨∅, [("prototype", .plain (.object ⟨2⟩))], by simp⟩, .ordinary⟩,
      ⟨none, ⟨∅, [("prototype", .plain (.object ⟨3⟩))], by simp⟩, .ordinary⟩,
      .new (some ⟨1⟩) .ordinary,
      .new (some ⟨0⟩) .ordinary]
  reader := none
  clock := 0
  seed := 1
  journal := #[]

example : ring.chain (.object ⟨2⟩) = [⟨2⟩, ⟨3⟩] ∧ ring.isInstance (.object ⟨2⟩) ⟨0⟩ = true := by decide

/-- Null has an empty chain, but reading from it is not undefined: it is refused. -/
theorem reading_null_is_refused :
    let s : Heap := (Store.create {} none 0 1).toHeap
    s.chain .null = [] ∧ s.ownAnswer? .null (.name "x") = none ∧
      s.getProperty .null (.name "x") = .error (.wrongType "Cannot read property 'x' of null") :=
  ⟨rfl, rfl, rfl⟩

end Heap

end Stepwise
