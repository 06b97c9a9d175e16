/-
The lengths of arrays.

The length of an array is a number of its own, kept apart from the elements.  It is above
every index under which there is one, and no index reaches the bound, so that one more
than an index is always a length.

Every move keeps this, as long as what is stored is stored under a proper key.  Scripts
and library functions see to that themselves; a host has to pass the keys that texts,
numbers and values are read as.

An operation of a host changes a length in two ways only.  It stores a property under an
index, and then the array grows to hold it; or it sets the length, and then the elements
behind it are gone.  `HostOperation.lengthAfter` tells the length that there is then.  What
library functions and steps do is made of such changes, one after the other.
-/
import Stepwise.Proofs.History
import Stepwise.Proofs.Hoisting
import Stepwise.Proofs.Start

namespace Stepwise

/-! ### Heaps in bounds -/

/-- All objects are in bounds. -/
def Heap.InBounds (s : Heap) : Prop := ∀ id o, s.object? id = some o → o.InBounds

namespace Heap

variable {s s' : Heap}

end Heap

namespace Store

variable (config : Config) (reader : Option SourceReader) (clock : Float) (seed : UInt64)

end Store

/-! ### What becomes of a length -/

/-- The length after a property was stored under a key. -/
def Key.grow : Key → Nat → Nat
  | .index i, n => max n (i + 1)
  | .name _, n => n

/-- Is there room for the key in an array of a length? -/
def Key.fits (n : Nat) : Key → Bool
  | .index i => i < n
  | .name _ => true

namespace Object

variable {o : Object} {key : Key}

theorem arrayLength?_add (o : Object) (key : Key) (p : Property) :
    (o.add key p).arrayLength? = o.arrayLength?.map key.grow := by
  rcases o with ⟨parent, properties, kind⟩
  cases kind <;> cases key <;> rfl

theorem arrayLength?_resize (o : Object) (m : Nat) :
    (o.resize m).arrayLength? = o.arrayLength?.map fun _ => m := by
  rcases o with ⟨parent, properties, kind⟩
  cases kind <;> rfl

/-- What is left when the length was set lies within it. -/
theorem InBounds.get?_resize (h : o.InBounds) {n : Nat} (hn : o.arrayLength? = some n) (m : Nat)
    (key : Key) :
    (o.resize m).properties.get? key = if key.fits m then o.properties.get? key else none := by
  rcases o with ⟨parent, properties, kind⟩
  cases kind with
  | array n =>
      show (if m < n then properties.truncate m else properties).get? key = _
      cases key with
      | name s =>
          simp only [Key.fits, if_true]
          split <;> rfl
      | index i =>
          simp only [Key.fits, decide_eq_true_eq]
          split
          · rw [Properties.get?_truncate_index]
          · rename_i hm
            split
            · rfl
            · rename_i hi
              cases hp : properties.get? (.index i) with
              | none => rfl
              | some p =>
                  have hlt : i < n := (h i (by rw [Properties.contains, hp]; rfl)).2 n rfl
                  omega
  | _ => cases hn

end Object

/-! ### Lengths in a heap -/

namespace Heap

/-- The length of the array at a place. -/
def lengthAt? (s : Heap) (id : ObjectId) : Option Nat := (s.object? id).bind Object.arrayLength?

variable {s : Heap} {id id' : ObjectId} {n : Nat}

theorem exists_of_lengthAt? (hn : s.lengthAt? id = some n) :
    ∃ o, s.object? id = some o ∧ o.arrayLength? = some n := Option.bind_eq_some_iff.mp hn

/-- What a write to an array comes to. -/
theorem planWrite_of_array (hn : s.lengthAt? id = some n) (key : Key) (v : Value) :
    s.planWrite (.object id) key v =
      if key = .length then
        match Double.toIndex? (s.toNumber v) with
        | some length => .ok (.resize id length)
        | none => .error .invalidArrayLength
      else .ok (.put id key v) := by
  obtain ⟨⟨parent, properties, kind⟩, ho, hlength⟩ := exists_of_lengthAt? hn
  cases kind with
  | array m =>
      have htext : s.stringData? (.object id) = none := by
        simp only [stringData?, ho, Option.map_some]
      have harray : s.isArray (.object id) = true := by
        unfold isArray objectOf?
        rw [Value.objectId?, Option.bind_some, ho]
        rfl
      simp only [planWrite, htext, harray, Option.any_none, Bool.false_eq_true, if_false,
        Bool.and_true, beq_iff_eq]
      rfl
  | _ => cases hlength

namespace InBounds

end InBounds

end Heap

/-! ### What a host does to a length -/

namespace Store

variable {s : Heap} {id : ObjectId} {n : Nat}

end Store

/-- What a move that sets no length does to the length and the keys of an object.  The objects
that can be turned into something else are no arrays, or have no length to lose. -/
inductive Object.Lengthens (o o' : Object) : Prop where
  | kept (hlength : o'.arrayLength? = o.arrayLength?)
      (hkeys : ∀ key, o'.properties.contains key = true → o.properties.contains key = true)
  | stored (key : Key) (hnew : o.properties.contains key = false)
      (hlength : o'.arrayLength? = o.arrayLength?.map key.grow)
      (hkeys : ∀ key', o'.properties.contains key' = (key == key' || o.properties.contains key'))
  | converted (hlength : ∀ n, o.arrayLength? = some n → n = 0) (hgone : o'.arrayLength? = none)
      (hproperties : o'.properties = o.properties)

namespace Object.Lengthens

variable {o : Object} {key : Key}

theorem refl (o : Object) : o.Lengthens o := .kept rfl fun _ h => h

/-- A property put in the place of another one. -/
theorem replace {q : Property} (hq : o.properties.get? key = some q) (p : Property) :
    o.Lengthens { o with properties := o.properties.insert key p } := by
  refine .kept rfl fun key' hkey' => ?_
  rw [Properties.contains_insert] at hkey'
  rcases Bool.or_eq_true_iff.mp hkey' with heq | hold
  · rw [← beq_iff_eq.mp heq, Properties.contains, hq]
    rfl
  · exact hold

theorem add (hnone : o.properties.get? key = none) (p : Property) : o.Lengthens (o.add key p) := by
  refine .stored key ?_ (arrayLength?_add o key p) fun key' => Properties.contains_insert _ _ _ _
  rw [Properties.contains, hnone]
  rfl

theorem put (o : Object) (key : Key) (v : Value) : o.Lengthens (o.put key v) := by
  unfold Object.put
  split
  · split
    · exact refl o
    · exact replace ‹_› _
  · exact add ‹_› _

theorem define (o : Object) (key : Key) (p : Property) : o.Lengthens (o.define key p) := by
  unfold Object.define
  split
  · dsimp only
    split
    · exact refl o
    · exact replace ‹_› _
  · exact add ‹_› _

theorem erase (o : Object) (key : Key) : o.Lengthens (o.erase key) := by
  refine .kept rfl fun key' hkey' => ?_
  have hget : ((o.properties.erase key).get? key').isSome = true := hkey'
  rw [Properties.get?_erase] at hget
  split at hget
  · cases hget
  · exact hget

theorem withKind (h : o.kind.isConvertible = true) {kind : Kind} (hkind : kind.isBoxed = true) :
    o.Lengthens { o with kind } := by
  refine .converted (fun n hn => ?_) ?_ rfl
  · rcases o with ⟨parent, properties, before⟩
    cases before with
    | array m =>
        obtain rfl : m = n := Option.some.inj hn
        cases m with
        | zero => rfl
        | succ m => cases h
    | _ => cases hn
  · cases kind with
    | array m => cases hkind
    | _ => rfl

theorem admits : Object.Admits Object.Lengthens where
  refl := refl
  define := define
  put := put
  erase o key _ := erase o key
  withKind _ _ h hkind := withKind h hkind

end Object.Lengthens

namespace Heap

/-- Every object is there as it was, but for what a move that sets no length does. -/
def Lengthens : Heap → Heap → Prop := Objectwise fun _ => Object.Lengthens

variable {l : Licence} {s s' : Heap}

end Heap

namespace Store

variable {s : Heap} {id : ObjectId} {n m : Nat}

end Store

/-! ### Histories -/

namespace Evaluator

end Evaluator

end Stepwise
