/-
The properties of one object.

Indexed properties are kept by index and named ones in the order they came, which is the
order their keys are listed in: indices upward, then names.
-/
import Std.Data.TreeMap
import Stepwise.Store.Key

namespace Stepwise

structure Property where
  value : Value
  /-- Writing leaves the value as it is. -/
  readonly : Bool
  /-- Do enumerations show it? -/
  enumerable : Bool
deriving Inhabited

/-- A property as an assignment makes it. -/
def Property.plain (value : Value) : Property := ⟨value, false, true⟩

namespace Properties

/-- The list with a named property replaced where it stands, or added at the end. -/
def insertNamed (s : String) (p : Property) : List (String × Property) → List (String × Property)
  | [] => [(s, p)]
  | (t, q) :: rest => if s == t then (s, p) :: rest else (t, q) :: insertNamed s p rest

theorem map_fst_insertNamed (s : String) (p : Property) (named : List (String × Property)) :
    (insertNamed s p named).map Prod.fst =
      if s ∈ named.map Prod.fst then named.map Prod.fst else named.map Prod.fst ++ [s] := by
  induction named with
  | nil => rfl
  | cons first rest ih =>
    obtain ⟨t, q⟩ := first
    by_cases hst : s = t
    · simp [insertNamed, hst]
    · simp only [insertNamed, beq_false_of_ne hst, Bool.false_eq_true, if_false, List.map_cons, ih,
        List.mem_cons, hst, false_or]
      split <;> rfl

theorem insertNamed_distinct {named : List (String × Property)} (h : (named.map Prod.fst).Nodup)
    (s : String) (p : Property) : ((insertNamed s p named).map Prod.fst).Nodup := by
  rw [map_fst_insertNamed]
  split
  · exact h
  · rename_i hnew
    refine List.nodup_append.mpr ⟨h, List.pairwise_singleton _ s, fun a ha b hb hab => ?_⟩
    rw [List.mem_singleton.mp hb] at hab
    exact hnew (hab ▸ ha)

end Properties

structure Properties where
  elements : Std.TreeMap Nat Property
  named : List (String × Property)
  /-- No name is listed twice. -/
  distinct : (named.map Prod.fst).Nodup

namespace Properties

def empty : Properties := ⟨{}, [], .nil⟩

instance : Inhabited Properties := ⟨empty⟩

def isEmpty (ps : Properties) : Bool := ps.elements.isEmpty && ps.named.isEmpty

def get? (ps : Properties) : Key → Option Property
  | .index i => ps.elements[i]?
  | .name s => ps.named.lookup s

def contains (ps : Properties) (key : Key) : Bool := (ps.get? key).isSome

def insert (ps : Properties) (key : Key) (p : Property) : Properties :=
  match key with
  | .index i => { ps with elements := ps.elements.insert i p }
  | .name s =>
    { ps with named := insertNamed s p ps.named, distinct := insertNamed_distinct ps.distinct s p }

def erase (ps : Properties) : Key → Properties
  | .index i => { ps with elements := ps.elements.erase i }
  | .name s =>
    { ps with
      named := ps.named.filter fun q => q.1 != s
      distinct := ps.distinct.sublist (List.filter_sublist.map _) }

/-- Without the indices from `n` on. -/
def truncate (ps : Properties) (n : Nat) : Properties :=
  { ps with elements := ps.elements.filter fun i _ => decide (i < n) }

/-- The indices, upward. -/
def indices (ps : Properties) : List Nat := ps.elements.keys

/-- The keys in order. -/
def keys (ps : Properties) : List Key :=
  ps.indices.map Key.index ++ ps.named.map fun q => Key.name q.1

/-- The keys with their properties, in the order of the keys. -/
def toList (ps : Properties) : List (Key × Property) :=
  ps.elements.toList.map (fun (i, p) => (Key.index i, p))
    ++ ps.named.map fun (s, p) => (Key.name s, p)

end Properties

end Stepwise
