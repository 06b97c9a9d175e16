/-
The comparisons agree with each other.

A comparison converts its operands to primitives each for itself, and what it says of two
primitives it says of them the other way round if they change sides: that is so of numbers, and
of texts by their units (`comparePrimitives_swap`).  Where an operand is not converted at all, as
when one object stands on both sides, changing sides changes nothing.  Everything else follows
from that, and from what is equal to itself.
-/
import Stepwise.Proofs.Orders
import Stepwise.Proofs.Units

namespace Stepwise

namespace BinaryOp

/-- The comparison that says the same when its operands change sides. -/
def mirror? : BinaryOp → Option BinaryOp
  | less => some greater
  | lessEq => some greaterEq
  | greater => some less
  | greaterEq => some lessEq
  | eq => some eq
  | notEq => some notEq
  | strictEq => some strictEq
  | strictNotEq => some strictNotEq
  | _ => none

end BinaryOp

/-! ### Primitives -/

theorem Double.beq_comm (x y : Float) : (x == y) = (y == x) := by
  rw [Bool.eq_iff_iff, beq_iff, beq_iff, order?_swap x y]
  rcases order? x y with _ | _ | _ | _ <;> simp

/-- What is said of two primitives is said the other way round if they change sides. -/
theorem comparePrimitives_swap (p q : Value) :
    comparePrimitives q p = (comparePrimitives p q).map Ordering.swap := by
  cases htexts : p.isText && q.isText with
  | false =>
      rw [comparePrimitives_of_not_texts htexts, comparePrimitives_of_not_texts (by rwa [Bool.and_comm]),
        Double.order?_swap]
  | true =>
      obtain ⟨hp, hq⟩ := Bool.and_eq_true_iff.mp htexts
      cases p with
      | string x =>
          cases q with
          | string y => exact congrArg some Std.OrientedCmp.eq_swap
          | _ => cases hq
      | _ => cases hp

theorem Value.strictEquals_comm (a b : Value) : a.strictEquals b = b.strictEquals a := by
  cases a with
  | boolean x =>
      cases b with
      | boolean y => exact Bool.beq_comm
      | _ => rfl
  | number x =>
      cases b with
      | number y => exact Double.beq_comm x y
      | _ => rfl
  | string x =>
      cases b with
      | string y => exact Bool.beq_comm
      | _ => rfl
  | object x =>
      cases b with
      | object y => exact Bool.beq_comm
      | _ => rfl
  | _ => cases b <;> rfl

namespace Heap

variable {s : Heap} {a b : Value}

/-! ### Any values -/

/-- The order of two values is reversed if they change sides. -/
theorem compare_swap (s : Heap) (a b : Value) : s.compare b a = (s.compare a b).map Ordering.swap := by
  by_cases hsame : a = b ∧ a.isPrimitive = false
  · obtain ⟨rfl, hobject⟩ := hsame
    rw [compare_self hobject]
    rfl
  · have hother : ¬(b = a ∧ b.isPrimitive = false) := fun h => hsame ⟨h.1.symm, h.1 ▸ h.2⟩
    rw [compare_of_not_same hsame, compare_of_not_same hother, comparePrimitives_swap]

/-- Values of which one is no object, and neither is null or undefined, are equal if their
primitives are. -/
theorem looseEquals_of_primitive (hnullish : (a.isNullish || b.isNullish) = false)
    (hprimitive : (a.isPrimitive || b.isPrimitive) = true) :
    s.looseEquals a b = (s.compare (s.toPrimitive a .default) (s.toPrimitive b .default) == some .eq) := by
  unfold looseEquals
  rw [if_neg (by rw [hnullish]; exact Bool.false_ne_true)]
  split
  · cases hprimitive
  · rfl

theorem looseEquals_comm (s : Heap) (a b : Value) : s.looseEquals a b = s.looseEquals b a := by
  cases hnullish : a.isNullish || b.isNullish with
  | true =>
      unfold looseEquals
      rw [if_pos hnullish, if_pos (by rwa [Bool.or_comm]), Bool.and_comm]
  | false =>
      cases hprimitive : a.isPrimitive || b.isPrimitive with
      | true =>
          rw [looseEquals_of_primitive hnullish hprimitive,
            looseEquals_of_primitive (by rwa [Bool.or_comm]) (by rwa [Bool.or_comm]), s.compare_swap]
          rcases s.compare _ _ with _ | _ | _ | _ <;> rfl
      | false =>
          obtain ⟨ha, hb⟩ := Bool.or_eq_false_iff.mp hprimitive
          cases a with
          | object x =>
              cases b with
              | object y => exact Bool.beq_comm
              | _ => cases hb
          | _ => cases ha

/-- Primitives that are neither null nor undefined are equal if they compare as equal. -/
theorem looseEquals_of_isPrimitive (ha : a.isPrimitive = true) (hb : b.isPrimitive = true)
    (hnullish : (a.isNullish || b.isNullish) = false) :
    s.looseEquals a b = (comparePrimitives a b == some .eq) := by
  rw [looseEquals_of_primitive hnullish (by rw [ha]; rfl), toPrimitive_of_isPrimitive ha,
    toPrimitive_of_isPrimitive hb, compare_of_isPrimitive ha hb]

/-- What is the same is equal. -/
theorem looseEquals_of_strictEquals (h : a.strictEquals b = true) : s.looseEquals a b = true := by
  have hself {p : Value} (hp : p.isPrimitive = true) (hnullish : p.isNullish = false)
      (hordered : ¬p.Unordered) : s.looseEquals p p = true := by
    rw [looseEquals_of_isPrimitive hp hp (by rw [hnullish]; rfl), comparePrimitives_self hordered]
    rfl
  unfold Value.strictEquals at h
  split at h
  · rfl
  · rfl
  · rename_i x y
    obtain rfl := eq_of_beq h
    exact hself rfl rfl fun hnan => by cases x <;> cases hnan.2
  · rename_i x y
    rw [looseEquals_of_isPrimitive rfl rfl rfl, comparePrimitives_of_not_texts rfl]
    exact beq_iff_eq.mpr ((Double.beq_iff x y).mp h)
  · obtain rfl := eq_of_beq h
    exact hself rfl rfl fun htext => by cases htext.1
  · exact h
  · cases h

/-- A comparison says of two values what its mirror image says of them when they change sides. -/
theorem binary_mirror {op op' : BinaryOp} (h : op.mirror? = some op') (s : Heap) (a b : Value) :
    s.binary op a b = s.binary op' b a := by
  have hordered {accept accept' : Ordering → Bool} (haccept : ∀ o, accept o = accept' o.swap) :
      s.ordered a b accept = s.ordered b a accept' := by
    rw [ordered, ordered, s.compare_swap a b, Option.any_map]
    exact congrArg (fun f => Value.boolean ((s.compare a b).any f)) (funext haccept)
  cases op with
  | less | lessEq | greater | greaterEq =>
      cases h
      exact congrArg Except.ok (hordered fun o => by cases o <;> rfl)
  | eq | notEq =>
      cases h
      simp only [binary, s.looseEquals_comm a b]
  | strictEq | strictNotEq =>
      cases h
      simp only [binary, a.strictEquals_comm b]
  | _ => cases h

/-- Two texts are compared by their units. -/
theorem compare_texts (s : Heap) (x y : String) :
    s.compare (.string x) (.string y) = some (Units.compare (Units.encode x.toList) (Units.encode y.toList)) :=
  compare_of_isPrimitive rfl rfl

/-- **The comparisons agree with each other.**  The order of two values is reversed if they change
sides, and so both equalities hold of them either way round; what is the same is equal; and texts
are in a total order, in which only a text itself is equal to it.  Hence what an operator says of two
values, its mirror image says of them when they change sides. -/
theorem comparisons_agree (s : Heap) (a b : Value) :
    s.compare b a = (s.compare a b).map Ordering.swap ∧
    s.looseEquals a b = s.looseEquals b a ∧
    (a.strictEquals b = true → s.looseEquals a b = true) ∧
    a.strictEquals b = b.strictEquals a ∧
    (∀ x y : String, ∃ o, s.compare (.string x) (.string y) = some o ∧ (o = .eq ↔ x = y)) ∧
    (∀ x y z : String, s.compare (.string x) (.string y) = some .lt →
      s.compare (.string y) (.string z) = some .lt → s.compare (.string x) (.string z) = some .lt) ∧
    ∀ op op' : BinaryOp, op.mirror? = some op' → s.binary op a b = s.binary op' b a := by
  refine ⟨s.compare_swap a b, s.looseEquals_comm a b, looseEquals_of_strictEquals, a.strictEquals_comm b,
    fun x y => ⟨_, s.compare_texts x y, Units.compare_encode_eq_iff⟩, fun x y z hxy hyz => ?_,
    fun op op' h => binary_mirror h s a b⟩
  rw [compare_texts, Option.some.injEq] at hxy hyz ⊢
  exact Std.TransCmp.lt_trans hxy hyz

end Heap

end Stepwise
