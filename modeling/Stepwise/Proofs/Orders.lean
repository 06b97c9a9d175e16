/-
The order of values.

A relational operator asks for the order of its operands and accepts some orders.  Two numbers
have the order of the numbers that they are, and none if one of them is not a number; two texts
are ordered by their units; and all other primitives by their numbers.

An operand that is an object is converted first, so that the operator sees a primitive only.
There is one way past that: an object that is compared with itself is equal to itself, and is not
converted at all.  What it converts to is equal to itself as well, unless it is no text and its
number is none (`comparePrimitives_self`).  So the way past the conversion shows for the objects
whose number is none, and for no others: there `<=` and `>=` hold of the object, and not of what it
converts to.
-/
import Stepwise.Proofs.Hosting
import Stepwise.Proofs.Wholes

namespace Stepwise

open Float.Model (UnpackedFloat)

/-! ### The order of numbers -/

namespace Double

/-- The order of two doubles, none if one of them is not a number. -/
def order? (x y : Float) : Option Ordering := x.toModel.unpack.compare y.toModel.unpack

theorem lt_iff (x y : Float) : x < y ↔ order? x y = some .lt := by
  show decide ((order? x y == some .lt) = true) = true ↔ _
  rw [decide_eq_true_iff, beq_iff_eq]

theorem beq_iff (x y : Float) : (x == y) = true ↔ order? x y = some .eq := by
  show (order? x y == some .eq) = true ↔ _
  rw [beq_iff_eq]

/-- What is below another number has that number above it. -/
theorem order?_swap (x y : Float) : order? y x = (order? x y).map Ordering.swap := by
  unfold order?
  generalize x.toModel.unpack = u
  generalize y.toModel.unpack = v
  cases u with
  | notANumber => cases v <;> rfl
  | infinity s =>
      cases v with
      | infinity t => cases s <;> cases t <;> rfl
      | _ => cases s <;> rfl
  | zero s =>
      cases v with
      | infinity t => cases t <;> rfl
      | finite t m e h => cases t <;> rfl
      | _ => rfl
  | finite s m e h =>
      cases v with
      | infinity t => cases s <;> cases t <;> rfl
      | notANumber => rfl
      | zero t => cases s <;> rfl
      | finite t m' e' h' =>
          have hmagnitude : (compare e' e).then (compare m' m) =
              ((compare e e').then (compare m m')).swap := by
            rw [Ordering.swap_then, Int.compare_swap, Nat.compare_swap]
          cases s with
          | negative =>
              cases t with
              | negative => exact congrArg (fun o => some o.swap) hmagnitude
              | positive => rfl
          | positive =>
              cases t with
              | negative => rfl
              | positive => exact congrArg some hmagnitude

/-- What is not a number has no order. -/
theorem order?_of_isNaN {x y : Float} (h : x.isNaN = true ∨ y.isNaN = true) : order? x y = none := by
  have hnan : x.toModel.unpack.isNaN = true ∨ y.toModel.unpack.isNaN = true := h
  unfold order?
  generalize x.toModel.unpack = u at hnan
  generalize y.toModel.unpack = v at hnan
  rcases hnan with hu | hv
  · cases u with
    | notANumber => cases v <;> rfl
    | _ => cases hu
  · cases v with
    | notANumber => cases u <;> rfl
    | _ => cases hv

/-- A number is equal to itself. -/
theorem order?_self {x : Float} (hx : x.isNaN = false) : order? x x = some .eq := by
  have hnumber : x.toModel.unpack.isNaN = false := hx
  unfold order?
  generalize x.toModel.unpack = u at hnumber
  cases u with
  | notANumber => cases hnumber
  | infinity s => cases s <;> rfl
  | zero s => rfl
  | finite s m e h =>
      have hmagnitude : (compare e e).then (compare m m) = .eq := by simp
      cases s with
      | negative => exact congrArg (fun o => some o.swap) hmagnitude
      | positive => exact congrArg some hmagnitude

end Double

theorem compareNumbers_eq (x y : Float) : compareNumbers x y = Double.order? x y := by
  have hswap := Double.order?_swap x y
  unfold compareNumbers
  simp only [Double.lt_iff, Double.beq_iff, hswap]
  rcases Double.order? x y with _ | _ | _ | _ <;> rfl

/-! ### The order of primitives -/

theorem Units.compare_self (text : List Units.CodeUnit) : Units.compare text text = .eq := by
  induction text with
  | nil => rfl
  | cons u text ih => simp [Units.compare, ih]

def Value.isText : Value → Bool
  | .string _ => true
  | _ => false

/-- A primitive that is not equal to itself: no text, and not a number as a number. -/
def Value.Unordered (p : Value) : Prop := p.isText = false ∧ p.toNumber.isNaN = true

/-- Where not both are texts, their numbers are compared. -/
theorem comparePrimitives_of_not_texts {p q : Value} (h : (p.isText && q.isText) = false) :
    comparePrimitives p q = Double.order? p.toNumber q.toNumber := by
  rw [← compareNumbers_eq]
  unfold comparePrimitives
  split
  · cases h
  · rfl

/-- **A primitive is equal to itself**, unless it is no text and not a number. -/
theorem comparePrimitives_self {p : Value} (h : ¬p.Unordered) : comparePrimitives p p = some .eq := by
  cases htext : p.isText with
  | true =>
      obtain ⟨text, rfl⟩ : ∃ text, p = .string text := by
        cases p with
        | string text => exact ⟨text, rfl⟩
        | _ => cases htext
      exact congrArg some (Units.compare_self _)
  | false =>
      rw [comparePrimitives_of_not_texts (by rw [htext]; rfl)]
      exact Double.order?_self (Bool.eq_false_iff.mpr fun hnan => h ⟨htext, hnan⟩)

/-! ### Operands -/

namespace BinaryOp

/-- The orders that a relational operator accepts. -/
def accepted? : BinaryOp → Option (Ordering → Bool)
  | less => some (· == .lt)
  | lessEq => some (· != .gt)
  | greater => some (· == .gt)
  | greaterEq => some (· != .lt)
  | _ => none

end BinaryOp

namespace Heap

variable {s : Heap} {a b p q : Value} {op : BinaryOp} {accept : Ordering → Bool}

theorem binary_of_accepted (h : op.accepted? = some accept) (s : Heap) (a b : Value) :
    s.binary op a b = .ok (s.ordered a b accept) := by
  cases op <;> cases h <;> rfl

theorem toPrimitive_of_ok {hint : Hint} (h : s.toPrimitive? a hint = .ok p) : s.toPrimitive a hint = p := by
  rw [toPrimitive, h]

theorem toPrimitive_of_isPrimitive (hp : p.isPrimitive = true) (hint : Hint) : s.toPrimitive p hint = p := by
  cases p with
  | object id => cases hp
  | _ => rfl

/-- Objects are converted, unless one object stands on both sides. -/
theorem compare_of_not_same (h : ¬(a = b ∧ a.isPrimitive = false)) :
    s.compare a b = comparePrimitives (s.toPrimitive a .number) (s.toPrimitive b .number) := by
  unfold compare
  split
  · rename_i x y
    rw [if_neg]
    intro hsame
    exact h ⟨congrArg Value.object (eq_of_beq hsame), rfl⟩
  · rfl

theorem compare_self (h : a.isPrimitive = false) : s.compare a a = some .eq := by
  cases a with
  | object id => exact if_pos (beq_self_eq_true id)
  | _ => cases h

theorem compare_of_isPrimitive (hp : p.isPrimitive = true) (hq : q.isPrimitive = true) :
    s.compare p q = comparePrimitives p q := by
  have hobject : ¬(p = q ∧ p.isPrimitive = false) := fun h => Bool.noConfusion (hp.symm.trans h.2)
  rw [compare_of_not_same hobject, toPrimitive_of_isPrimitive hp, toPrimitive_of_isPrimitive hq]

/-- The primitive of a wrapper is what it wraps. -/
theorem toPrimitive?_of_wrapper {id : ObjectId} {o : Object} {payload : Value} (ho : s.object? id = some o)
    (hkind : o.kind = .wrapper payload) (hint : Hint) : s.toPrimitive? (.object id) hint = .ok payload := by
  have hobject : s.objectOf? (.object id) = some o := ho
  have harray : s.isArray (.object id) = false := by
    simp [isArray, hobject, Object.isArray, Object.arrayLength?, hkind]
  simp [toPrimitive?, harray, scalar, ho, hkind]
  rfl

/-- An operator tells of primitives whether it accepts their order. -/
theorem binary_of_isPrimitive (hop : op.accepted? = some accept) (hp : p.isPrimitive = true)
    (hq : q.isPrimitive = true) :
    s.binary op p q = .ok (.boolean ((comparePrimitives p q).any accept)) := by
  rw [binary_of_accepted hop, ordered, compare_of_isPrimitive hp hq]

/-- What is not a number, and no text beside another one, is in no order that an operator accepts. -/
theorem binary_of_isNaN (hop : op.accepted? = some accept) (hp : p.isPrimitive = true)
    (hq : q.isPrimitive = true) (htexts : (p.isText && q.isText) = false)
    (hnan : p.toNumber.isNaN = true ∨ q.toNumber.isNaN = true) :
    s.binary op p q = .ok (.boolean false) := by
  rw [binary_of_isPrimitive hop hp hq, comparePrimitives_of_not_texts htexts,
    Double.order?_of_isNaN hnan, Option.any_none]

/-- One object on both sides is equal to itself. -/
theorem binary_self (hop : op.accepted? = some accept) (ha : a.isPrimitive = false) :
    s.binary op a a = .ok (.boolean (accept .eq)) := by
  rw [binary_of_accepted hop, ordered, compare_self ha, Option.any_some]

variable {roots : List ObjectId}

/-- **A relational operator sees its operands through their primitives**, and is false of any that
are not numbers and not both texts.  It differs from what it says of the primitives just where
it accepts equality, and one object stands on both sides that converts to what is not a number. -/
theorem relational_sees_primitives (hs : s.Intact roots) (hop : op.accepted? = some accept)
    (ha : s.toPrimitive? a .number = .ok p) (hb : s.toPrimitive? b .number = .ok q) :
    s.binary op p q = .ok (.boolean ((comparePrimitives p q).any accept)) ∧
      ((p.isText && q.isText) = false → p.toNumber.isNaN = true ∨ q.toNumber.isNaN = true →
        s.binary op p q = .ok (.boolean false)) ∧
      (¬(a = b ∧ a.isPrimitive = false ∧ p.Unordered ∧ accept .eq = true) →
        s.binary op a b = s.binary op p q) ∧
      (a = b ∧ a.isPrimitive = false ∧ p.Unordered ∧ accept .eq = true →
        s.binary op a b = .ok (.boolean true) ∧ s.binary op p q = .ok (.boolean false)) := by
  have hp := toPrimitive?_isPrimitive hs ha
  have hq := toPrimitive?_isPrimitive hs hb
  have hunordered (h : p.Unordered) : s.binary op p p = .ok (.boolean false) :=
    binary_of_isNaN hop hp hp (by rw [h.1]; rfl) (.inl h.2)
  refine ⟨binary_of_isPrimitive hop hp hq, fun htexts hnan => binary_of_isNaN hop hp hq htexts hnan, ?_, ?_⟩
  · intro hnot
    by_cases hsame : a = b ∧ a.isPrimitive = false
    · obtain ⟨rfl, hobject⟩ := hsame
      obtain rfl : p = q := Except.ok.inj (ha.symm.trans hb)
      rw [binary_self hop hobject]
      by_cases hordered : p.Unordered
      · have haccept : accept .eq = false := Bool.eq_false_iff.mpr fun h => hnot ⟨rfl, hobject, hordered, h⟩
        rw [hunordered hordered, haccept]
      · rw [binary_of_isPrimitive hop hp hp, comparePrimitives_self hordered, Option.any_some]
    · rw [binary_of_isPrimitive hop hp hq, binary_of_accepted hop, ordered, compare_of_not_same hsame,
        toPrimitive_of_ok ha, toPrimitive_of_ok hb]
  · rintro ⟨rfl, hobject, hordered, haccept⟩
    obtain rfl : p = q := Except.ok.inj (ha.symm.trans hb)
    exact ⟨by rw [binary_self hop hobject, haccept], hunordered hordered⟩

/-- A wrapper of five is below seven. -/
theorem wrapper_below_number : ∃ e, Evaluator.HostedFairly [] e ∧ ∃ id,
    e.store.toPrimitive? (.object id) .number = .ok (.number 5.0) ∧
      e.store.binary .less (.object id) (.number 7.0) = .ok (.boolean true) := by
  obtain ⟨e, id, o, he, ho, hkind, -, -⟩ := (Evaluator.HostedFairly.realm {} none 0 1).exists_wrapper rfl
    (show Wrapping.object .undefined [.number 5.0] = Wrapping.wrap Intrinsic.number (.number 5.0) from rfl)
  have hfive := toPrimitive?_of_wrapper ho hkind .number
  refine ⟨e, he, id, hfive, ?_⟩
  obtain ⟨hprimitives, -, hsame, -⟩ := relational_sees_primitives he.isIntact.heap
    (show BinaryOp.less.accepted? = some (· == .lt) from rfl) hfive
    (show e.store.toPrimitive? (.number 7.0) .number = .ok (.number 7.0) from rfl)
  exact (hsame fun h => Value.noConfusion h.1).trans (hprimitives.trans rfl)

/-- A wrapper of what is not a number is at most itself, and what it wraps is not. -/
theorem unordered_wrapper_at_most_itself : ∃ e, Evaluator.HostedFairly [] e ∧ ∃ id p,
    e.store.toPrimitive? (.object id) .number = .ok p ∧
      e.store.binary .lessEq (.object id) (.object id) = .ok (.boolean true) ∧
        e.store.binary .lessEq p p = .ok (.boolean false) := by
  obtain ⟨e, id, o, he, ho, hkind, -, -⟩ := (Evaluator.HostedFairly.realm {} none 0 1).exists_wrapper rfl
    (show Wrapping.object .undefined [.number Double.nan] = Wrapping.wrap Intrinsic.number (.number Double.nan)
      from rfl)
  have hop : BinaryOp.lessEq.accepted? = some (· != .gt) := rfl
  exact ⟨e, he, id, _, toPrimitive?_of_wrapper ho hkind .number, binary_self hop rfl,
    binary_of_isNaN hop rfl rfl rfl (.inl rfl)⟩

end Heap

end Stepwise
