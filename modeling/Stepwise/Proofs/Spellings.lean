/-
A key has one spelling.

A key is made from a text, from an index or from a value, and each way decides for itself whether
it is an index or a name.  They decide alike: an index is what a text writes in decimal digits
with no sign and no zero in front, and that is how the index, and every number that is one, is
written as a text.  So every way of making a key goes through the text, and a key can be told by it.

An object keeps its properties by keys.  If all of them are made so, no two of them are under one
name that a script could use.
-/
import Mathlib.Data.List.Nodup
import Stepwise.Proofs.Enumerations
import Stepwise.Proofs.Names
import Stepwise.Proofs.Numerals

namespace Stepwise

namespace Key

/-- A text is the key of an index if it is how the index is written. -/
theorem ofText_eq_index_iff {t : String} {i : Nat} : ofText t = .index i ↔ i < indexBound ∧ t = Nat.repr i := by
  constructor
  · intro h
    refine ⟨?_, ?_⟩
    · have hproper := ofText_isProper t
      rw [h] at hproper
      exact hproper
    · rw [← toText_ofText t, h]
      rfl
  · rintro ⟨hi, rfl⟩
    rw [ofText_repr, ofNat, if_pos hi]

end Key

namespace Heap

/-- **The key of a value is the key of its text.** -/
theorem toKey_eq_ofText (s : Heap) (v : Value) : s.toKey v = .ofText (s.toText v) := by
  unfold toKey
  split
  · rename_i x
    split
    · rename_i i hi
      obtain ⟨hindex, hbound⟩ := Option.filter_eq_some_iff.mp hi
      have htext : s.toText (.number x) = Nat.repr i := Layout.ofDouble_of_toIndex? hindex
      rw [htext, Key.ofText_eq_index_iff.mpr ⟨of_decide_eq_true hbound, rfl⟩]
    · rfl
  · rfl

/-- No two keys of an object write the same text, if all of them are canonical. -/
theorem HasCanonicalKeys.texts_nodup {s : Heap} (h : s.HasCanonicalKeys) {id : ObjectId} {o : Object}
    (ho : s.object? id = some o) : (o.properties.keys.map Key.toText).Nodup := by
  have hcanonical (key : Key) (hkey : key ∈ o.properties.keys) : key.IsCanonical :=
    h id o ho key (Properties.mem_keys.mp hkey)
  refine List.Nodup.map_on (fun key hkey key' hkey' htext => ?_) (Properties.keys_nodup _)
  exact (hcanonical key hkey).eq_of_toText_eq (hcanonical key' hkey') htext

end Heap

/-- **Keys are spelled one way.**  A key made from a text writes that text, so that different texts are
different keys; it is an index exactly for the decimal digits of one, with no sign and no zero in
front; what a number or a value is as a key, its text is too.  Hence no object of an evaluator has
two properties under one text, whatever a host does that makes the keys it passes from texts. -/
theorem Key.spelled_one_way :
    (∀ t : String, (ofText t).toText = t) ∧
    (∀ t u : String, ofText t = ofText u ↔ t = u) ∧
    (∀ (t : String) (i : Nat), ofText t = .index i ↔ i < 2 ^ 32 - 1 ∧ t = Nat.repr i) ∧
    (∀ i : Nat, ofNat i = ofText (Nat.repr i)) ∧
    (∀ (s : Heap) (v : Value), s.toKey v = ofText (s.toText v)) ∧
    ∀ config reader clock seed, ∀ events : List Evaluator.Event, (∀ event ∈ events, event.KeyedBy IsCanonical) →
      ∀ s ∈ (⟨Store.create config reader clock seed, .idle⟩ : Evaluator).heaps events,
        ∀ id o, s.object? id = some o → (o.properties.keys.map toText).Nodup := by
  refine ⟨toText_ofText, fun t u => ofText_injective.eq_iff, fun t i => ofText_eq_index_iff,
    fun i => (ofText_repr i).symm, Heap.toKey_eq_ofText, ?_⟩
  intro config reader clock seed events hevents s hs id o ho
  exact (Evaluator.heaps_haveCanonicalKeys config reader clock seed hevents s hs).texts_nodup ho

end Stepwise
