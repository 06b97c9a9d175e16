/-
What an operation on one object does to its properties.

A property is found again where it was stored, and the others are found as before.  An
object is in bounds if its indices are below the number that no index reaches, and below
its length if it is an array.  The length of an array in bounds is the least one that the
indices stored so far allow, and so storing a property under an index that is there
already asks for no case of its own: `put` and `define` leave the kind that `kindWith`
tells, whether the key is new or not.
-/
import Mathlib.Data.List.Basic
import Mathlib.Data.List.Induction
import Stepwise.Store.Write

namespace Stepwise

/-! ### Digits -/

namespace Decimal

theorem ofDigits_eq_ofDigitChars (text : List Char) : ofDigits text = Nat.ofDigitChars 10 text 0 :=
  ofDigits_eq text

/-- The digits of a number in front of a last one. -/
theorem ofDigits_concat (text : List Char) (c : Char) :
    ofDigits (text ++ [c]) = 10 * ofDigits text + (c.toNat - '0'.toNat) := by
  rw [ofDigits_eq, ofDigits_eq, addDigits_append]
  rfl

theorem toNat_of_isDigit {c : Char} (hc : c.isDigit = true) : 48 ≤ c.toNat ∧ c.toNat ≤ 57 := by
  simpa [Char.isDigit, Char.le_def, UInt32.le_iff_toNat_le] using hc

private theorem toDigits_digit {c : Char} (hc : c.isDigit = true) :
    c.toNat - '0'.toNat < 10 ∧ Nat.toDigits 10 (c.toNat - '0'.toNat) = [c] := by
  have hrange := toNat_of_isDigit hc
  have h0 : '0'.toNat = 48 := rfl
  have hlt : c.toNat - '0'.toNat < 10 := by omega
  refine ⟨hlt, ?_⟩
  have hback : (Nat.digitChar (c.toNat - '0'.toNat)).toNat = c.toNat := by
    rw [Nat.toNat_digitChar_of_lt_ten hlt]
    omega
  rw [Nat.toDigits_of_lt_base hlt, Char.toNat_inj.mp hback]

/-- A number other than zero has no zero in front. -/
theorem head?_toDigits {n : Nat} (hn : 0 < n) : (Nat.toDigits 10 n).head? ≠ some '0' := by
  induction n using Nat.strongRecOn with
  | _ n ih =>
      by_cases hlt : n < 10
      · rw [Nat.toDigits_of_lt_base hlt]
        intro h
        have hzero : (Nat.digitChar n).toNat = '0'.toNat := by rw [Option.some.inj h]
        rw [Nat.toNat_digitChar_of_lt_ten hlt, show '0'.toNat = 48 from rfl] at hzero
        omega
      · rw [Nat.toDigits_of_base_le (by decide) (Nat.le_of_not_lt hlt),
          List.head?_append_of_ne_nil _ Nat.toDigits_ne_nil]
        exact ih (n / 10) (by omega) (by omega)

/-- A number is written with the digits that it was read from, if they have no zero in front. -/
theorem toDigits_ofDigits {text : List Char} (hne : text ≠ []) (hdigits : ∀ c ∈ text, c.isDigit = true)
    (hlead : text.head? ≠ some '0' ∨ text.length = 1) :
    Nat.toDigits 10 (ofDigits text) = text := by
  induction text using List.reverseRecOn with
  | nil => exact absurd rfl hne
  | append_singleton text c ih =>
      obtain ⟨hlt, hdigit⟩ := toDigits_digit (hdigits c (by simp))
      rw [ofDigits_concat]
      by_cases hempty : text = []
      · subst hempty
        simpa [ofDigits_eq, addDigits] using hdigit
      · have hhead : text.head? ≠ some '0' := by
          have hlong : (text ++ [c]).length ≠ 1 := by
            have := List.length_pos_of_ne_nil hempty
            simp
            omega
          simpa [List.head?_append_of_ne_nil _ hempty] using hlead.resolve_right hlong
        have hfront := ih hempty (fun d hd => hdigits d (by simp [hd])) (.inl hhead)
        have hpos : 0 < ofDigits text := by
          rcases Nat.eq_zero_or_pos (ofDigits text) with h0 | hpos
          · rw [h0] at hfront
            rw [← hfront] at hhead
            exact absurd rfl hhead
          · exact hpos
        rw [← Nat.toDigits_append_toDigits (by decide) hpos hlt, hfront, hdigit]

theorem repr_injective : Function.Injective Nat.repr := by
  intro i j h
  have hdigits : Nat.toDigits 10 i = Nat.toDigits 10 j := by
    rw [← Nat.toList_repr, ← Nat.toList_repr, h]
  calc
    i = Nat.ofDigitChars 10 (Nat.toDigits 10 i) 0 := Nat.ofDigitChars_ten_toDigits.symm
    _ = Nat.ofDigitChars 10 (Nat.toDigits 10 j) 0 := by rw [hdigits]
    _ = j := Nat.ofDigitChars_ten_toDigits

end Decimal

/-! ### Keys

A key that a value or a text is read as is never a number that is no index.  It writes the
text that it was read from, so different texts are different keys.
-/

/-- A name, or an index below the bound. -/
def Key.IsProper : Key → Prop
  | .index i => i < indexBound
  | .name _ => True

/-- The key is what the text that it writes is read as; so different such keys write different
texts. -/
def Key.IsCanonical (key : Key) : Prop := .ofText key.toText = key

namespace Key

/-- The text of an index is how the number is written. -/
theorem readIndex?_eq_some_iff {text : List Char} {i : Nat} :
    readIndex? text = some i ↔ i < indexBound ∧ text = Nat.toDigits 10 i := by
  unfold readIndex?
  constructor
  · intro h
    split at h
    · rename_i hcanonical
      simp only [Bool.and_eq_true, Bool.or_eq_true, Bool.not_eq_true', List.isEmpty_eq_false_iff,
        decide_eq_true_eq, List.all_eq_true, bne_iff_ne, beq_iff_eq] at hcanonical
      obtain ⟨⟨⟨hne, -⟩, hdigits⟩, hlead⟩ := hcanonical
      obtain ⟨hi, hbound⟩ := Option.filter_eq_some_iff.mp h
      cases hi
      exact ⟨of_decide_eq_true hbound, (Decimal.toDigits_ofDigits hne hdigits hlead).symm⟩
    · cases h
  · rintro ⟨hbound, rfl⟩
    have hread : Decimal.ofDigits (Nat.toDigits 10 i) = i :=
      (Decimal.ofDigits_eq_ofDigitChars _).trans (Nat.ofDigitChars_toDigits (by decide) (by decide))
    have hlength : (Nat.toDigits 10 i).length ≤ 10 := by
      rw [Nat.length_toDigits_le_iff (by decide) (by decide)]
      exact Nat.lt_trans hbound (by decide)
    have hlead : (Nat.toDigits 10 i).head? ≠ some '0' ∨ (Nat.toDigits 10 i).length = 1 := by
      by_cases hi : 0 < i
      · exact .inl (Decimal.head?_toDigits hi)
      · exact .inr (by rw [Nat.eq_zero_of_not_pos hi]; rfl)
    have hdigits : ∀ c ∈ Nat.toDigits 10 i, c.isDigit = true :=
      fun c hc => Nat.isDigit_of_mem_toDigits (by decide) (by decide) hc
    rw [if_pos (by simp [hlength, hlead, Nat.toDigits_ne_nil]; exact hdigits), hread]
    simp [hbound]

theorem ofText_isProper (s : String) : (ofText s).IsProper := by
  unfold ofText
  split
  · exact (readIndex?_eq_some_iff.mp ‹_›).1
  · trivial

theorem ofNat_isProper (i : Nat) : (ofNat i).IsProper := by
  unfold ofNat
  split
  · assumption
  · trivial

/-- An index is read again from what it writes, and every text writes the key that it is. -/
theorem toText_ofText (s : String) : (ofText s).toText = s := by
  unfold ofText
  split
  · rename_i i hi
    have htext := (readIndex?_eq_some_iff.mp hi).2
    exact String.toList_inj.mp (Nat.toList_repr.trans htext.symm)
  · rfl

theorem ofText_injective : Function.Injective ofText :=
  Function.LeftInverse.injective toText_ofText

theorem ofText_repr (i : Nat) : ofText (Nat.repr i) = ofNat i := by
  unfold ofText ofNat
  by_cases hi : i < indexBound
  · have hread : readIndex? (Nat.repr i).toList = some i := readIndex?_eq_some_iff.mpr ⟨hi, Nat.toList_repr⟩
    rw [if_pos hi, hread]
  · have hread : readIndex? (Nat.repr i).toList = none := by
      rw [Option.eq_none_iff_forall_ne_some]
      intro j hj
      obtain ⟨hbound, htext⟩ := readIndex?_eq_some_iff.mp hj
      have hsame : i = j := Decimal.repr_injective (String.toList_inj.mp (htext.trans Nat.toList_repr.symm))
      exact hi (hsame ▸ hbound)
    rw [if_neg hi, hread]
    rfl

theorem ofNat_injective : Function.Injective ofNat := by
  intro i j h
  rw [← ofText_repr, ← ofText_repr] at h
  exact Decimal.repr_injective (ofText_injective h)

theorem ofText_isCanonical (s : String) : (ofText s).IsCanonical := by
  rw [IsCanonical, toText_ofText]

theorem ofNat_isCanonical (i : Nat) : (ofNat i).IsCanonical := by
  rw [← ofText_repr]
  exact ofText_isCanonical _

theorem length_isCanonical : length.IsCanonical := ofText_isCanonical "length"

theorem IsCanonical.eq_of_toText_eq {key key' : Key} (h : key.IsCanonical) (h' : key'.IsCanonical)
    (htext : key.toText = key'.toText) : key = key' :=
  calc
    key = ofText key.toText := h.symm
    _ = ofText key'.toText := by rw [htext]
    _ = key' := h'

/-- A number that is an index is that index. -/
theorem eq_of_ofNat_eq_index {i j : Nat} (h : ofNat i = .index j) : j = i := by
  unfold ofNat at h
  split at h
  · cases h
    rfl
  · cases h

/-- A number is not the name of the length. -/
theorem ofNat_ne_length (i : Nat) : ofNat i ≠ length := by
  intro h
  unfold ofNat at h
  split at h
  · cases h
  · have hname : Nat.repr i = "length" := Key.name.inj h
    have hdigit : 'l' ∈ Nat.toDigits 10 i := by
      rw [← Nat.toList_repr, hname]
      decide
    exact absurd (Nat.isDigit_of_mem_toDigits (by decide) (by decide) hdigit) (by decide)

end Key

theorem Heap.toKey_isCanonical (s : Heap) (v : Value) : (s.toKey v).IsCanonical := by
  unfold toKey
  split
  · split
    · rename_i i hi
      have hbound : i < indexBound := of_decide_eq_true (Option.filter_eq_some_iff.mp hi).2
      have hindex : Key.ofNat i = .index i := if_pos hbound
      rw [← hindex]
      exact Key.ofNat_isCanonical i
    · exact Key.ofText_isCanonical _
  · exact Key.ofText_isCanonical _

/-! ### Properties -/

namespace Properties

variable (ps : Properties)

private theorem lookup_cons (s t : String) (p : Property) (rest : List (String × Property)) :
    ((s, p) :: rest).lookup t = if s = t then some p else rest.lookup t := by
  rw [List.lookup_cons]
  by_cases h : t = s
  · simp [h]
  · rw [beq_false_of_ne h, if_neg (Ne.symm h)]

private theorem lookup_insertNamed (s t : String) (p : Property) (named : List (String × Property)) :
    (insertNamed s p named).lookup t = if s = t then some p else named.lookup t := by
  induction named with
  | nil => exact lookup_cons s t p []
  | cons first rest ih =>
      obtain ⟨u, q⟩ := first
      unfold insertNamed
      by_cases hsu : s = u
      · subst hsu
        rw [if_pos BEq.rfl, lookup_cons, lookup_cons]
        split <;> rfl
      · rw [if_neg (by simpa using hsu), lookup_cons, lookup_cons, ih]
        by_cases hst : s = t
        · rw [if_pos hst, if_pos hst, if_neg fun hut => hsu (hst.trans hut.symm)]
        · rw [if_neg hst, if_neg hst]

private theorem lookup_filter_ne (s t : String) (named : List (String × Property)) :
    (named.filter fun q => q.1 != s).lookup t = if s = t then none else named.lookup t := by
  induction named with
  | nil => exact (ite_self _).symm
  | cons first rest ih =>
      obtain ⟨u, q⟩ := first
      by_cases hus : u = s
      · subst hus
        rw [List.filter_cons_of_neg (by simp), ih, lookup_cons]
        split <;> rfl
      · rw [List.filter_cons_of_pos (by simpa using hus), lookup_cons, lookup_cons, ih]
        by_cases hst : s = t
        · rw [if_pos hst, if_pos hst, if_neg fun hut => hus (hut.trans hst.symm)]
        · rw [if_neg hst, if_neg hst]

theorem get?_empty (key : Key) : empty.get? key = none := by
  cases key with
  | index i => exact Std.TreeMap.getElem?_emptyc
  | name s => rfl

theorem get?_insert (key : Key) (p : Property) (key' : Key) :
    (ps.insert key p).get? key' = if key = key' then some p else ps.get? key' := by
  cases key with
  | index i =>
      cases key' with
      | index j =>
          show (ps.elements.insert i p)[j]? = _
          rw [Std.TreeMap.getElem?_insert]
          simp only [Nat.compare_eq_eq, Key.index.injEq]
          rfl
      | name t =>
          rw [if_neg nofun]
          rfl
  | name s =>
      cases key' with
      | index j =>
          rw [if_neg nofun]
          rfl
      | name t =>
          simp only [Key.name.injEq]
          exact lookup_insertNamed s t p ps.named

theorem get?_erase (key key' : Key) :
    (ps.erase key).get? key' = if key = key' then none else ps.get? key' := by
  cases key with
  | index i =>
      cases key' with
      | index j =>
          show (ps.elements.erase i)[j]? = _
          rw [Std.TreeMap.getElem?_erase]
          simp only [Nat.compare_eq_eq, Key.index.injEq]
          rfl
      | name t =>
          rw [if_neg nofun]
          rfl
  | name s =>
      cases key' with
      | index j =>
          rw [if_neg nofun]
          rfl
      | name t =>
          simp only [Key.name.injEq]
          exact lookup_filter_ne s t ps.named

theorem get?_truncate_index (n i : Nat) :
    (ps.truncate n).get? (.index i) = if i < n then ps.get? (.index i) else none := by
  show (ps.elements.filter fun i _ => decide (i < n))[i]? = if i < n then ps.elements[i]? else none
  rw [Std.TreeMap.getElem?_filter']
  by_cases hi : i < n
  · cases ps.elements[i]? <;> simp [hi]
  · cases ps.elements[i]? <;> simp [hi]

theorem contains_insert (key : Key) (p : Property) (key' : Key) :
    (ps.insert key p).contains key' = (key == key' || ps.contains key') := by
  rw [contains, contains, get?_insert]
  by_cases h : key = key'
  · simp [h]
  · simp [h]

end Properties

/-! ### New arrays -/

private theorem Store.get?_arrayOf_concat (values : List Value) (v : Value) (key : Key) :
    (arrayOf (values ++ [v])).properties.get? key =
      if .ofNat values.length = key then some (.plain v) else (arrayOf values).properties.get? key := by
  rw [← Properties.get?_insert]
  simp only [arrayOf, List.zipIdx_append, List.foldl_append, List.zipIdx_cons, List.zipIdx_nil,
    List.foldl_cons, List.foldl_nil, Nat.zero_add]

/-- An array as a literal makes it has the values under their numbers, and nothing else. -/
theorem Store.get?_arrayOf {values : List Value} {key : Key} {p : Property} :
    (arrayOf values).properties.get? key = some p ↔
      ∃ i v, values[i]? = some v ∧ key = .ofNat i ∧ p = .plain v := by
  induction values using List.reverseRecOn with
  | nil =>
      rw [show (arrayOf []).properties.get? key = none from Properties.get?_empty key]
      simp
  | append_singleton values v ih =>
      rw [get?_arrayOf_concat]
      by_cases hkey : Key.ofNat values.length = key
      · subst hkey
        rw [if_pos rfl]
        constructor
        · intro h
          exact ⟨values.length, v, by simp, rfl, (Option.some.inj h).symm⟩
        · rintro ⟨i, v', hi, hkey, rfl⟩
          obtain rfl := Key.ofNat_injective hkey
          rw [List.getElem?_concat_length] at hi
          rw [Option.some.inj hi]
      · rw [if_neg hkey, ih]
        refine exists_congr fun i => exists_congr fun v' => and_congr_left fun ⟨heq, _⟩ => ?_
        have hi : i ≠ values.length := fun hi => hkey (by rw [heq, hi])
        rcases Nat.lt_or_gt_of_ne hi with hlt | hgt
        · rw [List.getElem?_append_left hlt]
        · rw [List.getElem?_eq_none (Nat.le_of_lt hgt), List.getElem?_eq_none (by simp; omega)]

/-! ### Objects with canonical keys -/

/-- All keys of the object are canonical. -/
def Object.HasCanonicalKeys (o : Object) : Prop :=
  ∀ key, o.properties.contains key = true → key.IsCanonical

namespace Object.HasCanonicalKeys

variable {o : Object} {key : Key}

theorem new (parent : Option ObjectId) (kind : Kind) : (Object.new parent kind).HasCanonicalKeys := by
  intro key hkey
  have hnone : Properties.empty.get? key = none := Properties.get?_empty key
  rw [Object.new, Properties.contains, hnone] at hkey
  cases hkey

/-- A property is stored. -/
theorem insert (h : o.HasCanonicalKeys) (hkey : key.IsCanonical) (p : Property) (kind : Kind) :
    HasCanonicalKeys { o with properties := o.properties.insert key p, kind } := by
  intro key' hkey'
  rw [Properties.contains_insert] at hkey'
  rcases Bool.or_eq_true_iff.mp hkey' with heq | hold
  · rw [← beq_iff_eq.mp heq]
    exact hkey
  · exact h key' hold

theorem put (h : o.HasCanonicalKeys) (hkey : key.IsCanonical) (v : Value) :
    (o.put key v).HasCanonicalKeys := by
  unfold Object.put
  split
  · split
    · exact h
    · exact h.insert hkey _ _
  · exact h.insert hkey _ _

theorem define (h : o.HasCanonicalKeys) (hkey : key.IsCanonical) (p : Property) :
    (o.define key p).HasCanonicalKeys := by
  unfold Object.define
  split
  · dsimp only
    split
    · exact h
    · exact h.insert hkey _ _
  · exact h.insert hkey _ _

theorem erase (h : o.HasCanonicalKeys) (key : Key) : (o.erase key).HasCanonicalKeys := by
  intro key' hkey'
  rw [Object.erase, Properties.contains, Properties.get?_erase] at hkey'
  split at hkey'
  · cases hkey'
  · exact h key' hkey'

theorem resize (h : o.HasCanonicalKeys) (length : Nat) : (o.resize length).HasCanonicalKeys := by
  rcases o with ⟨parent, properties, kind⟩
  cases kind with
  | array n =>
      intro key hkey
      replace hkey : (if length < n then properties.truncate length else properties).contains key = true :=
        hkey
      split at hkey
      · refine h key ?_
        cases key with
        | index i =>
            rw [Properties.contains, Properties.get?_truncate_index] at hkey
            split at hkey
            · exact hkey
            · cases hkey
        | name s => exact hkey
      · exact h key hkey
  | _ => exact h

/-- The elements of a new array are stored under numbers. -/
theorem arrayOf (values : List Value) : (Store.arrayOf values).HasCanonicalKeys := by
  intro key hkey
  obtain ⟨p, hp⟩ := Option.isSome_iff_exists.mp hkey
  obtain ⟨i, v, -, rfl, -⟩ := Store.get?_arrayOf.mp hp
  exact Key.ofNat_isCanonical i

end Object.HasCanonicalKeys

/-! ### Objects in bounds -/

namespace Object

/-- Its indices are proper, and below its length if it is an array. -/
def InBounds (o : Object) : Prop :=
  ∀ i, o.properties.contains (.index i) = true → i < indexBound ∧ ∀ n, o.kind = .array n → i < n

namespace InBounds

variable {o : Object}

theorem new (parent : Option ObjectId) (kind : Kind) : (Object.new parent kind).InBounds := by
  intro i hi
  have hnone : Properties.empty.get? (.index i) = none := Properties.get?_empty _
  rw [Object.new, Properties.contains, hnone] at hi
  cases hi

/-- A property put in the place of another one. -/
theorem replace (h : o.InBounds) {key : Key} {p : Property}
    (hkey : o.properties.contains key = true) :
    InBounds { o with properties := o.properties.insert key p } := by
  intro i hi
  rw [Properties.contains_insert] at hi
  rcases Bool.or_eq_true_iff.mp hi with heq | hi
  · obtain rfl := beq_iff_eq.mp heq
    exact h i hkey
  · exact h i hi

/-- An array grows to hold a new index. -/
theorem add (h : o.InBounds) {key : Key} (hkey : key.IsProper) (p : Property) :
    (o.add key p).InBounds := by
  rcases o with ⟨parent, properties, kind⟩
  intro i hi
  have hgrown : ∀ n, Kind.array n = Object.kindWith ⟨parent, properties, kind⟩ key →
      (key = .index i → i < n) ∧ ∀ m, kind = .array m → m ≤ n := by
    intro n hn
    cases kind with
    | array m =>
        cases key with
        | index j =>
            obtain rfl : n = max m (j + 1) := Kind.array.inj hn
            refine ⟨fun hji => ?_, fun m' hm' => ?_⟩
            · cases hji
              exact Nat.lt_of_lt_of_le (Nat.lt_succ_self i) (Nat.le_max_right _ _)
            · cases hm'
              exact Nat.le_max_left _ _
        | name s =>
            cases hn
            exact ⟨nofun, fun m' hm' => by cases hm'; exact Nat.le_refl _⟩
    | _ => cases key <;> cases hn
  rw [Object.add, Properties.contains_insert] at hi
  rcases Bool.or_eq_true_iff.mp hi with heq | hi
  · have heq := beq_iff_eq.mp heq
    exact ⟨by rw [heq] at hkey; exact hkey, fun n hn => (hgrown n hn.symm).1 heq⟩
  · obtain ⟨hbound, hbelow⟩ := h i hi
    refine ⟨hbound, fun n hn => ?_⟩
    cases kind with
    | array m => exact Nat.lt_of_lt_of_le (hbelow m rfl) ((hgrown n hn.symm).2 m rfl)
    | _ => cases key <;> cases hn

theorem put (h : o.InBounds) {key : Key} (hkey : key.IsProper) (v : Value) :
    (o.put key v).InBounds := by
  unfold Object.put
  split
  · rename_i p hp
    split
    · exact h
    · exact h.replace (by rw [Properties.contains, hp]; rfl)
  · exact h.add hkey _

theorem define (h : o.InBounds) {key : Key} (hkey : key.IsProper) (p : Property) :
    (o.define key p).InBounds := by
  unfold Object.define
  split
  · rename_i old hold
    dsimp only
    split
    · exact h
    · exact h.replace (by rw [Properties.contains, hold]; rfl)
  · exact h.add hkey _

theorem erase (h : o.InBounds) (key : Key) : (o.erase key).InBounds := by
  intro i hi
  refine h i ?_
  have hget : ((o.properties.erase key).get? (.index i)).isSome = true := hi
  rw [Properties.get?_erase] at hget
  split at hget
  · cases hget
  · exact hget

theorem resize (h : o.InBounds) (length : Nat) : (o.resize length).InBounds := by
  rcases o with ⟨parent, properties, kind⟩
  cases kind with
  | array n =>
      intro i hi
      have hkept : properties.contains (.index i) = true ∧ i < length := by
        simp only [Object.resize] at hi
        split at hi
        · rw [Properties.contains, Properties.get?_truncate_index] at hi
          split at hi
          · exact ⟨hi, ‹_›⟩
          · cases hi
        · exact ⟨hi, Nat.lt_of_lt_of_le ((h i hi).2 n rfl) (Nat.le_of_not_lt ‹_›)⟩
      refine ⟨(h i hkept.1).1, fun m hm => ?_⟩
      cases hm
      exact hkept.2
  | _ => exact h

theorem withKind (h : o.InBounds) {kind : Kind} (hkind : ∀ n, kind ≠ .array n) :
    InBounds { o with kind } :=
  fun i hi => ⟨(h i hi).1, fun n hn => absurd hn (hkind n)⟩

/-- The elements of a new array are below its length, those behind the last index as names. -/
theorem arrayOf (values : List Value) : (Store.arrayOf values).InBounds := by
  intro i hi
  obtain ⟨p, hp⟩ := Option.isSome_iff_exists.mp hi
  obtain ⟨j, v, hj, hkey, -⟩ := Store.get?_arrayOf.mp hp
  have hproper := Key.ofNat_isProper j
  rw [← hkey] at hproper
  obtain rfl := Key.eq_of_ofNat_eq_index hkey.symm
  refine ⟨hproper, fun n hn => ?_⟩
  cases hn
  exact (List.getElem?_eq_some_iff.mp hj).1

end InBounds

end Object

namespace Heap

/-- What is stored at a place under a key. -/
def own? (s : Heap) (id : ObjectId) (key : Key) : Option Property :=
  (s.object? id).bind fun o => o.properties.get? key

end Heap

/-! ### What writing and deleting come to -/

namespace Heap

variable {s : Heap} {target v : Value} {key : Key}

/-- A write is ignored, sets a length because of its key, or stores a property. -/
theorem planWrite_cases {write : Write} (h : s.planWrite target key v = .ok write) :
    write = .ignored ∨
      (∃ id length, target = .object id ∧ key = .length ∧ write = .resize id length) ∨
      ∃ id, target = .object id ∧ write = .put id key v := by
  unfold planWrite at h
  split at h
  · cases h
  · cases h
  · split at h
    · cases h
      exact .inl rfl
    · split at h
      · rename_i hlength
        have hkey : key = .length := beq_iff_eq.mp (Bool.and_eq_true_iff.mp hlength).1
        split at h
        · cases h
          exact .inr (.inl ⟨_, _, rfl, hkey, rfl⟩)
        · cases h
      · cases h
        exact .inr (.inr ⟨_, rfl, rfl⟩)
  · cases h
    exact .inl rfl

/-- What can be deleted is not read-only. -/
theorem not_readonly_of_canDelete {id : ObjectId} {o : Object} {p : Property}
    (h : s.canDelete (.object id) key = true) (ho : s.object? id = some o)
    (hp : o.properties.get? key = some p) : p.readonly = false := by
  have hobject : s.objectOf? (.object id) = some o := ho
  unfold canDelete at h
  rw [hobject] at h
  dsimp only at h
  split at h
  · cases h
  · rw [hp] at h
    exact Bool.not_eq_true' _ |>.mp h

end Heap

end Stepwise
