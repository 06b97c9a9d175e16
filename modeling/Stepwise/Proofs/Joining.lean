/-
Joining arrays.

What an array is joined to is told by its texts: there is one for each index below its length,
and the separator stands between them.  An array among the elements is joined in turn, with
commas, unless it is being joined already further out; then it is nothing.  So arrays may
contain themselves and each other, and one that comes twice without containing itself is
written twice.

The walk writes one run of separators in front of every element that it looks at, as many as
there are places since the one before, and the rest at the end.  What it does not look at is
a place without a text, and then these are all the separators between the texts
(`preceded_eq`).

The length of the text is watched while it grows, but the separators at the end are only
counted beforehand, without the elements.  So a text may become too long by those.
-/
import Stepwise.Proofs.Elements

namespace Stepwise

namespace Heap

/-! ### Separators -/

theorem separators_eq (separator : String) (count : Nat) :
    separators separator count = String.join (List.replicate count separator) := by
  unfold separators
  split
  · rename_i hempty
    rw [String.isEmpty_iff.mp hempty]
    induction count with
    | zero => rfl
    | succ count ih => rw [List.replicate_succ, String.join_cons, ← ih, String.empty_append]
  · rfl

theorem separators_add (separator : String) (k l : Nat) :
    separators separator (k + l) = separators separator k ++ separators separator l := by
  rw [separators_eq, separators_eq, separators_eq, ← List.replicate_append_replicate, String.join_append]

theorem separators_one (separator : String) : separators separator 1 = separator := by
  rw [separators_eq, List.replicate_one, String.join_cons, String.join_nil, String.append_empty]

theorem separators_zero (separator : String) : separators separator 0 = "" := by
  rw [separators_eq, List.replicate_zero, String.join_nil]

theorem utf8ByteSize_separators (separator : String) (count : Nat) :
    (separators separator count).utf8ByteSize = count * separator.utf8ByteSize := by
  induction count with
  | zero => rw [separators_zero, Nat.zero_mul]; rfl
  | succ count ih =>
      rw [separators_add, separators_one, String.utf8ByteSize_append, ih, Nat.succ_mul]

/-- Texts, each with the separator in front of it. -/
def preceded (separator : String) (texts : List String) : String :=
  String.join (texts.map (separator ++ ·))

theorem preceded_cons (separator text : String) (texts : List String) :
    preceded separator (text :: texts) = separator ++ text ++ preceded separator texts := by
  rw [preceded, List.map_cons, String.join_cons, preceded]

theorem preceded_append (separator : String) (texts texts' : List String) :
    preceded separator (texts ++ texts') = preceded separator texts ++ preceded separator texts' := by
  rw [preceded, List.map_append, String.join_append, preceded, preceded]

theorem intercalate_cons (separator text : String) (texts : List String) :
    separator.intercalate (text :: texts) = text ++ preceded separator texts := by
  induction texts generalizing text with
  | nil => rw [String.intercalate_singleton, preceded, List.map_nil, String.join_nil, String.append_empty]
  | cons next rest ih =>
      rw [String.intercalate_cons_cons, ih next, preceded_cons]
      simp only [String.append_assoc]

/-- Where there are no texts stand separators alone. -/
theorem preceded_blank (separator : String) {texts : List String} (h : ∀ text ∈ texts, text = "") :
    preceded separator texts = separators separator texts.length := by
  induction texts with
  | nil => rw [List.length_nil, separators_zero]; rfl
  | cons text rest ih =>
      rw [preceded_cons, h text List.mem_cons_self, ih fun t ht => h t (List.mem_cons_of_mem _ ht),
        String.append_empty, List.length_cons, Nat.add_comm, separators_add, separators_one]

theorem le_utf8ByteSize_preceded (separator : String) (texts : List String) :
    texts.length * separator.utf8ByteSize ≤ (preceded separator texts).utf8ByteSize := by
  induction texts with
  | nil => rw [List.length_nil, Nat.zero_mul]; exact Nat.zero_le _
  | cons text rest ih =>
      rw [preceded_cons, String.utf8ByteSize_append, String.utf8ByteSize_append, List.length_cons,
        Nat.succ_mul]
      omega

/-! ### The walk -/

/-- What the walk writes at the indices: the separators since the one before, and the text. -/
def placed (t : Nat → String) (separator : String) : (indices : List Nat) → (written : Nat) → String
  | [], _ => ""
  | i :: rest, written =>
    separators separator (i - written) ++ t i ++ placed t separator rest i

/-- The index that a walk comes to last. -/
def lastOf (indices : List Nat) (start : Nat) : Nat := indices.getLast?.getD start

theorem lastOf_cons (i : Nat) (rest : List Nat) (start : Nat) : lastOf (i :: rest) start = lastOf rest i := by
  rw [lastOf, List.getLast?_cons, Option.getD_some, lastOf]

/-- What is walked over upward, and the separators at the end, are the texts behind the start, each
with the separator in front of it. -/
theorem preceded_eq {t : Nat → String} {separator : String} {indices : List Nat} {n w : Nat}
    (hw : w < n) (hascending : indices.Pairwise (· < ·)) (hbetween : ∀ i ∈ indices, w < i ∧ i < n)
    (hblank : ∀ i, w < i → i < n → i ∉ indices → t i = "") :
    preceded separator ((List.range' (w + 1) (n - 1 - w)).map t) =
      placed t separator indices w ++ separators separator (n - 1 - lastOf indices w) := by
  induction indices generalizing w with
  | nil =>
      have hall : ∀ text ∈ (List.range' (w + 1) (n - 1 - w)).map t, text = "" := by
        intro text htext
        obtain ⟨i, hi, rfl⟩ := List.mem_map.mp htext
        obtain ⟨hlow, hhigh⟩ := List.mem_range'_1.mp hi
        exact hblank i (by omega) (by omega) List.not_mem_nil
      rw [preceded_blank separator hall, List.length_map, List.length_range', placed, String.empty_append]
      rfl
  | cons i rest ih =>
      obtain ⟨hwi, hin⟩ := hbetween i List.mem_cons_self
      obtain ⟨hfirst, hrest⟩ := List.pairwise_cons.mp hascending
      have hsplit : List.range' (w + 1) (n - 1 - w) =
          List.range' (w + 1) (i - 1 - w) ++ i :: List.range' (i + 1) (n - 1 - i) := by
        have hhere : i :: List.range' (i + 1) (n - 1 - i) =
            List.range' (w + 1 + (i - 1 - w)) (n - 1 - i + 1) := by
          rw [List.range'_succ, show w + 1 + (i - 1 - w) = i by omega]
        rw [hhere, List.range'_append_1]
        congr 1
        omega
      have hbefore : ∀ text ∈ (List.range' (w + 1) (i - 1 - w)).map t, text = "" := by
        intro text htext
        obtain ⟨j, hj, rfl⟩ := List.mem_map.mp htext
        obtain ⟨hlow, hhigh⟩ := List.mem_range'_1.mp hj
        refine hblank j (by omega) (by omega) fun hmem => ?_
        rcases List.mem_cons.mp hmem with rfl | hmem
        · omega
        · have := hfirst j hmem
          omega
      have hbehind := ih hin hrest (fun j hj => ⟨hfirst j hj, (hbetween j (List.mem_cons_of_mem i hj)).2⟩)
        fun j hij hjn hj => hblank j (by omega) hjn fun hmem => by
          rcases List.mem_cons.mp hmem with rfl | hmem
          · exact Nat.lt_irrefl _ hij
          · exact hj hmem
      have hgap : separators separator (i - w) = separators separator (i - 1 - w) ++ separator := by
        rw [show i - w = i - 1 - w + 1 by omega, separators_add, separators_one]
      rw [hsplit, List.map_append, List.map_cons, preceded_append, preceded_cons, hbehind,
        preceded_blank separator hbefore, List.length_map, List.length_range', lastOf_cons, placed, hgap]
      simp only [String.append_assoc]

/-- What is walked over from the start, and the separators at the end, are all the texts with
separators between them. -/
theorem intercalate_eq {t : Nat → String} (separator : String) {indices : List Nat} {n : Nat}
    (hascending : indices.Pairwise (· < ·)) (hbelow : ∀ i ∈ indices, i < n)
    (hblank : ∀ i, i < n → i ∉ indices → t i = "") :
    separator.intercalate ((List.range n).map t) =
      placed t separator indices 0 ++ separators separator (n - 1 - lastOf indices 0) := by
  rcases Nat.eq_zero_or_pos n with rfl | hn
  · cases indices with
    | nil => rw [List.range_zero, List.map_nil, String.intercalate_nil, placed, Nat.zero_sub, separators_zero,
        String.empty_append]
    | cons i rest => exact absurd (hbelow i List.mem_cons_self) (Nat.not_lt_zero i)
  · have hrange : List.range n = 0 :: List.range' (0 + 1) (n - 1 - 0) := by
      rw [List.range_eq_range', ← List.range'_succ]
      congr 1
      omega
    rw [hrange, List.map_cons, intercalate_cons]
    by_cases hzero : 0 ∈ indices
    · cases indices with
      | nil => cases hzero
      | cons i rest =>
          obtain ⟨hfirst, hrest⟩ := List.pairwise_cons.mp hascending
          have hi : i = 0 := by
            rcases List.mem_cons.mp hzero with h | h
            · exact h.symm
            · exact absurd (hfirst 0 h) (Nat.not_lt_zero i)
          subst hi
          rw [preceded_eq hn hrest (fun j hj => ⟨hfirst j hj, hbelow j (List.mem_cons_of_mem 0 hj)⟩)
            fun j hj hjn hnot => hblank j hjn fun hmem => by
              rcases List.mem_cons.mp hmem with rfl | hmem
              · exact Nat.lt_irrefl _ hj
              · exact hnot hmem]
          rw [lastOf_cons, placed, Nat.sub_zero, separators_zero, String.empty_append, String.append_assoc]
    · rw [hblank 0 hn hzero, String.empty_append]
      exact preceded_eq hn hascending (fun i hi => ⟨Nat.pos_of_ne_zero fun h => hzero (h ▸ hi), hbelow i hi⟩)
        fun i _ hin hnot => hblank i hin hnot

theorem le_utf8ByteSize_intercalate (separator : String) (texts : List String) :
    (texts.length - 1) * separator.utf8ByteSize ≤ (separator.intercalate texts).utf8ByteSize := by
  cases texts with
  | nil => rw [List.length_nil, Nat.zero_sub, Nat.zero_mul]; exact Nat.zero_le _
  | cons text rest =>
      have hrest := le_utf8ByteSize_preceded separator rest
      rw [intercalate_cons, String.utf8ByteSize_append, List.length_cons, Nat.add_sub_cancel]
      omega

/-- The walk goes on as long as the text is within the limit.  An element that fails because it is
too long would make the text too long as well. -/
theorem joinElements_eq {elementText : Nat → Except Failure String} {t : Nat → String} {indices : List Nat}
    (separator : String) (htext : ∀ i ∈ indices, elementText i = .ok (t i) ∨
      elementText i = .error .invalidStringLength ∧ maxTextBytes < (t i).utf8ByteSize)
    (written : Nat) {out : String} (hout : out.utf8ByteSize ≤ maxTextBytes) :
    joinElements elementText separator indices written out =
      if (out ++ placed t separator indices written).utf8ByteSize ≤ maxTextBytes then
        .ok (lastOf indices written, out ++ placed t separator indices written)
      else .error .invalidStringLength := by
  induction indices generalizing written out with
  | nil =>
      rw [placed, String.append_empty, if_pos hout]
      rfl
  | cons i rest ih =>
      have hrest := fun j hj => htext j (List.mem_cons_of_mem i hj)
      have hwhole : out ++ placed t separator (i :: rest) written =
          out ++ separators separator (i - written) ++ t i ++ placed t separator rest i := by
        rw [placed]
        simp only [String.append_assoc]
      rw [hwhole, lastOf_cons]
      generalize hgrown : out ++ separators separator (i - written) ++ t i = grown
      have htoo (h : maxTextBytes < grown.utf8ByteSize) :
          ¬(grown ++ placed t separator rest i).utf8ByteSize ≤ maxTextBytes := by
        rw [String.utf8ByteSize_append]
        omega
      rcases htext i List.mem_cons_self with hi | ⟨hi, hlong⟩
      · have hstep : joinElements elementText separator (i :: rest) written out =
            (withinLimit grown).bind fun out => joinElements elementText separator rest i out := by
          rw [← hgrown, joinElements, hi]
          rfl
        rw [hstep]
        rcases Nat.lt_or_ge maxTextBytes grown.utf8ByteSize with hover | hwithin
        · rw [if_neg (htoo hover), withinLimit, if_pos hover]
          rfl
        · rw [withinLimit, if_neg (Nat.not_lt.mpr hwithin)]
          exact ih hrest i hwithin
      · have hover : maxTextBytes < grown.utf8ByteSize := by
          rw [← hgrown, String.utf8ByteSize_append]
          omega
        rw [if_neg (htoo hover), joinElements, hi]
        rfl

variable {s : Heap} {id : ObjectId} {n : Nat} {separator : String}

/-- How many places lie behind the last index that is walked. -/
def placesBehind (s : Heap) (id : ObjectId) (n : Nat) : Nat :=
  n - 1 - lastOf (s.elementIndices (.object id) n) 0

/-- A text that is joined.  The separators by themselves are within the limit, and so is the text
without those at the end. -/
def JoinFits (s : Heap) (id : ObjectId) (n : Nat) (separator text : String) : Prop :=
  (n - 1) * separator.utf8ByteSize ≤ maxTextBytes ∧
    text.utf8ByteSize ≤ maxTextBytes + s.placesBehind id n * separator.utf8ByteSize

instance (text : String) : Decidable (s.JoinFits id n separator text) :=
  inferInstanceAs (Decidable (_ ∧ _))

/-- A text that is not joined is too long. -/
theorem lt_of_not_joinFits {texts : List String} (hcount : texts.length = n)
    (h : ¬s.JoinFits id n separator (separator.intercalate texts)) :
    maxTextBytes < (separator.intercalate texts).utf8ByteSize := by
  have hle := le_utf8ByteSize_intercalate separator texts
  rw [hcount] at hle
  rw [JoinFits, not_and_or, Nat.not_le, Nat.not_le] at h
  omega

/-- The text of an element; `joinInner` joins an array. -/
def elementText (s : Heap) (joinInner : ObjectId → Except Failure String) : Value → Except Failure String
  | .undefined | .null => .ok ""
  | .object id =>
    if s.isArray (.object id) then joinInner id else .ok (s.scalar (.object id) .string).toText
  | primitive => .ok primitive.toText

theorem elementText_of_isNullish {joinInner : ObjectId → Except Failure String} {v : Value}
    (h : v.isNullish = true) : s.elementText joinInner v = .ok "" := by
  cases v <;> first | rfl | cases h

theorem elementText_of_isArray {joinInner : ObjectId → Except Failure String}
    (h : s.isArray (.object id) = true) : s.elementText joinInner (.object id) = joinInner id := if_pos h

/-- Any other value has the text that it is converted to. -/
theorem elementText_other {joinInner : ObjectId → Except Failure String} {v : Value}
    (hv : v.isNullish = false) (h : s.isArray v = false) : s.elementText joinInner v = .ok (s.toText v) := by
  cases v with
  | undefined => cases hv
  | null => cases hv
  | object id =>
      have hprimitive : s.toPrimitive? (.object id) .string = .ok (s.scalar (.object id) .string) := by
        rw [toPrimitive?, h]
        rfl
      rw [elementText, h, toText, toPrimitive, hprimitive]
      rfl
  | _ => rfl

theorem joinWith_eq (joinInner : ObjectId → Except Failure String) (v : Value) :
    s.joinWith joinInner v n separator =
      if maxTextBytes < (n - 1) * separator.utf8ByteSize then .error .invalidStringLength
      else
        (joinElements (fun i => s.elementText joinInner (s.element v i)) separator (s.elementIndices v n) 0 "").map
          fun walked => walked.2 ++ separators separator (n - 1 - walked.1) := by
  have htext : ∀ i, s.elementText joinInner (s.element v i) = match s.element v i with
      | .undefined | .null => .ok ""
      | .object id => if s.isArray (.object id) then joinInner id else .ok (s.scalar (.object id) .string).toText
      | primitive => .ok primitive.toText := fun i => by cases s.element v i <;> rfl
  unfold joinWith
  split
  · rfl
  · simp only [htext]
    rfl

/-- Texts are joined if those at the indices that are walked are the texts of the elements, and
the others are blank. -/
theorem joinWith_of_texts {joinInner : ObjectId → Except Failure String} {texts : List String}
    (hcount : texts.length = n)
    (hwalked : ∀ i ∈ s.elementIndices (.object id) n, ∀ hi : i < texts.length,
      s.elementText joinInner (s.element (.object id) i) = .ok texts[i] ∨
        s.elementText joinInner (s.element (.object id) i) = .error .invalidStringLength ∧
          maxTextBytes < texts[i].utf8ByteSize)
    (hblank : ∀ i (hi : i < texts.length), i ∉ s.elementIndices (.object id) n → texts[i] = "") :
    s.joinWith joinInner (.object id) n separator =
      if s.JoinFits id n separator (separator.intercalate texts) then .ok (separator.intercalate texts)
      else .error .invalidStringLength := by
  let t : Nat → String := fun i => texts[i]?.getD ""
  have ht {i : Nat} (hi : i < texts.length) : t i = texts[i] := by
    show texts[i]?.getD "" = texts[i]
    rw [List.getElem?_eq_getElem hi, Option.getD_some]
  have hbelow : ∀ i ∈ s.elementIndices (.object id) n, i < n := fun i hi => (mem_elementIndices.mp hi).1
  have htexts : (List.range n).map t = texts := by
    refine List.ext_getElem (by rw [List.length_map, List.length_range, hcount]) fun i _ hi => ?_
    rw [List.getElem_map, List.getElem_range, ht hi]
  have hparts := intercalate_eq separator (t := t) (s.elementIndices_ascending (.object id) n) hbelow
    fun i hi hnot => by
      have hi : i < texts.length := hcount ▸ hi
      rw [ht hi, hblank i hi hnot]
  rw [htexts] at hparts
  have hwalk : joinElements (fun i => s.elementText joinInner (s.element (.object id) i)) separator
      (s.elementIndices (.object id) n) 0 "" = _ :=
    joinElements_eq (t := t) separator (fun i hi => by
      have hlt : i < texts.length := hcount ▸ hbelow i hi
      rw [ht hlt]
      exact hwalked i hi hlt) 0 (Nat.zero_le _)
  have hbytes : (separator.intercalate texts).utf8ByteSize =
      (placed t separator (s.elementIndices (.object id) n) 0).utf8ByteSize +
        s.placesBehind id n * separator.utf8ByteSize := by
    rw [hparts, String.utf8ByteSize_append, utf8ByteSize_separators]
    rfl
  rw [joinWith_eq, hwalk, String.empty_append]
  by_cases hseparators : maxTextBytes < (n - 1) * separator.utf8ByteSize
  · rw [if_pos hseparators, if_neg fun h : JoinFits _ _ _ _ _ => Nat.not_le.mpr hseparators h.1]
  · rw [if_neg hseparators]
    by_cases hfits : (placed t separator (s.elementIndices (.object id) n) 0).utf8ByteSize ≤ maxTextBytes
    · have hjoin : s.JoinFits id n separator (separator.intercalate texts) :=
        ⟨Nat.not_lt.mp hseparators, by rw [hbytes]; omega⟩
      rw [if_pos hfits, if_pos hjoin, hparts]
      rfl
    · have hjoin : ¬s.JoinFits id n separator (separator.intercalate texts) := fun h => by
        have hle := h.2
        rw [hbytes] at hle
        omega
      rw [if_neg hfits, if_neg hjoin]
      rfl

/-! ### Joins as calls -/

/-- The join of an array comes to a result: so do the joins of the arrays among the elements that are
walked, unless they are being joined already.  `outer` are the arrays further out. -/
inductive Joins (s : Heap) : (outer : List ObjectId) → (id : ObjectId) → (length : Nat) →
    (separator : String) → Except Failure String → Prop where
  | ofElements {outer : List ObjectId} {id : ObjectId} {n : Nat} {separator : String}
      (inner : ObjectId → Except Failure String)
      (again : ∀ j ∈ id :: outer, inner j = .ok "")
      (nested : ∀ i ∈ s.elementIndices (.object id) n, ∀ j m, s.element (.object id) i = .object j →
        s.lengthAt? j = some m → j ∉ id :: outer → Joins s (id :: outer) j m "," (inner j)) :
      Joins s outer id n separator (s.joinWith inner (.object id) n separator)

theorem joinNested_of_mem {outer : List ObjectId} (h : id ∈ outer) :
    ∀ fuel, s.joinNested fuel outer id = .ok ""
  | 0 => rfl
  | fuel + 1 => by
      rw [joinNested, if_pos (List.contains_iff_mem.mpr h)]
      rfl

/-- The arrays that are being joined are different ones, so there are only as many as the heap has
objects. -/
theorem joinNested_joins {fuel : Nat} {outer met : List ObjectId} (hmet : s.Met met) (hsub : met ⊆ outer)
    (hfuel : s.objects.size ≤ met.length + fuel) (hlength : s.lengthAt? id = some n) (hnew : id ∉ outer) :
    s.Joins outer id n "," (s.joinNested fuel outer id) := by
  obtain ⟨o, ho, harray⟩ := exists_of_lengthAt? hlength
  induction fuel generalizing outer met id n o with
  | zero => exact absurd (hsub (hmet.mem_of_size_le hfuel ho)) hnew
  | succ fuel ih =>
      have hcount : ((s.object? id).bind Object.arrayLength?).getD 0 = n := by
        rw [show (s.object? id).bind Object.arrayLength? = some n from hlength, Option.getD_some]
      rw [joinNested, if_neg (mt List.contains_iff_mem.mp hnew), hcount]
      refine .ofElements _ (fun j hj => joinNested_of_mem hj fuel) fun i hi j m hj hm hother => ?_
      obtain ⟨o', ho', harray'⟩ := exists_of_lengthAt? hm
      exact ih (hmet.cons (fun h => hnew (hsub h)) ho) (List.cons_subset_cons id hsub)
        (by rw [List.length_cons]; omega) hm hother o' ho' harray'

/-- **Joining comes to a result on every graph of arrays.** -/
theorem join_joins (s : Heap) (id : ObjectId) (separator : String) :
    s.Joins [] id (s.lengthOf (.object id)) separator (s.join id separator) := by
  refine .ofElements _ (fun j hj => joinNested_of_mem hj _) fun i hi j m hj hm hother => ?_
  exact joinNested_joins .nil (List.nil_subset _) (Nat.le_succ_of_le (Nat.zero_add _).ge) hm hother

/-! ### Texts of arrays -/

/-- The text of a value among the elements of arrays that are being joined.  `read` tells what stands
at an index of an array. -/
inductive Renders (s : Heap) (read : ObjectId → Nat → Value) :
    (outer : List ObjectId) → Value → String → Prop where
  | nullish {outer : List ObjectId} {v : Value} (h : v.isNullish = true) : Renders s read outer v ""
  | again {outer : List ObjectId} {id : ObjectId} (harray : s.isArray (.object id) = true)
      (h : id ∈ outer) : Renders s read outer (.object id) ""
  | array {outer : List ObjectId} {id : ObjectId} {n : Nat} {texts : List String}
      (hlength : s.lengthAt? id = some n) (h : id ∉ outer) (hcount : texts.length = n)
      (htexts : ∀ i (hi : i < texts.length), Renders s read (id :: outer) (read id i) texts[i]) :
      Renders s read outer (.object id) (",".intercalate texts)
  | other {outer : List ObjectId} {v : Value} (hv : v.isNullish = false) (h : s.isArray v = false) :
      Renders s read outer v (s.toText v)

/-- The texts of the elements of an array, which is joined within others. -/
structure TextsOf (s : Heap) (read : ObjectId → Nat → Value) (outer : List ObjectId) (id : ObjectId)
    (n : Nat) (texts : List String) : Prop where
  count : texts.length = n
  renders : ∀ i (hi : i < texts.length), s.Renders read (id :: outer) (read id i) texts[i]

variable {read : ObjectId → Nat → Value} {outer : List ObjectId}

theorem isArray_iff {v : Value} : s.isArray v = true ↔ ∃ id n, v = .object id ∧ s.lengthAt? id = some n := by
  cases v with
  | object id =>
      have harray : s.isArray (.object id) = (s.lengthAt? id).isSome := by
        show (s.object? id).any Object.isArray = ((s.object? id).bind Object.arrayLength?).isSome
        cases s.object? id <;> rfl
      rw [harray, Option.isSome_iff_exists]
      exact ⟨fun ⟨n, hn⟩ => ⟨id, n, rfl, hn⟩, fun ⟨_, n, hid, hn⟩ => ⟨n, by cases hid; exact hn⟩⟩
  | _ =>
      refine ⟨nofun, ?_⟩
      rintro ⟨_, _, h, -⟩
      cases h

/-- A value has a text if the arrays that are not being joined yet have texts. -/
theorem exists_renders
    (h : ∀ j m, s.lengthAt? j = some m → j ∉ outer → ∃ texts, s.TextsOf read outer j m texts) (v : Value) :
    ∃ text, s.Renders read outer v text := by
  cases hv : v.isNullish with
  | true => exact ⟨_, .nullish hv⟩
  | false =>
      cases harray : s.isArray v with
      | false => exact ⟨_, .other hv harray⟩
      | true =>
          obtain ⟨j, m, rfl, hm⟩ := isArray_iff.mp harray
          by_cases hj : j ∈ outer
          · exact ⟨_, .again harray hj⟩
          · obtain ⟨texts, htexts⟩ := h j m hm hj
            exact ⟨_, .array hm hj htexts.count htexts.renders⟩

theorem exists_textsOf_of_renders (h : ∀ v, ∃ text, s.Renders read (id :: outer) v text) (n : Nat) :
    ∃ texts, s.TextsOf read outer id n texts := by
  choose t ht using h
  refine ⟨(List.range n).map fun i => t (read id i), by rw [List.length_map, List.length_range], fun i hi => ?_⟩
  rw [List.getElem_map, List.getElem_range]
  exact ht (read id i)

/-- Every array has texts. -/
theorem exists_textsOf {fuel : Nat} {met : List ObjectId} (hmet : s.Met met) (hsub : met ⊆ outer)
    (hfuel : s.objects.size ≤ met.length + fuel) (hlength : s.lengthAt? id = some n) (hnew : id ∉ outer) :
    ∃ texts, s.TextsOf read outer id n texts := by
  obtain ⟨o, ho, harray⟩ := exists_of_lengthAt? hlength
  induction fuel generalizing outer met id n o with
  | zero => exact absurd (hsub (hmet.mem_of_size_le hfuel ho)) hnew
  | succ fuel ih =>
      refine exists_textsOf_of_renders (exists_renders fun j m hm hj => ?_) n
      obtain ⟨o', ho', harray'⟩ := exists_of_lengthAt? hm
      exact ih (hmet.cons (fun h => hnew (hsub h)) ho) (List.cons_subset_cons id hsub)
        (by rw [List.length_cons]; omega) hm hj o' ho' harray'

/-- So has an object that is joined like an array. -/
theorem exists_textsOf_outermost (s : Heap) (read : ObjectId → Nat → Value) (id : ObjectId) (n : Nat) :
    ∃ texts, s.TextsOf read [] id n texts :=
  exists_textsOf_of_renders (exists_renders fun _ _ hm hj =>
    exists_textsOf .nil (List.nil_subset _) (Nat.zero_add _).ge hm hj) n

/-! ### What joining comes to -/

/-- An array is among the elements of an object. -/
def Nests (s : Heap) (id j : ObjectId) : Prop :=
  ∃ i < s.lengthOf (.object id), s.element (.object id) i = .object j ∧ s.isArray (.object j) = true

/-- What is read stands at the indices that are walked, and nothing is read anywhere else. -/
structure ReadsWalked (s : Heap) (read : ObjectId → Nat → Value) (id : ObjectId) : Prop where
  walked : ∀ i ∈ s.elementIndices (.object id) (s.lengthOf (.object id)), read id i = s.element (.object id) i
  blank : ∀ i < s.lengthOf (.object id), i ∉ s.elementIndices (.object id) (s.lengthOf (.object id)) →
    (read id i).isNullish = true

/-- A nullish value has no text. -/
theorem Renders.eq_empty {v : Value} {text : String} (h : s.Renders read outer v text)
    (hv : v.isNullish = true) : text = "" := by
  cases h with
  | nullish _ => rfl
  | again _ _ => cases hv
  | array _ _ _ _ => cases hv
  | other hnot _ => rw [hv] at hnot; cases hnot

theorem TextsOf.blank {texts : List String} (h : s.TextsOf read outer id n texts) {i : Nat}
    (hi : i < texts.length) (hblank : (read id i).isNullish = true) : texts[i] = "" :=
  (h.renders i hi).eq_empty hblank

/-- An array that is joined with commas has the length that it answers, or is too long for commas. -/
theorem length_of_commas (hlength : s.lengthAt? id = some n) :
    maxTextBytes < (n - 1) * ",".utf8ByteSize ∨ n = s.lengthOf (.object id) := by
  obtain ⟨o, ho, hkind⟩ := exists_array_of_lengthAt? hlength
  rcases Nat.lt_or_ge n lengthBound with hn | hn
  · exact .inr (lengthOf_array ho hkind hn).symm
  · refine .inl ?_
    have hbound : maxTextBytes < lengthBound - 1 := by decide
    rw [show ",".utf8ByteSize = 1 from rfl]
    omega

/-- **What a join comes to**: the texts with the separator between them, or a failure if they do not
fit. -/
theorem Joins.eq_of_textsOf {P : ObjectId → Prop} (hread : ∀ j, P j → s.ReadsWalked read j)
    (hclosed : ∀ j k, P j → s.Nests j k → P k) {result : Except Failure String}
    (h : s.Joins outer id n separator result) (hid : P id)
    (hn : maxTextBytes < (n - 1) * separator.utf8ByteSize ∨ n = s.lengthOf (.object id))
    {texts : List String} (htexts : s.TextsOf read outer id n texts) :
    result = if s.JoinFits id n separator (separator.intercalate texts) then .ok (separator.intercalate texts)
      else .error .invalidStringLength := by
  induction h generalizing texts with
  | @ofElements outer id n separator inner again nested ih =>
      rcases hn with hlong | rfl
      · rw [joinWith_eq, if_pos hlong, if_neg fun h : JoinFits _ _ _ _ _ => Nat.not_le.mpr hlong h.1]
      · refine joinWith_of_texts htexts.count (fun i hi hlt => ?_) fun i hlt hnot =>
          htexts.blank hlt ((hread id hid).blank i (htexts.count ▸ hlt) hnot)
        have hrenders := htexts.renders i hlt
        rw [(hread id hid).walked i hi] at hrenders
        generalize hv : s.element (.object id) i = v at hrenders ⊢
        generalize texts[i] = text at hrenders ⊢
        cases hrenders with
        | nullish hnullish => exact .inl (elementText_of_isNullish hnullish)
        | @again _ j harray hj =>
            rw [elementText_of_isArray harray]
            exact .inl (again j hj)
        | @array _ j m texts' hlength hj hcount htexts' =>
            have harray : s.isArray (.object j) = true := isArray_iff.mpr ⟨j, m, rfl, hlength⟩
            have hnests : s.Nests id j := ⟨i, (mem_elementIndices.mp hi).1, hv, harray⟩
            have hinner := ih i hi j m hv hlength hj (hclosed id j hid hnests) (length_of_commas hlength)
              ⟨hcount, htexts'⟩
            rw [elementText_of_isArray harray, hinner]
            by_cases hfits : s.JoinFits j m "," (",".intercalate texts')
            · rw [if_pos hfits]
              exact .inl rfl
            · rw [if_neg hfits]
              exact .inr ⟨rfl, lt_of_not_joinFits hcount hfits⟩
        | other hnot harray => exact .inl (elementText_other hnot harray)

/-- The same of the outermost join. -/
theorem join_eq_of_textsOf (separator : String)
    (hread : ∀ j, Relation.ReflTransGen s.Nests id j → s.ReadsWalked read j)
    {texts : List String} (htexts : s.TextsOf read [] id (s.lengthOf (.object id)) texts) :
    s.join id separator =
      if s.JoinFits id (s.lengthOf (.object id)) separator (separator.intercalate texts) then
        .ok (separator.intercalate texts)
      else .error .invalidStringLength :=
  (s.join_joins id separator).eq_of_textsOf hread (fun _ _ hj hk => hj.tail hk) .refl (.inr rfl) htexts

/-! ### Joins of elements -/

/-- All elements of an object are walked or undefined, if it does not inherit any where it is walked by
the indices that it owns. -/
theorem readsWalked_element (hplain : s.stringData? (.object id) = none)
    (hsparse : maxDenseLength < s.lengthOf (.object id) → s.InheritsNoElement id) :
    s.ReadsWalked (fun j => s.element (.object j)) id where
  walked := fun _ _ => rfl
  blank := by
    intro i hi hnot
    obtain ⟨hlong, hunowned⟩ := not_or.mp fun h => hnot (mem_elementIndices.mpr ⟨hi, h⟩)
    have hbound : i < indexBound := lt_indexBound hi (s.lengthOf_lt _)
    have hnone : s.own? id (.index i) = none := Option.not_isSome_iff_eq_none.mp hunowned
    rw [element_object hplain hbound, ownElement?, hnone, Option.map_none, Option.getD_none,
      (hsparse (Nat.not_le.mp hlong)).inheritedElement_eq]
    rfl

theorem stringData?_of_nests {j : ObjectId} (h : s.Nests id j) : s.stringData? (.object j) = none := by
  obtain ⟨_, _, -, harray⟩ := h
  obtain ⟨_, n, hj, hlength⟩ := isArray_iff.mp harray
  cases hj
  obtain ⟨o, ho, hkind⟩ := exists_array_of_lengthAt? hlength
  exact stringData?_of_array ho hkind

/-- **Joining puts the separator between the texts of the elements.**  It comes to a result on every
graph of arrays.  A long array is walked by the indices that it owns; there the arrays that are
joined must not inherit elements.  Where joining fails the text would be too long. -/
theorem join_intercalates (s : Heap) (id : ObjectId) (separator : String)
    (hplain : s.stringData? (.object id) = none)
    (hsparse : ∀ j, Relation.ReflTransGen s.Nests id j →
      maxDenseLength < s.lengthOf (.object j) → s.InheritsNoElement j) :
    s.Joins [] id (s.lengthOf (.object id)) separator (s.join id separator) ∧
    (∀ j n i, i ∈ s.elementIndices (.object j) n ↔
      i < n ∧ (n ≤ maxDenseLength ∨ (s.own? j (.index i)).isSome = true)) ∧
    (∃ texts, s.TextsOf (fun j => s.element (.object j)) [] id (s.lengthOf (.object id)) texts) ∧
    ∀ texts, s.TextsOf (fun j => s.element (.object j)) [] id (s.lengthOf (.object id)) texts →
      (∀ text, s.join id separator = .ok text → text = separator.intercalate texts) ∧
      ∀ e, s.join id separator = .error e →
        e = .invalidStringLength ∧ maxTextBytes < (separator.intercalate texts).utf8ByteSize := by
  refine ⟨s.join_joins id separator, fun _ _ _ => mem_elementIndices, exists_textsOf_outermost _ _ _ _, ?_⟩
  intro texts htexts
  have hread : ∀ j, Relation.ReflTransGen s.Nests id j → s.ReadsWalked (fun j => s.element (.object j)) j := by
    intro j hj
    refine readsWalked_element ?_ (hsparse j hj)
    rcases Relation.ReflTransGen.cases_tail hj with rfl | ⟨_, _, hnests⟩
    · exact hplain
    · exact stringData?_of_nests hnests
  rw [join_eq_of_textsOf separator hread htexts]
  by_cases hfits : s.JoinFits id (s.lengthOf (.object id)) separator (separator.intercalate texts)
  · rw [if_pos hfits]
    exact ⟨fun _ h => (Except.ok.inj h).symm, fun _ h => nomatch h⟩
  · rw [if_neg hfits]
    exact ⟨fun _ h => (nomatch h), fun _ h => ⟨(Except.error.inj h).symm, lt_of_not_joinFits htexts.count hfits⟩⟩

/-- An array that has itself and, twice, another one, which has it in turn. -/
def knot : Heap where
  objects :=
    #[Store.arrayOf [.object ⟨0⟩, .object ⟨1⟩, .object ⟨1⟩], Store.arrayOf [.string "x", .object ⟨0⟩]]
  reader := none
  clock := 0
  seed := 1
  journal := #[]

private theorem knot_lists : knot.Lists ⟨0⟩ [.object ⟨0⟩, .object ⟨1⟩, .object ⟨1⟩] ∧
    knot.Lists ⟨1⟩ [.string "x", .object ⟨0⟩] :=
  ⟨lists_arrayOf rfl, lists_arrayOf rfl⟩

/-- No array of the knot is long. -/
private theorem knot_lengthOf_le {j : ObjectId} (h : knot.object? j ≠ none) : knot.lengthOf (.object j) ≤ 3 := by
  rcases j with ⟨_ | _ | i⟩
  · exact (knot_lists.1.lengthOf_eq (by decide)).le
  · exact (knot_lists.2.lengthOf_eq (by decide)).trans_le (by decide)
  · exact absurd rfl h

/-- The outer array is nothing within the other one, which is written out both times. -/
theorem join_intercalates_knot : knot.join ⟨0⟩ "-" = .ok "-x,-x," := by
  obtain ⟨houter, hinner⟩ := knot_lists
  have hshort : ∀ j, Relation.ReflTransGen knot.Nests ⟨0⟩ j →
      maxDenseLength < knot.lengthOf (.object j) → knot.InheritsNoElement j := by
    intro j hj hlong
    refine absurd hlong (Nat.not_lt.mpr ((knot_lengthOf_le ?_).trans (by decide)))
    rcases Relation.ReflTransGen.cases_tail hj with rfl | ⟨_, -, _, -, -, harray⟩
    · exact nofun
    · obtain ⟨_, n, hj, hlength⟩ := isArray_iff.mp harray
      cases hj
      obtain ⟨o, ho, -⟩ := exists_array_of_lengthAt? hlength
      rw [ho]
      exact nofun
  have hpair : knot.TextsOf (fun j => knot.element (.object j)) [⟨0⟩] ⟨1⟩ 2 ["x", ""] := by
    refine ⟨rfl, fun i hi => ?_⟩
    match i, hi with
    | 0, hi =>
        rw [hinner.element_eq (by decide) hi]
        exact .other rfl rfl
    | 1, hi =>
        rw [hinner.element_eq (by decide) hi]
        exact .again rfl (by decide)
  have hwhole : knot.TextsOf (fun j => knot.element (.object j)) [] ⟨0⟩ (knot.lengthOf (.object ⟨0⟩))
      ["", ",".intercalate ["x", ""], ",".intercalate ["x", ""]] := by
    refine ⟨(houter.lengthOf_eq (by decide)).symm, fun i hi => ?_⟩
    match i, hi with
    | 0, hi =>
        rw [houter.element_eq (by decide) hi]
        exact .again rfl (by decide)
    | 1, hi | 2, hi =>
        rw [houter.element_eq (by decide) hi]
        exact .array rfl (by decide) hpair.count hpair.renders
  obtain ⟨-, -, -, htexts⟩ := join_intercalates knot ⟨0⟩ "-" rfl hshort
  obtain ⟨hok, herror⟩ := htexts _ hwhole
  have htext : "-".intercalate ["", ",".intercalate ["x", ""], ",".intercalate ["x", ""]] = "-x,-x," := by decide
  cases h : knot.join ⟨0⟩ "-" with
  | ok text => rw [hok text h, htext]
  | error e =>
      have hlong := (herror e h).2
      rw [htext] at hlong
      exact absurd hlong (by decide)

/-! ### Texts that are too long -/

/-- What stands at the indices of an object that are walked. -/
def visited (s : Heap) (id : ObjectId) (i : Nat) : Value :=
  if i ∈ s.elementIndices (.object id) (s.lengthOf (.object id)) then s.element (.object id) i else .undefined

theorem readsWalked_visited (s : Heap) (id : ObjectId) : s.ReadsWalked s.visited id where
  walked := fun _ hi => if_pos hi
  blank := fun _ _ hnot => by rw [visited, if_neg hnot]; rfl

/-- What is walked upward comes no further than to the end. -/
theorem le_lastOf {indices : List Nat} {w : Nat} (hascending : (w :: indices).Pairwise (· < ·)) :
    ∀ i ∈ w :: indices, i ≤ lastOf indices w := by
  induction indices generalizing w with
  | nil => exact fun i hi => (List.mem_singleton.mp hi).le
  | cons next rest ih =>
      obtain ⟨hfirst, hrest⟩ := List.pairwise_cons.mp hascending
      intro i hi
      rw [lastOf_cons]
      rcases List.mem_cons.mp hi with rfl | hi
      · exact (hfirst next List.mem_cons_self).le.trans (ih hrest next List.mem_cons_self)
      · exact ih hrest i hi

/-- Nothing lies behind the last place if it is walked. -/
theorem placesBehind_eq_zero (h : n - 1 ∈ s.elementIndices (.object id) n) : s.placesBehind id n = 0 := by
  have hascending := s.elementIndices_ascending (.object id) n
  rw [placesBehind]
  cases hindices : s.elementIndices (.object id) n with
  | nil => rw [hindices] at h; cases h
  | cons i rest =>
      rw [hindices] at h hascending
      have hle := le_lastOf hascending _ h
      rw [lastOf_cons]
      omega

/-- **A text that is joined is within the limit, but for the separators behind the last index that is
walked.**  It is joined exactly if that part of it is within the limit, and all the separators by
themselves are. -/
theorem join_fits_but_behind (s : Heap) (id : ObjectId) (separator : String) :
    let n := s.lengthOf (.object id)
    (∃ texts, s.TextsOf s.visited [] id n texts) ∧
    (∀ texts, s.TextsOf s.visited [] id n texts →
      s.join id separator =
        if (n - 1) * separator.utf8ByteSize ≤ maxTextBytes ∧
            (separator.intercalate texts).utf8ByteSize ≤
              maxTextBytes + s.placesBehind id n * separator.utf8ByteSize then
          .ok (separator.intercalate texts)
        else .error .invalidStringLength) ∧
    ∀ text, s.join id separator = .ok text →
      text.utf8ByteSize ≤ maxTextBytes + s.placesBehind id n * separator.utf8ByteSize ∧
      (n ≤ maxDenseLength ∨ (s.own? id (.index (n - 1))).isSome = true → text.utf8ByteSize ≤ maxTextBytes) := by
  intro n
  obtain ⟨texts, htexts⟩ := exists_textsOf_outermost s s.visited id n
  have hjoin {texts : List String} (h : s.TextsOf s.visited [] id n texts) :=
    join_eq_of_textsOf separator (fun j _ => s.readsWalked_visited j) h
  refine ⟨⟨texts, htexts⟩, fun _ h => hjoin h, fun text htext => ?_⟩
  rw [hjoin htexts] at htext
  split at htext
  · rename_i hfits
    cases htext
    refine ⟨hfits.2, fun hwalked => ?_⟩
    rcases Nat.eq_zero_or_pos n with hn | hn
    · have htexts : texts = [] := List.eq_nil_of_length_eq_zero (htexts.count.trans hn)
      rw [htexts, String.intercalate_nil]
      exact Nat.zero_le _
    · have hbehind := placesBehind_eq_zero (mem_elementIndices.mpr ⟨Nat.sub_one_lt_of_lt hn, hwalked⟩)
      have hle := hfits.2
      rwa [hbehind, Nat.zero_mul, Nat.add_zero] at hle
  · cases htext

/-- A long array with a text at the front and nothing behind is joined, although the text becomes too
long by the separators at the end. -/
private theorem join_of_front {o : Object} {text : String} (ho : s.object? id = some o)
    (hkind : o.kind = .array n) (hn : n < lengthBound) (hsparse : maxDenseLength < n)
    (hindices : o.properties.indices = [0]) (hfront : o.properties.get? (.index 0) = some (.plain (.string text)))
    (hseparators : (n - 1) * separator.utf8ByteSize ≤ maxTextBytes) (htext : text.utf8ByteSize ≤ maxTextBytes) :
    s.join id separator = .ok (text ++ separators separator (n - 1)) := by
  have hwalk : s.elementIndices (.object id) n = [0] := by
    have hobject : s.objectOf? (.object id) = some o := ho
    have hpos : 0 < n := Nat.zero_lt_of_lt hsparse
    rw [elementIndices, if_neg (Nat.not_le.mpr hsparse), hobject]
    simp [hindices, hpos]
  have helement : s.element (.object id) 0 = .string text := by
    refine element_of_own ho hkind (by decide) ?_
    rw [ownElement?, own?_of_object? ho, hfront]
    rfl
  have hjoined : joinElements (fun i => s.elementText (s.joinNested s.walkFuel [id]) (s.element (.object id) i))
      separator [0] 0 "" = _ :=
    joinElements_eq (t := fun _ => text) separator (fun i hi => .inl (by
      rw [List.mem_singleton.mp hi, helement]
      rfl)) 0 (Nat.zero_le _)
  have hplaced : "" ++ placed (fun _ => text) separator [0] 0 = text := by
    rw [placed, placed, Nat.sub_zero, separators_zero, String.empty_append, String.empty_append, String.append_empty]
  rw [join, lengthOf_array ho hkind hn, joinWith_eq, hwalk, if_neg (Nat.not_lt.mpr hseparators), hjoined, hplaced,
    if_pos htext]
  rfl

/-- A host makes an array of one text, and gives it a length far behind it; then the text that it is
joined to is longer than any text may be. -/
theorem sparse_join_exceeds_limit : ∃ e, Evaluator.HostedFairly [] e ∧ ∃ id separator text,
    e.store.toHeap.join id separator = .ok text ∧ maxTextBytes < text.utf8ByteSize := by
  obtain ⟨text, htext⟩ : ∃ text : String, text.utf8ByteSize = 16777216 :=
    ⟨separators "x" 16777216, utf8ByteSize_separators "x" 16777216⟩
  obtain ⟨separator, hseparator⟩ : ∃ separator : String, separator.utf8ByteSize = 31 :=
    ⟨separators "-" 31, utf8ByteSize_separators "-" 31⟩
  have he : Evaluator.HostedFairly [] _ := .realm {} none 0 1
  obtain ⟨e, id, he, -, ho, -⟩ := he.exists_pushed (.newArray [.string text]) (fun v hv => by
    rw [List.mem_singleton.mp hv]
    exact Heap.knows_of_isPrimitive rfl) rfl rfl
  have hcut := he.operate (.setLength id 16777218) (Heap.has_of_object? ho)
  refine ⟨_, hcut, id, separator, _,
    join_of_front (object?_change_self ho fun o => o.resize 16777218) rfl (by decide) (by decide) rfl rfl ?_ ?_, ?_⟩
  · rw [hseparator]
    decide
  · rw [htext]
    decide
  · rw [String.utf8ByteSize_append, utf8ByteSize_separators, htext, hseparator]
    decide

end Heap

end Stepwise
