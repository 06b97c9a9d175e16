/-
Matches in a text.

A pattern stands at a place of a text if the text is something of that length, then the pattern, then
whatever is left.  A search forward answers with the least of these places from a start on, and a
search backward with the greatest one up to a bound; either says that there are none just if that is so.

What slides over the text is compared only where the checksum is right, but nothing is missed by that,
so a search forward is a walk over the places in their order (`first?_eq_find?`).  A search backward is
one forward in the text read backward, where the greatest place has become the least
(`OccursAt.reverse`).  The empty pattern stands everywhere, at the end of the text too, and both
searches find it where they begin.

Where they begin is the whole part of a number, brought into the text.
-/
import Mathlib.Order.Bounds.Basic
import Stepwise.Proofs.Pieces
import Stepwise.Proofs.Positions

namespace Stepwise

namespace Search

variable {α : Type} {text pattern : List α} {start bound i : ℕ}

/-! ### Places -/

/-- The pattern stands at a place of the text. -/
def OccursAt (text pattern : List α) (i : ℕ) : Prop :=
  ∃ front back, text = front ++ (pattern ++ back) ∧ front.length = i

theorem occursAt_iff : OccursAt text pattern i ↔ i ≤ text.length ∧ pattern <+: text.drop i := by
  constructor
  · rintro ⟨front, back, rfl, rfl⟩
    rw [List.drop_left]
    exact ⟨by simp, List.prefix_append _ _⟩
  · rintro ⟨hi, back, hback⟩
    exact ⟨text.take i, back, by rw [hback, List.take_append_drop], List.length_take_of_le hi⟩

instance [DecidableEq α] : Decidable (OccursAt text pattern i) := decidable_of_iff _ occursAt_iff.symm

theorem OccursAt.add_length_le (h : OccursAt text pattern i) : i + pattern.length ≤ text.length := by
  obtain ⟨front, back, rfl, rfl⟩ := h
  simp

theorem occursAt_nil : OccursAt text [] i ↔ i ≤ text.length := by
  rw [occursAt_iff, and_iff_left List.nil_prefix]

/-- Read backward, the pattern stands as far from the end. -/
theorem OccursAt.reverse (h : OccursAt text pattern i) :
    OccursAt text.reverse pattern.reverse (text.length - pattern.length - i) := by
  obtain ⟨front, back, rfl, rfl⟩ := h
  refine ⟨back.reverse, front.reverse, by simp, ?_⟩
  simp
  omega

theorem OccursAt.of_reverse (h : OccursAt text.reverse pattern.reverse i) :
    OccursAt text pattern (text.length - pattern.length - i) := by
  have hback := h.reverse
  rwa [List.reverse_reverse, List.reverse_reverse, List.length_reverse, List.length_reverse] at hback

/-! ### What a search answers -/

/-- The extreme one of some places, or that there are none. -/
structure Finds (IsExtreme : Set ℕ → ℕ → Prop) (places : Set ℕ) (found : Option ℕ) : Prop where
  some_iff : ∀ i, found = some i ↔ IsExtreme places i
  none_iff : found = none ↔ places = ∅

variable {places : Set ℕ} {found : Option ℕ}

/-- Where there is one extreme place at most, it is enough that what is found is one. -/
theorem Finds.of_extreme {IsExtreme : Set ℕ → ℕ → Prop} (hmem : ∀ i, IsExtreme places i → i ∈ places)
    (hunique : ∀ i j, IsExtreme places i → IsExtreme places j → i = j)
    (hsome : ∀ i, found = some i → IsExtreme places i) (hnone : found = none → places = ∅) :
    Finds IsExtreme places found := by
  cases found with
  | none =>
      obtain rfl := hnone rfl
      exact ⟨fun i => iff_of_false nofun (hmem i), iff_of_true rfl rfl⟩
  | some j =>
      have hj := hsome j rfl
      exact ⟨fun i => ⟨hsome i, fun hi => congrArg some (hunique j i hj hi)⟩,
        iff_of_false nofun (Set.nonempty_of_mem (hmem j hj)).ne_empty⟩

theorem finds_least (hsome : ∀ i, found = some i → IsLeast places i) (hnone : found = none → places = ∅) :
    Finds IsLeast places found :=
  .of_extreme (fun _ h => h.1) (fun _ _ hi hj => hi.unique hj) hsome hnone

theorem finds_greatest (hsome : ∀ i, found = some i → IsGreatest places i) (hnone : found = none → places = ∅) :
    Finds IsGreatest places found :=
  .of_extreme (fun _ h => h.1) (fun _ _ hi hj => hi.unique hj) hsome hnone

variable [BEq α] [Hashable α]

/-- The empty pattern is found where the search begins. -/
theorem first?_nil (hstart : start ≤ text.length) : first? text [] start = some start :=
  congrArg some (Nat.min_eq_left hstart)

theorem last?_nil (text : List α) (bound : ℕ) : last? text [] bound = some (min bound text.length) := if_pos rfl

variable [LawfulBEq α]

/-- **The window that slides over a text stops where a walk over its places does.** -/
theorem firstFrom?_eq_find? {p : Pattern α} (hsome : p.elements ≠ []) {place : ℕ} {q : ℕ → Bool}
    (hq : ∀ i, q (place + i) = (decide (start ≤ place + i) && beginsWith (text.drop i) p.elements)) :
    firstFrom? p start place (p.windowOf text) text = (List.range' place text.length).find? q := by
  induction text generalizing place with
  | nil => rfl
  | cons a text ih =>
      have hhere := hq 0
      rw [Nat.add_zero, List.drop_zero] at hhere
      have hrest : firstFrom? p start (place + 1) (p.windowOf text) text =
          (List.range' (place + 1) text.length).find? q := by
        refine ih fun i => ?_
        rw [Nat.add_assoc, Nat.add_comm 1 i]
        exact hq (i + 1)
      rw [firstFrom?, p.isMatch_windowOf, p.slide_windowOf hsome, ← hhere, hrest, List.length_cons,
        List.range'_succ, List.find?_cons]
      cases q place <;> rfl

/-- A search forward is a walk over the places. -/
theorem first?_eq_find? (hsome : pattern ≠ []) (text : List α) (start : ℕ) : first? text pattern start =
    (List.range text.length).find? fun i => decide (start ≤ i) && beginsWith (text.drop i) pattern := by
  have hwalk : firstFrom? (Pattern.ofList pattern) start 0 ((Pattern.ofList pattern).windowOf text) text =
      (List.range' 0 text.length).find? fun i => decide (start ≤ i) && beginsWith (text.drop i) pattern :=
    firstFrom?_eq_find? hsome fun i => by rw [Nat.zero_add]; rfl
  rw [first?, if_neg (by simpa using hsome), hwalk, List.range_eq_range']

/-- **A search forward finds the least place from the start on.** -/
theorem first?_finds (hstart : start ≤ text.length) :
    Finds IsLeast {i | start ≤ i ∧ OccursAt text pattern i} (first? text pattern start) := by
  by_cases hempty : pattern = []
  · subst hempty
    rw [first?_nil hstart]
    refine finds_least (fun i hi => ?_) nofun
    cases hi
    exact ⟨⟨Nat.le_refl start, occursAt_nil.mpr hstart⟩, fun j hj => hj.1⟩
  · have hmatch (i : ℕ) (hi : i ≤ text.length) :
        (decide (start ≤ i) && beginsWith (text.drop i) pattern) = true ↔
          start ≤ i ∧ OccursAt text pattern i := by
      rw [Bool.and_eq_true, decide_eq_true_eq, beginsWith_iff, occursAt_iff, and_iff_right hi]
    have hbelow {i : ℕ} (h : OccursAt text pattern i) : i < text.length := by
      have hpos := List.length_pos_iff.mpr hempty
      have hle := h.add_length_le
      omega
    rw [first?_eq_find? hempty]
    refine finds_least (fun i hi => ?_) fun hnone => ?_
    · obtain ⟨hhere, hi, hbefore⟩ := List.find?_range_eq_some.mp hi
      rw [List.mem_range] at hi
      refine ⟨(hmatch i (Nat.le_of_lt hi)).mp hhere, fun j hj => Nat.le_of_not_lt fun hji => ?_⟩
      have hmiss := hbefore j hji
      rw [(hmatch j (by omega)).mpr hj] at hmiss
      cases hmiss
    · refine Set.eq_empty_iff_forall_notMem.mpr fun j hj => ?_
      have hmiss := List.find?_range_eq_none.mp hnone j (hbelow hj.2)
      rw [(hmatch j (Nat.le_of_lt (hbelow hj.2))).mpr hj] at hmiss
      cases hmiss

/-- **A search backward finds the greatest place up to the bound.** -/
theorem last?_finds (text pattern : List α) (bound : ℕ) :
    Finds IsGreatest {i | i ≤ bound ∧ OccursAt text pattern i} (last? text pattern bound) := by
  by_cases hempty : pattern = []
  · subst hempty
    rw [last?_nil]
    refine finds_greatest (fun i hi => ?_) nofun
    cases hi
    exact ⟨⟨Nat.min_le_left _ _, occursAt_nil.mpr (Nat.min_le_right _ _)⟩,
      fun j hj => Nat.le_min.mpr ⟨hj.1, occursAt_nil.mp hj.2⟩⟩
  · have hfound : last? text pattern bound =
        (first? text.reverse pattern.reverse (text.length - pattern.length - bound)).map
          (text.length - pattern.length - ·) := by
      rw [last?, if_neg (by simpa using hempty)]
    have hstart : text.length - pattern.length - bound ≤ text.reverse.length := by
      rw [List.length_reverse]
      omega
    have hreversed := @first?_finds α text.reverse pattern.reverse _ _ _ _ hstart
    -- A place up to the bound is, read backward, a place from the start on.
    have hplace {i : ℕ} (hi : i ≤ bound ∧ OccursAt text pattern i) :
        text.length - pattern.length - i ∈ {i | text.length - pattern.length - bound ≤ i ∧
          OccursAt text.reverse pattern.reverse i} :=
      ⟨Nat.sub_le_sub_left hi.1 _, hi.2.reverse⟩
    rw [hfound]
    refine finds_greatest (fun i hi => ?_) fun hnone => ?_
    · obtain ⟨j, hj, rfl⟩ := Option.map_eq_some_iff.mp hi
      obtain ⟨⟨hstart, hoccurs⟩, hleast⟩ := (hreversed.some_iff j).mp hj
      have hle := hoccurs.add_length_le
      rw [List.length_reverse, List.length_reverse] at hle
      refine ⟨⟨by omega, hoccurs.of_reverse⟩, fun k hk => ?_⟩
      have hbefore := hleast (hplace hk)
      have hfits := hk.2.add_length_le
      omega
    · have hnowhere := hreversed.none_iff.mp (Option.map_eq_none_iff.mp hnone)
      exact Set.eq_empty_iff_forall_notMem.mpr fun i hi => Set.eq_empty_iff_forall_notMem.mp hnowhere _ (hplace hi)

end Search

/-! ### Where a search begins -/

namespace Double

variable {x : Float}

theorem isNaN_eq (x : Float) : x.isNaN =
    match parts x with
    | .nan => true
    | _ => false := by
  show x.toModel.unpack.isNaN = _
  rw [parts_eq]
  cases x.toModel.unpack <;> rfl

/-- The whole part of a number, brought into `0 .. length`; what is not a number has a default. -/
def wholeWithin (x : Float) (length default : ℕ) : ℕ :=
  if x.isNaN then default
  else
    match toInt? x with
    | some whole => (max 0 (min whole length)).toNat
    | none => if 0.0 < x then length else 0

theorem wholeWithin_le {length default : ℕ} (h : default ≤ length) : wholeWithin x length default ≤ length := by
  unfold wholeWithin
  split
  · exact h
  · split
    · omega
    · split <;> omega

/-- What is not a number is taken for zero. -/
theorem clamp_eq (x : Float) (length : ℕ) : clamp x length = wholeWithin x length 0 := by
  rw [clamp, wholeWithin, isNaN_eq, toInt?]
  cases h : parts x with
  | nan => rfl
  | infinite negative => cases negative <;> simp [zero_lt_infinite_iff h]
  | finite negative m =>
      cases negative with
      | true =>
          show 0 = (max 0 (min (-(m.floor : ℤ)) length)).toNat
          omega
      | false =>
          show min m.floor length = (max 0 (min (m.floor : ℤ) length)).toNat
          omega

theorem clamp_trunc (x : Float) (length : ℕ) : clamp (trunc x) length = clamp x length := by
  cases h : parts x with
  | finite negative m =>
      obtain ⟨t, hparts, hfloor, -⟩ := exists_parts_trunc h
      rw [clamp, clamp, hparts, h]
      dsimp only
      rw [hfloor]
  | _ => rw [trunc_of_not_finite (by rw [h]; nofun)]

end Double

/-- No place is taken for the answer that there is none. -/
theorem Sequence.place_eq_minus_one_iff (found : Option ℕ) : place found = .number (-1.0) ↔ found = none := by
  cases found with
  | none => exact iff_of_true rfl rfl
  | some i => exact iff_of_false (fun h => Double.ofNat_ne_minus_one i (Value.number.inj h)) nofun

/-! ### The methods of texts -/

namespace Heap

variable {s : Heap} {args : List Value}

theorem isNaN_numberArgument (h : argument args 1 = .undefined) : (s.numberArgument args 1).isNaN = true := by
  rw [numberArgument, h]
  show Double.nan.isNaN = true
  decide

end Heap

namespace Texts

variable {s : Heap} {receiver : Value} {args : List Value}

/-- Forward from the start of the text, unless a number is given. -/
theorem forwardStart_eq (s : Heap) (args : List Value) (length : ℕ) :
    Double.clamp (s.wholeArgument args 1 0.0) length = Double.wholeWithin (s.numberArgument args 1) length 0 := by
  have hparts : Double.parts 0.0 = .finite false ⟨0, Double.leastPlace⟩ := rfl
  have hzero : Double.clamp 0.0 length = 0 := by
    rw [Double.clamp, hparts]
    exact Nat.zero_min length
  have hnan {x : Float} (hx : x.isNaN = true) : Double.clamp x length = 0 := by
    rw [Double.clamp_eq, Double.wholeWithin, if_pos hx]
  rw [← Double.clamp_eq, Heap.wholeArgument]
  split
  · rename_i harg
    rw [hzero, hnan (Heap.isNaN_numberArgument harg)]
  · dsimp only
    split
    · rename_i hx
      rw [hzero, Heap.numberArgument, hnan hx]
    · exact Double.clamp_trunc _ length

/-- Backward from the end of it. -/
theorem backwardStart_eq (s : Heap) (args : List Value) (length : ℕ) :
    backwardStart s args length = Double.wholeWithin (s.numberArgument args 1) length length := by
  unfold backwardStart
  dsimp only
  rw [Double.clamp_eq]
  unfold Double.wholeWithin
  split <;> rfl

/-- A search answers with the place that it has found. -/
theorem method_find (hreceiver : receiver.isNullish = false) :
    let text := Units.encode (s.toText receiver).toList
    let wanted := Units.encode (s.textArgument args 0).toList
    let position := s.numberArgument args 1
    method .indexOf receiver args s =
      (.ok (Sequence.place (Search.first? text wanted (Double.wholeWithin position text.length 0))), s) ∧
    method .lastIndexOf receiver args s =
      (.ok (Sequence.place (Search.last? text wanted (Double.wholeWithin position text.length text.length))), s) := by
  intro text wanted position
  constructor
  · rw [method, bind_of_ok (query_text hreceiver .indexOf)]
    · show (Except.ok (find s false (s.toText receiver) args), s) = _
      rw [find, forwardStart_eq]
      rfl
    · intro h
      cases h
  · rw [method, bind_of_ok (query_text hreceiver .lastIndexOf)]
    · show (Except.ok (find s true (s.toText receiver) args), s) = _
      rw [find, backwardStart_eq]
      rfl
    · intro h
      cases h

/-- **Searches find the extreme match.**  The position that is given is cut to its whole part and brought into
the text; without one, or if it is not a number, a search forward begins at the start of the text and a search
backward at its end.  From there on the answer of the one is the least place at which the text that is looked for
stands, counted in units, and the answer of the other is the greatest one up to there; it is minus one just if
there is no such place.  The empty text is found where the search begins. -/
theorem searches_find_extremes (hreceiver : receiver.isNullish = false) :
    let text := Units.encode (s.toText receiver).toList
    let wanted := Units.encode (s.textArgument args 0).toList
    let position := s.numberArgument args 1
    let start := Double.wholeWithin position text.length 0
    let stop := Double.wholeWithin position text.length text.length
    ∃ first last,
      (method .indexOf receiver args s = (.ok (Sequence.place first), s) ∧
        Search.Finds IsLeast {i | start ≤ i ∧ Search.OccursAt text wanted i} first) ∧
      (method .lastIndexOf receiver args s = (.ok (Sequence.place last), s) ∧
        Search.Finds IsGreatest {i | i ≤ stop ∧ Search.OccursAt text wanted i} last) ∧
      (∀ found, Sequence.place found = .number (-1.0) ↔ found = none) ∧
      (argument args 1 = .undefined → start = 0 ∧ stop = text.length) ∧
      (wanted = [] → first = some start ∧ last = some stop) := by
  intro text wanted position start stop
  have hstart : start ≤ text.length := Double.wholeWithin_le (Nat.zero_le _)
  have hstop : stop ≤ text.length := Double.wholeWithin_le (Nat.le_refl _)
  obtain ⟨hforward, hbackward⟩ := @method_find s receiver args hreceiver
  refine ⟨_, _, ⟨hforward, Search.first?_finds hstart⟩, ⟨hbackward, Search.last?_finds text wanted stop⟩,
    Sequence.place_eq_minus_one_iff, fun harg => ?_, fun hempty => ?_⟩
  · have hnan := Heap.isNaN_numberArgument (s := s) harg
    exact ⟨if_pos hnan, if_pos hnan⟩
  · constructor
    · show Search.first? text wanted start = some start
      rw [hempty, Search.first?_nil hstart]
    · show Search.last? text wanted stop = some stop
      rw [hempty, Search.last?_nil, Nat.min_eq_left hstop]

/-- A match that begins before the position and ends behind it is found backward only. -/
theorem searches_find_extremes_across :
    method .indexOf (.string "abaab") [.string "aba", .number 1.5] Heap.pair = (.ok (.number (-1.0)), Heap.pair) ∧
    method .lastIndexOf (.string "abaab") [.string "ab", .number 3.5] Heap.pair = (.ok (.ofNat 3), Heap.pair) := by
  constructor
  · obtain ⟨first, -, ⟨hrun, hfinds⟩, -, -⟩ :=
      @searches_find_extremes Heap.pair (.string "abaab") [.string "aba", .number 1.5] rfl
    have hstart : Double.wholeWithin 1.5 5 0 = 1 := by decide
    have hmisses : ∀ i < 3, 1 ≤ i →
        ¬Search.OccursAt (Units.encode "abaab".toList) (Units.encode "aba".toList) i := by decide
    have hnone : first = none := by
      refine hfinds.none_iff.mpr (Set.eq_empty_iff_forall_notMem.mpr fun i ⟨hi, hoccurs⟩ => ?_)
      have hlength : i + 3 ≤ 5 := hoccurs.add_length_le
      exact hmisses i (by omega) (hstart ▸ hi) hoccurs
    rw [hrun, hnone]
    rfl
  · obtain ⟨-, last, -, ⟨hrun, hfinds⟩, -⟩ :=
      @searches_find_extremes Heap.pair (.string "abaab") [.string "ab", .number 3.5] rfl
    have hstop : Double.wholeWithin 3.5 5 5 = 3 := by decide
    have hthere : Search.OccursAt (Units.encode "abaab".toList) (Units.encode "ab".toList) 3 := by decide
    have hlast : last = some 3 :=
      (hfinds.some_iff 3).mpr ⟨⟨Nat.le_of_eq hstop.symm, hthere⟩, fun i hi => hstop ▸ hi.1⟩
    rw [hrun, hlast]
    rfl

end Texts

end Stepwise
