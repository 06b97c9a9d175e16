/-
Texts in pieces.

A text is cut at the separators in it, the first one first, and what is behind it is cut in turn.
Separators may overlap each other or run into the text behind them, so which of them are cut at
depends on the order, and `Cut` says it: a separator is cut at if none begins before it.  That is
seen from the piece in front and all of the separator but its last character, since another one
that begins earlier ends earlier as well.  A text is cut in one way.

The search slides a window over the text and compares where the checksum is right; all that matters
of that is that it finds the places where the text begins with the separator.  So far as the
search has come without a match, no separator begins, and this carries the induction
(`cut_splitFrom`).

No piece has the separator in it, and with the separator between them they are the text again.
So the array of the pieces is joined to the text, and nothing is too long for that if the text is
not.
-/
import Stepwise.Builtin.Texts
import Stepwise.Proofs.Joining
import Stepwise.Proofs.Splices

namespace Stepwise

namespace Search

section

variable {α : Type} {separator text rest piece : List α} {pieces pieces' : List (List α)}

/-! ### Cuts -/

/-- A text cut at a separator, from the left and without overlap. -/
inductive Cut (separator : List α) : List α → List (List α) → Prop
  | whole {text : List α} (hnone : ¬separator <:+: text) : Cut separator text [text]
  | cut {piece rest : List α} {pieces : List (List α)} (hfirst : ¬separator <:+: piece ++ separator.dropLast)
      (hrest : Cut separator rest pieces) : Cut separator (piece ++ (separator ++ rest)) (piece :: pieces)

namespace Cut

theorem ne_nil (h : Cut separator text pieces) : pieces ≠ [] := by
  cases h <;> exact List.cons_ne_nil _ _

/-- No piece has the separator in it. -/
theorem not_isInfix (h : Cut separator text pieces) : ∀ piece ∈ pieces, ¬separator <:+: piece := by
  induction h with
  | whole hnone => exact List.forall_mem_singleton.mpr hnone
  | cut hfirst _ ih =>
      exact List.forall_mem_cons.mpr ⟨fun h => hfirst (h.trans (List.prefix_append _ _).isInfix), ih⟩

/-- With the separator between them the pieces are the text. -/
theorem intercalate (h : Cut separator text pieces) : separator.intercalate pieces = text := by
  induction h with
  | whole => exact List.intercalate_singleton
  | @cut piece rest pieces _ hrest ih =>
      rw [List.intercalate_cons_of_ne_nil hrest.ne_nil, ih, List.append_assoc]

/-- No separator begins before the one that is cut at. -/
theorem length_le_of_eq {piece' rest' : List α} (hfirst : ¬separator <:+: piece ++ separator.dropLast)
    (h : piece ++ (separator ++ rest) = piece' ++ (separator ++ rest')) : piece.length ≤ piece'.length := by
  by_contra hshort
  have hlonger : (piece' ++ separator).length ≤ (piece ++ separator.dropLast).length := by
    rw [List.length_append, List.length_append, List.length_dropLast]
    omega
  have hfront : piece ++ separator.dropLast <+: piece ++ (separator ++ rest) :=
    (List.prefix_append_right_inj piece).mpr ((List.dropLast_prefix separator).trans (List.prefix_append _ _))
  have hother : piece' ++ separator <+: piece ++ (separator ++ rest) := by
    rw [h, ← List.append_assoc]
    exact List.prefix_append _ _
  have hwithin := List.prefix_of_prefix_length_le hother hfront hlonger
  exact hfirst ((List.suffix_append piece' separator).isInfix.trans hwithin.isInfix)

/-- A text is cut in one way. -/
theorem unique (h : Cut separator text pieces) (h' : Cut separator text pieces') : pieces' = pieces := by
  induction h generalizing pieces' with
  | @whole text hnone =>
      cases h' with
      | whole => rfl
      | cut => exact absurd ⟨_, _, List.append_assoc _ _ _⟩ hnone
  | @cut piece rest pieces hfirst hrest ih =>
      generalize hwhole : piece ++ (separator ++ rest) = text at h'
      cases h' with
      | whole hnone => exact absurd ⟨_, _, (List.append_assoc _ _ _).trans hwhole⟩ hnone
      | @cut piece' rest' _ hfirst' hrest' =>
          have hlength : piece.length = piece'.length :=
            Nat.le_antisymm (length_le_of_eq hfirst hwhole) (length_le_of_eq hfirst' hwhole.symm)
          obtain ⟨rfl, hbehind⟩ := List.append_inj hwhole hlength
          obtain rfl := List.append_cancel_left hbehind
          rw [ih hrest']

end Cut

end

/-! ### What splitting finds -/

section

variable {α : Type} {text pattern : List α}

theorem exists_isPrefix_drop (h : pattern <:+: text) :
    ∃ i, i + pattern.length ≤ text.length ∧ pattern <+: text.drop i := by
  obtain ⟨front, back, rfl⟩ := h
  refine ⟨front.length, ?_, ?_⟩
  · rw [List.length_append, List.length_append]
    omega
  · rw [List.append_assoc, List.drop_left]
    exact List.prefix_append _ _

variable [BEq α]

theorem beginsWith_iff [LawfulBEq α] : beginsWith text pattern = true ↔ pattern <+: text := by
  induction pattern generalizing text with
  | nil => simp [beginsWith]
  | cons b pattern ih =>
      cases text with
      | nil => simp [beginsWith]
      | cons a text => rw [beginsWith, Bool.and_eq_true, beq_iff_eq, ih, List.cons_prefix_cons, eq_comm]

variable [Hashable α] {p : Pattern α}

/-- What is skipped is passed over. -/
theorem splitFrom_skip (hsome : p.elements ≠ []) (piece : List α) {skip : Nat} (hskip : skip ≤ text.length) :
    splitFrom p skip (p.windowOf text) piece text =
      splitFrom p 0 (p.windowOf (text.drop skip)) piece (text.drop skip) := by
  induction skip generalizing text with
  | zero => rfl
  | succ skip ih =>
      cases text with
      | nil => cases hskip
      | cons a text =>
          rw [splitFrom, p.slide_windowOf hsome, List.drop_succ_cons]
          exact ih (Nat.le_of_succ_le_succ hskip)

/-- **The text is cut**, if no separator begins in the part of the current piece that is read
already. -/
theorem cut_splitFrom [LawfulBEq α] (hsome : p.elements ≠ []) {piece : List α}
    (hnone : ∀ i < piece.length, ¬p.elements <+: (piece.reverse ++ text).drop i) :
    Cut p.elements (piece.reverse ++ text) (splitFrom p 0 (p.windowOf text) piece text) := by
  induction hn : text.length using Nat.strong_induction_on generalizing piece text with
  | _ n ih =>
      cases text with
      | nil =>
          rw [List.append_nil] at hnone ⊢
          refine .whole fun hthere => ?_
          obtain ⟨i, hi, hbegins⟩ := exists_isPrefix_drop hthere
          have hpos := List.length_pos_iff.mpr hsome
          rw [List.length_reverse] at hi
          exact hnone i (by omega) hbegins
      | cons a text =>
          rw [splitFrom, p.isMatch_windowOf, p.slide_windowOf hsome]
          split
          · rename_i hmatch
            obtain ⟨rest, hrest⟩ := beginsWith_iff.mp hmatch
            have hskip : text.drop (p.elements.length - 1) = rest := by
              obtain ⟨b, elements, helements⟩ := List.exists_cons_of_ne_nil hsome
              rw [helements, List.cons_append, List.cons.injEq] at hrest
              rw [helements, ← hrest.2, List.length_cons, Nat.add_sub_cancel, List.drop_left]
            have hlength : p.elements.length + rest.length = text.length + 1 := by
              rw [← List.length_append, hrest, List.length_cons]
            have hpos := List.length_pos_iff.mpr hsome
            rw [splitFrom_skip hsome [] (by omega), hskip, ← hrest]
            refine .cut (fun hthere => ?_) (@ih rest.length ?_ rest [] ?_ rfl)
            · obtain ⟨i, hi, hbegins⟩ := exists_isPrefix_drop hthere
              rw [List.length_append, List.length_reverse, List.length_dropLast] at hi
              refine hnone i (by omega) (hbegins.trans (List.IsPrefix.drop ?_ i))
              rw [← hrest]
              exact (List.prefix_append_right_inj _).mpr ((List.dropLast_prefix _).trans (List.prefix_append _ _))
            · rw [← hn, List.length_cons]
              omega
            · exact fun i hi => absurd hi (Nat.not_lt_zero i)
          · rename_i hmatch
            have hread : (a :: piece).reverse ++ text = piece.reverse ++ a :: text := by
              rw [List.reverse_cons, List.append_assoc, List.singleton_append]
            rw [← hread]
            refine ih text.length (by rw [← hn]; exact Nat.lt_succ_self _) (fun i hi hbegins => ?_) rfl
            rw [hread] at hbegins
            rcases Nat.lt_or_eq_of_le (Nat.le_of_lt_succ hi) with hearlier | rfl
            · exact hnone i hearlier hbegins
            · rw [← List.length_reverse, List.drop_left] at hbegins
              exact hmatch (beginsWith_iff.mpr hbegins)

/-- **Splitting cuts a text at the separators in it.** -/
theorem split_eq_iff [LawfulBEq α] {separator : List α} (hsome : separator ≠ []) {pieces : List (List α)} :
    split text separator = pieces ↔ Cut separator text pieces := by
  have hcut : Cut separator ([].reverse ++ text) (split text separator) :=
    cut_splitFrom (p := Pattern.ofList separator) hsome fun i hi => absurd hi (Nat.not_lt_zero i)
  exact ⟨fun h => h ▸ hcut, fun h => hcut.unique h ▸ rfl⟩

end

end Search

/-! ### Arrays of pieces -/

namespace Heap

variable {s : Heap} {id : ObjectId} {texts : List String} {separator : String}

/-- An array of texts is joined to these texts, as long as that is not too long. -/
theorem join_texts (h : s.Lists id (texts.map .string)) (hlength : texts.length < lengthBound)
    (hfits : (separator.intercalate texts).utf8ByteSize ≤ maxTextBytes) :
    s.join id separator = .ok (separator.intercalate texts) := by
  have hvalues : (texts.map Value.string).length < lengthBound := by rwa [List.length_map]
  have hcount : s.lengthOf (.object id) = texts.length := by rw [h.lengthOf_eq hvalues, List.length_map]
  have hread (i : Nat) (hi : i < texts.length) : s.visited id i = .string texts[i] := by
    have hi' : i < (texts.map Value.string).length := by rwa [List.length_map]
    have hwalked : i ∈ s.elementIndices (.object id) (s.lengthOf (.object id)) := by
      rw [mem_elementIndices, hcount]
      refine ⟨hi, .inr ?_⟩
      have hown := h.ownElement?_eq hvalues hi'
      rw [ownElement?] at hown
      obtain ⟨p, hp, -⟩ := Option.map_eq_some_iff.mp hown
      rw [hp, Option.isSome_some]
    rw [visited, if_pos hwalked, h.element_eq hvalues hi', List.getElem_map]
  have htexts : s.TextsOf s.visited [] id (s.lengthOf (.object id)) texts := by
    refine ⟨hcount.symm, fun i hi => ?_⟩
    rw [hread i hi]
    exact .other rfl rfl
  have hseparators := le_utf8ByteSize_intercalate separator texts
  rw [join_eq_of_textsOf separator (fun j _ => s.readsWalked_visited j) htexts, if_pos]
  refine ⟨?_, Nat.le_trans hfits (Nat.le_add_right _ _)⟩
  rw [hcount]
  exact Nat.le_trans hseparators hfits

end Heap

namespace Texts

open Store

variable {s : Heap} {receiver : Value} {args : List Value}

/-- The pieces of a text are cut at the separator. -/
theorem cut_pieces (text : String) {separator : String} (hsome : separator ≠ "") :
    Search.Cut separator.toList text.toList ((pieces text.toList separator.toList).map String.toList) := by
  have hlist : separator.toList ≠ [] := fun h => hsome (String.toList_eq_nil_iff.mp h)
  have hback : String.toList ∘ String.ofList = id := funext fun _ => String.toList_ofList
  rw [pieces, List.isEmpty_eq_false_iff.mpr hlist, if_neg Bool.false_ne_true, List.map_map, hback, List.map_id]
  exact (Search.split_eq_iff hlist).mp rfl

theorem intercalate_pieces (text : String) {separator : String} (hsome : separator ≠ "") :
    separator.intercalate (pieces text.toList separator.toList) = text := by
  rw [← String.toList_inj, String.toList_intercalate]
  exact (cut_pieces text hsome).intercalate

/-- There are no more pieces than an array can have, if the text is not too long. -/
theorem length_pieces_lt {text separator : String} (hsome : separator ≠ "")
    (hfits : text.utf8ByteSize ≤ maxTextBytes) : (pieces text.toList separator.toList).length < lengthBound := by
  have hseparators := Heap.le_utf8ByteSize_intercalate separator (pieces text.toList separator.toList)
  rw [intercalate_pieces text hsome] at hseparators
  have hpos : 0 < separator.utf8ByteSize := Nat.pos_of_ne_zero fun h => hsome (String.utf8ByteSize_eq_zero_iff.mp h)
  have hcount := Nat.le_trans (Nat.le_mul_of_pos_right _ hpos) (Nat.le_trans hseparators hfits)
  have hlimit : maxTextBytes + 1 < lengthBound := by decide
  omega

/-- A whole number is a limit as it is. -/
theorem pieceLimit_ofNat {m : Nat} (hm : m < lengthBound) (hlimit : argument args 1 = .ofNat m) :
    pieceLimit s args 1 = m := by
  have hnumber : s.toNumber (.ofNat m) = Float.ofNat m := rfl
  obtain ⟨d, hparts, hfloor, -⟩ := Double.exists_parts_ofNat (Nat.lt_trans hm (by decide))
  have hword : Double.toWord (Float.ofNat m) = UInt32.ofNat m := by
    simp only [Double.toWord, Double.toInt?, hparts, hfloor, Bool.false_eq_true, if_false]
    congr 1
    show ((m : Int) % (UInt32.size : Nat)).toNat = m
    rw [← Int.natCast_mod, Int.toNat_natCast]
    exact Nat.mod_eq_of_lt hm
  have hlimit' : pieceLimit s args 1 = (Double.toWord (s.toNumber (.ofNat m))).toNat := by
    rw [pieceLimit, hlimit]
    rfl
  rw [hlimit', hnumber, hword, UInt32.toNat_ofNat_of_lt' hm]

/-- A method is given the text of its receiver, if that is not one that it refuses. -/
theorem query_text (hreceiver : receiver.isNullish = false) (m : StringMethod) :
    Edit.query (fun s => do
      refuseNullish "String" (methodName m) receiver
      return s.toText receiver) s = (.ok (s.toText receiver), s) := by
  rw [Edit.query, refuseNullish, hreceiver]
  rfl

/-- What splitting makes of a separator is an array of the pieces, as far as the limit goes. -/
theorem split_makes (hreceiver : receiver.isNullish = false) (hgiven : (argument args 0).isUndefined = false)
    (hsome : s.textArgument args 0 ≠ "") (hfits : (s.toText receiver).utf8ByteSize ≤ maxTextBytes) :
    let all := pieces (s.toText receiver).toList (s.textArgument args 0).toList
    ∃ new s', method .split receiver args s = (.ok (.object new), s') ∧
      s.MakesArray new ((all.take (pieceLimit s args 1)).map .string) s' ∧ s.Preserves s' := by
  intro all
  have hlength : ((all.take (pieceLimit s args 1)).map Value.string).length < lengthBound := by
    rw [List.length_map, List.length_take]
    exact Nat.lt_of_le_of_lt (Nat.min_le_right _ _) (length_pieces_lt hsome hfits)
  have hrun : method .split receiver args s =
      (do return .object (← allocArray ((all.take (pieceLimit s args 1)).map .string)) : Edit Value) s := by
    have hmethod : method .split receiver args s = split (s.toText receiver) args s := by
      rw [method, bind_of_ok (query_text hreceiver .split)]
      intro h
      cases h
    rw [hmethod, split, Edit.ask_bind_eq, Edit.ask_bind_eq]
    cases hvalue : argument args 0 with
    | undefined =>
        rw [hvalue] at hgiven
        cases hgiven
    | _ => rfl
  rw [hrun]
  exact Sequence.allocArray_makes s hlength

/-- **Joining undoes splitting.**  A text is cut at each separator, from the left, into pieces without
separators, and these make a new array, as many of them as the limit allows.  The array of all
pieces is joined to the text again. -/
theorem joining_undoes_splitting (hreceiver : receiver.isNullish = false)
    (hgiven : (argument args 0).isUndefined = false) (hsome : s.textArgument args 0 ≠ "")
    (hfits : (s.toText receiver).utf8ByteSize ≤ maxTextBytes) :
    let text := s.toText receiver
    let separator := s.textArgument args 0
    let all := pieces text.toList separator.toList
    (Search.Cut separator.toList text.toList (all.map String.toList) ∧
      ∀ piece ∈ all, ¬separator.toList <:+: piece.toList) ∧
    ((argument args 1).isUndefined = true → ∃ new s',
      method .split receiver args s = (.ok (.object new), s') ∧ s.MakesArray new (all.map .string) s' ∧
        s.Preserves s' ∧
        Sequence.method .join (.object new) [.string separator] s' = (.ok (.string text), s')) ∧
    ∃ new s', method .split receiver args s = (.ok (.object new), s') ∧
      s.MakesArray new ((all.take (min (pieceLimit s args 1) all.length)).map .string) s' ∧ s.Preserves s' ∧
      ∀ m < lengthBound, argument args 1 = .ofNat m → pieceLimit s args 1 = m := by
  intro text separator all
  have hcut := cut_pieces text hsome
  obtain ⟨new, s', hrun, hmakes, hpreserves⟩ := split_makes hreceiver hgiven hsome hfits
  refine ⟨⟨hcut, fun piece hpiece => hcut.not_isInfix _ (List.mem_map_of_mem hpiece)⟩, fun hnolimit => ?_, ?_⟩
  · have hcount : all.length < lengthBound := length_pieces_lt hsome hfits
    have hnone : argument args 1 = .undefined := by
      cases hvalue : argument args 1 with
      | undefined => rfl
      | _ =>
          rw [hvalue] at hnolimit
          cases hnolimit
    have hlimit : pieceLimit s args 1 = lengthBound - 1 := by rw [pieceLimit, hnone]
    have hall : all.take (lengthBound - 1) = all := List.take_of_length_le (Nat.le_sub_one_of_lt hcount)
    rw [hlimit] at hmakes
    change s.MakesArray new ((all.take (lengthBound - 1)).map .string) s' at hmakes
    rw [hall] at hmakes
    refine ⟨new, s', hrun, hmakes, hpreserves, ?_⟩
    have hjoined : s'.join new separator = .ok text := by
      have hback := intercalate_pieces text hsome
      rw [Heap.join_texts hmakes.lists hcount (by rwa [hback]), hback]
    rw [Sequence.method, bind_of_ok (Sequence.refuseNullish_object _ new s')]
    have hquery : Sequence.join s' (.object new) [.string separator] = (s'.join new separator).map .string := rfl
    show Edit.query (fun s => Sequence.join s (.object new) [.string separator]) s' = _
    rw [Edit.query, hquery, hjoined]
    rfl
  · refine ⟨new, s', hrun, ?_, hpreserves, fun m hm hlimit => pieceLimit_ofNat hm hlimit⟩
    rwa [← List.take_eq_take_min]

/-- Of two separators that overlap the first one is cut at. -/
theorem joining_undoes_splitting_overlap : ∃ new s',
    method .split (.string "aaab") [.string "aa"] Heap.pair = (.ok (.object new), s') ∧
      s'.sequence (.object new) = [.string "", .string "ab"] ∧
      Sequence.method .join (.object new) [.string "aa"] s' = (.ok (.string "aaab"), s') := by
  have hall : pieces "aaab".toList "aa".toList = ["", "ab"] := by decide
  obtain ⟨-, hjoin, -⟩ :=
    @joining_undoes_splitting Heap.pair (.string "aaab") [.string "aa"] rfl rfl (by decide) (by decide)
  obtain ⟨new, s', hrun, hmakes, -, hback⟩ := hjoin rfl
  refine ⟨new, s', hrun, hmakes.sequence.trans ?_, hback⟩
  exact congrArg (List.map Value.string) hall

end Texts

end Stepwise
