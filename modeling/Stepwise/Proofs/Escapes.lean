/-
Escapes of bytes.

The encoder goes through a text by characters and the decoder through its escapes by bytes, and
they meet in the bytes of the text.  The encoder writes each byte for itself, as its character or as
its escape (`percentEncode_eq`): a character that is left as it is has one byte, and no byte of any
other character is the byte of one of those.  What is written byte by byte is read byte by byte
(`percentBytes?_written`), whatever the bytes are, since a percent sign is never left as it is, and
an escape is kept only if its character would not have been escaped.

Bytes that are read from the encoder's form are written again as they stood there, and so it has
one text for each sequence of bytes.  Not every sequence of bytes is a text.
-/
import Mathlib.Data.List.Basic
import Stepwise.Builtin.Conversions

namespace Stepwise

namespace Escape

/-! ### Digits -/

theorem hexValue?_hexChar : ∀ n < 16, hexValue? (hexChar n) = some n := by decide

/-- The two digits of a byte are read as that byte. -/
theorem pair?_hexChar {n : Nat} (hn : n < 256) : pair? (hexChar (n / 16)) (hexChar (n % 16)) = some n := by
  rw [pair?, hexValue?_hexChar (n / 16) (by omega), hexValue?_hexChar (n % 16) (by omega)]
  exact congrArg some (Nat.div_add_mod n 16)

/-! ### Characters and their bytes -/

variable {c : Char} {b : UInt8} {keep : Char → Bool}

theorem toNat_ofNat_of_lt {n : Nat} (hn : n < 128) : (Char.ofNat n).toNat = n := by
  have hvalid : n.isValidChar := .inl (by omega)
  rw [Char.ofNat, dif_pos hvalid]
  rfl

/-- A character of the first half has one byte, its number. -/
theorem bytesOf_of_lt (hc : c.toNat < 128) : bytesOf c = [UInt8.ofNat c.toNat] := by
  have hsmall : c.val.toNat ≤ 127 := Nat.le_of_lt_succ hc
  rw [bytesOf, String.utf8EncodeChar, if_pos hsmall]
  rfl

/-- No other character has a byte of the first half. -/
theorem ofNat_of_mem_bytesOf (hb : b ∈ bytesOf c) (hlt : b.toNat < 128) : Char.ofNat b.toNat = c := by
  have hback : (UInt8.ofNat c.toNat).toNat = c.toNat % 256 := UInt8.toNat_ofNat'
  by_cases hc : c.toNat < 128
  · rw [bytesOf_of_lt hc, List.mem_singleton] at hb
    rw [hb, hback, Nat.mod_eq_of_lt (by omega), Char.ofNat_toNat]
  · have hlarge : ∀ byte ∈ bytesOf c, 128 ≤ byte.toNat := by
      have hnot : ¬c.val.toNat ≤ 127 := fun h => hc (Nat.lt_succ_of_le h)
      rw [bytesOf, String.utf8EncodeChar, if_neg hnot]
      split
      · simp [UInt8.toNat_ofNat']
        omega
      · split
        · simp [UInt8.toNat_ofNat']
          omega
        · simp [UInt8.toNat_ofNat']
          omega
    exact absurd hlt (Nat.not_lt.mpr (hlarge b hb))

theorem lt_of_isAlphanumeric (h : isAlphanumeric c = true) : c.toNat < 128 := by
  simp only [isAlphanumeric, Bool.or_eq_true, Bool.and_eq_true, decide_eq_true_eq, Char.le_def,
    UInt32.le_iff_toNat_le] at h
  have hz : 'z'.val.toNat = 122 := rfl
  have hZ : 'Z'.val.toNat = 90 := rfl
  have h9 : '9'.val.toNat = 57 := rfl
  show c.val.toNat < 128
  omega

theorem lt_of_isByteSafe (h : isByteSafe c = true) : c.toNat < 128 := by
  rcases Bool.or_eq_true_iff.mp h with h | h
  · exact lt_of_isAlphanumeric h
  · have hall : "-_.!~*'()".toList.all (·.toNat < 128) = true := by decide
    exact of_decide_eq_true (List.all_eq_true.mp hall c (List.contains_iff_mem.mp h))

theorem lt_of_isReserved (h : isReserved c = true) : c.toNat < 128 := by
  have hall : ";/?:@&=+$,#".toList.all (·.toNat < 128) = true := by decide
  exact of_decide_eq_true (List.all_eq_true.mp hall c (List.contains_iff_mem.mp h))

/-! ### Bytes one by one -/

/-- Is the byte that of a character which is left as it is? -/
def isPlain (keep : Char → Bool) (b : UInt8) : Bool :=
  b.toNat < 128 && (isByteSafe (Char.ofNat b.toNat) || keep (Char.ofNat b.toNat))

/-- A byte as its character or as its escape. -/
def writeByte (keep : Char → Bool) (b : UInt8) : List Char :=
  if isPlain keep b then [Char.ofNat b.toNat] else '%' :: hexPair b.toNat

theorem isPlain_of_mem (hsafe : ∀ c, keep c = true → c.toNat < 128) (hb : b ∈ bytesOf c) :
    isPlain keep b = (isByteSafe c || keep c) := by
  rw [Bool.eq_iff_iff, isPlain, Bool.and_eq_true, decide_eq_true_iff]
  constructor
  · rintro ⟨hlt, hplain⟩
    rwa [ofNat_of_mem_bytesOf hb hlt] at hplain
  · intro hplain
    have hlt : c.toNat < 128 := (Bool.or_eq_true_iff.mp hplain).elim lt_of_isByteSafe (hsafe c)
    rw [bytesOf_of_lt hlt, List.mem_singleton] at hb
    rw [hb, UInt8.toNat_ofNat', Nat.mod_eq_of_lt (by omega), Char.ofNat_toNat]
    exact ⟨hlt, hplain⟩

/-- All bytes of a character are left as they are, or none of them is. -/
theorem flatMap_writeByte (hsafe : ∀ c, keep c = true → c.toNat < 128) (c : Char) :
    (bytesOf c).flatMap (writeByte keep) =
      if isByteSafe c || keep c then [c] else (bytesOf c).flatMap fun b => '%' :: hexPair b.toNat := by
  split
  · rename_i hplain
    have hlt : c.toNat < 128 := (Bool.or_eq_true_iff.mp hplain).elim lt_of_isByteSafe (hsafe c)
    have hmem : UInt8.ofNat c.toNat ∈ bytesOf c := by simp [bytesOf_of_lt hlt]
    rw [bytesOf_of_lt hlt, List.flatMap_singleton, writeByte, if_pos ((isPlain_of_mem hsafe hmem).trans hplain),
      UInt8.toNat_ofNat', Nat.mod_eq_of_lt (by omega), Char.ofNat_toNat]
  · rename_i hplain
    refine List.flatMap_congr fun b hb => ?_
    rw [writeByte, if_neg (by rwa [isPlain_of_mem hsafe hb])]

/-- **The encoder writes the bytes of a text one by one.** -/
theorem percentEncode_eq (hsafe : ∀ c, keep c = true → c.toNat < 128) (text : List Char) :
    percentEncode keep text = (text.flatMap bytesOf).flatMap (writeByte keep) := by
  rw [percentEncode, List.flatMap_assoc]
  exact List.flatMap_congr fun c _ => (flatMap_writeByte hsafe c).symm

/-- The bytes of a character that begins no escape. -/
theorem percentBytes?_plain (hc : c ≠ '%') (rest : List Char) :
    percentBytes? keep (c :: rest) = (percentBytes? keep rest).map (bytesOf c ++ ·) := by
  rw [percentBytes?]
  · simp only [beq_iff_eq, hc, if_false]
    cases percentBytes? keep rest <;> rfl
  · rintro a b rest rfl
    exact absurd rfl hc

/-- The byte of an escape, unless the escape is kept. -/
theorem percentBytes?_escape (hkeep : (decide (b.toNat < 128) && keep (Char.ofNat b.toNat)) = false)
    (rest : List Char) :
    percentBytes? keep ('%' :: (hexPair b.toNat ++ rest)) = (percentBytes? keep rest).map (b :: ·) := by
  rw [hexPair, List.cons_append, List.singleton_append, percentBytes?, pair?_hexChar b.toNat_lt]
  simp only [Option.bind_eq_bind, Option.bind_some, hkeep, UInt8.ofNat_toNat]
  cases percentBytes? keep rest <;> rfl

/-- **What is written byte by byte is read byte by byte.** -/
theorem percentBytes?_written (hpercent : keep '%' = false) (bytes : List UInt8) :
    percentBytes? keep (bytes.flatMap (writeByte keep)) = some bytes := by
  induction bytes with
  | nil => rfl
  | cons b bytes ih =>
      rw [List.flatMap_cons, writeByte]
      split
      · rename_i hplain
        obtain ⟨hlt, hleft⟩ := Bool.and_eq_true_iff.mp hplain
        have hlt := of_decide_eq_true hlt
        have hnumber : (Char.ofNat b.toNat).toNat = b.toNat := toNat_ofNat_of_lt hlt
        have hne : Char.ofNat b.toNat ≠ '%' := by
          intro heq
          rw [heq, hpercent] at hleft
          exact absurd hleft (by decide)
        rw [List.singleton_append, percentBytes?_plain hne, ih, bytesOf_of_lt (by rwa [hnumber]), hnumber,
          UInt8.ofNat_toNat]
        rfl
      · rename_i hplain
        have hkeep : (decide (b.toNat < 128) && keep (Char.ofNat b.toNat)) = false := by
          rw [Bool.eq_false_iff]
          intro h
          obtain ⟨hlt, hleft⟩ := Bool.and_eq_true_iff.mp h
          exact hplain (by rw [isPlain, hlt, hleft, Bool.or_true]; rfl)
        rw [List.cons_append, percentBytes?_escape hkeep, ih]
        rfl

/-! ### Texts -/

/-- Bytes are a text if they are those of its characters. -/
theorem fromUTF8?_eq_some_iff {bytes : List UInt8} {s : String} :
    String.fromUTF8? (ByteArray.mk bytes.toArray) = some s ↔ bytes = s.toList.flatMap bytesOf := by
  have hbytes : s.toByteArray = ByteArray.mk (s.toList.flatMap bytesOf).toArray := by
    rw [← String.utf8Encode_toList]
    exact ByteArray.ext List.data_toByteArray
  rw [String.fromUTF8?]
  constructor
  · intro h
    obtain ⟨hvalid, hs⟩ := Option.dite_none_right_eq_some.mp h
    have hsame : ByteArray.mk bytes.toArray = s.toByteArray := by
      rw [← Option.some.inj hs]
      rfl
    rw [hbytes] at hsame
    exact List.toArray_inj (congrArg ByteArray.data hsame)
  · rintro rfl
    have hvalid : (ByteArray.mk (s.toList.flatMap bytesOf).toArray).IsValidUTF8 := hbytes ▸ s.isValidUTF8
    rw [dif_pos hvalid]
    exact congrArg some (String.toByteArray_inj.mp hbytes.symm)

/-- **Decoding undoes encoding**, if it keeps the escapes of what encoding leaves as it is. -/
theorem percentDecode?_percentEncode (hsafe : ∀ c, keep c = true → c.toNat < 128) (hpercent : keep '%' = false)
    (s : String) : percentDecode? keep (percentEncode keep s.toList) = some s := by
  rw [percentDecode?, percentEncode_eq hsafe, percentBytes?_written hpercent]
  exact fromUTF8?_eq_some_iff.mpr rfl

/-! ### The encoder's form -/

/-- Only characters that are left as they are, and escapes of bytes of other characters in
upper-case digits. -/
inductive IsEncoded : List Char → Prop
  | nil : IsEncoded []
  | plain {c : Char} {rest : List Char} (hc : isByteSafe c = true) (h : IsEncoded rest) : IsEncoded (c :: rest)
  | escape {c : Char} {b : UInt8} {rest : List Char} (hc : isByteSafe c = false) (hb : b ∈ bytesOf c)
      (h : IsEncoded rest) : IsEncoded ('%' :: (hexPair b.toNat ++ rest))

theorem keeps_nothing (c : Char) (h : (fun _ : Char => false) c = true) : c.toNat < 128 := Bool.noConfusion h

/-- A text in the encoder's form is written byte by byte. -/
theorem IsEncoded.exists_bytes {t : List Char} (h : IsEncoded t) :
    ∃ bytes : List UInt8, t = bytes.flatMap (writeByte fun _ => false) := by
  induction h with
  | nil => exact ⟨[], rfl⟩
  | @plain c rest hc _ ih =>
      obtain ⟨bytes, rfl⟩ := ih
      refine ⟨bytesOf c ++ bytes, ?_⟩
      rw [List.flatMap_append, flatMap_writeByte keeps_nothing, if_pos (by rw [hc]; rfl)]
      rfl
  | @escape c b rest hc hb _ ih =>
      obtain ⟨bytes, rfl⟩ := ih
      refine ⟨b :: bytes, ?_⟩
      rw [List.flatMap_cons, writeByte, if_neg]
      · rfl
      · rw [isPlain_of_mem keeps_nothing hb, hc]
        exact Bool.false_ne_true

/-- The encoder keeps to its form. -/
theorem isEncoded_percentEncode (text : List Char) : IsEncoded (percentEncode (fun _ => false) text) := by
  induction text with
  | nil => exact .nil
  | cons c text ih =>
      rw [percentEncode, List.flatMap_cons]
      split
      · rename_i hplain
        exact .plain (by simpa using hplain) ih
      · rename_i hplain
        have hescapes (bytes : List UInt8) (hbytes : ∀ b ∈ bytes, b ∈ bytesOf c) :
            IsEncoded ((bytes.flatMap fun b => '%' :: hexPair b.toNat) ++ percentEncode (fun _ => false) text) := by
          induction bytes with
          | nil => exact ih
          | cons b bytes ihBytes =>
              obtain ⟨hb, hrest⟩ := List.forall_mem_cons.mp hbytes
              rw [List.flatMap_cons, List.append_assoc]
              exact .escape (by simpa using hplain) hb (ihBytes hrest)
        exact hescapes _ fun b hb => hb

/-- **What is in the encoder's form is encoded again as it was**, once it is decoded. -/
theorem percentEncode_eq_iff {t : List Char} {s : String} :
    percentEncode (fun _ => false) s.toList = t ↔
      IsEncoded t ∧ percentDecode? (fun _ => false) t = some s := by
  constructor
  · rintro rfl
    exact ⟨isEncoded_percentEncode _, percentDecode?_percentEncode keeps_nothing rfl s⟩
  · rintro ⟨hform, hdecoded⟩
    obtain ⟨bytes, rfl⟩ := hform.exists_bytes
    rw [percentDecode?, percentBytes?_written rfl] at hdecoded
    rw [percentEncode_eq keeps_nothing, ← fromUTF8?_eq_some_iff.mp hdecoded]

end Escape

namespace Conversions

open Escape

/-- What a text was encoded to is decoded to it again. -/
theorem decoded_percentEncode {keep : Char → Bool} (hsafe : ∀ c, keep c = true → c.toNat < 128)
    (hpercent : keep '%' = false) (text : String) :
    decoded keep (String.ofList (percentEncode keep text.toList)).toList = .ok (.string text) := by
  rw [String.toList_ofList, decoded, percentDecode?_percentEncode hsafe hpercent]
  rfl

/-- **Decoding an address undoes encoding it**, whole or in parts and whatever the text: percent
signs, escapes and separators that stand in it are there again, for the functions of a script
too.  And a text is what encoding makes of another one just if it is in the encoder's form and
decodes to that one. -/
theorem decoding_undoes_encoding :
    (∀ s : String, percentDecode? (fun _ => false) (percentEncode (fun _ => false) s.toList) = some s) ∧
    (∀ s : String, percentDecode? isReserved (percentEncode isReserved s.toList) = some s) ∧
    (∀ (heap : Heap) (args : List Value), ∃ written, apply heap .encodeURIComponent args = .ok written ∧
      apply heap .decodeURIComponent [written] = .ok (.string (heap.textArgument args 0))) ∧
    (∀ (heap : Heap) (args : List Value), ∃ written, apply heap .encodeURI args = .ok written ∧
      apply heap .decodeURI [written] = .ok (.string (heap.textArgument args 0))) ∧
    ∀ (t : List Char) (s : String), percentEncode (fun _ => false) s.toList = t ↔
      IsEncoded t ∧ percentDecode? (fun _ => false) t = some s := by
  have hreserved (c : Char) (h : isReserved c = true) : c.toNat < 128 := lt_of_isReserved h
  refine ⟨percentDecode?_percentEncode keeps_nothing rfl, percentDecode?_percentEncode hreserved rfl,
    fun heap args => ⟨_, rfl, ?_⟩, fun heap args => ⟨_, rfl, ?_⟩, fun t s => percentEncode_eq_iff⟩
  · have hread (t : String) : apply heap .decodeURIComponent [.string t] = decoded (fun _ => false) t.toList := rfl
    rw [hread]
    exact decoded_percentEncode keeps_nothing rfl _
  · have hread (t : String) : apply heap .decodeURI [.string t] = decoded isReserved t.toList := rfl
    rw [hread]
    exact decoded_percentEncode hreserved rfl _

end Conversions

end Stepwise
