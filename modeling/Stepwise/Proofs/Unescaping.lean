/-
Reading escapes of code units.

Whatever text is read, it is read to its end.  From left to right it falls into tokens, an escape of
four digits, one of two, or a single character, and it does so in one way: an escape is a token
wherever one begins, and no escape begins like another one.  Each token stands for the units that
it names, and what is read is the text of all these units (`exists_tokenised`).

Halves of a pair may come from different tokens and are put together then.  A half that is left
alone cannot be kept in a text, and the replacement character stands in its place
(`Units.encode_decode`).

What was written with escapes has a token for each unit that was escaped and for each character that
was not, and so it is read as it was.
-/
import Stepwise.Proofs.Escapes
import Stepwise.Proofs.Units

namespace Stepwise

namespace Units

/-! ### Halves without the other half -/

/-- Units with each half of a pair replaced that the other half does not stand beside.  `afterHigh`
tells whether a first half stands in front. -/
def mended (afterHigh : Bool) : List CodeUnit → List CodeUnit
  | [] => []
  | u :: rest =>
    (if isHigh u && !rest.head?.any isLow || isLow u && !afterHigh then replacement.toNat else u) ::
      mended (isHigh u) rest

theorem isLow_of_isHigh {u : Nat} (h : isHigh u = true) : isLow u = false := by
  rw [isHigh_iff] at h
  rw [Bool.eq_false_iff, ne_eq, isLow_iff]
  omega

theorem ofChar_of_lt {c : Char} (hc : c.toNat < 0x10000) : ofChar c = [c.toNat] := if_pos hc

/-- A unit by itself is kept if it is no half of a pair. -/
theorem ofChar_toChar {u : Nat} (hu : u < 0x10000) :
    ofChar (toChar u) = [if isHigh u || isLow u then replacement.toNat else u] := by
  unfold toChar
  split
  · rfl
  · rename_i hwhole
    have hvalid : u.isValidChar := by
      rw [Bool.or_eq_true, isHigh_iff, isLow_iff] at hwhole
      show u < 0xd800 ∨ 0xdfff < u ∧ u < 0x110000
      omega
    have hnumber : (Char.ofNat u).toNat = u := by
      rw [Char.ofNat, dif_pos hvalid]
      rfl
    rw [ofChar_of_lt (by rwa [hnumber]), hnumber]

/-- Two halves are the units of the character that they make. -/
theorem ofChar_pair {u v : Nat} (hhigh : isHigh u = true) (hlow : isLow v = true) :
    ofChar (Char.ofNat (0x10000 + (u - 0xd800) * 0x400 + (v - 0xdc00))) = [u, v] := by
  rw [isHigh_iff] at hhigh
  rw [isLow_iff] at hlow
  generalize hn : 0x10000 + (u - 0xd800) * 0x400 + (v - 0xdc00) = n
  have hvalid : n.isValidChar := by
    show n < 0xd800 ∨ 0xdfff < n ∧ n < 0x110000
    omega
  have hnumber : (Char.ofNat n).toNat = n := by
    rw [Char.ofNat, dif_pos hvalid]
    rfl
  have hhead : 0xd800 + (n - 0x10000) / 0x400 = u := by omega
  have hlast : 0xdc00 + (n - 0x10000) % 0x400 = v := by omega
  rw [ofChar, hnumber, if_neg (by omega), hhead, hlast]

/-- **What is read from units has these units**, but for the halves that stand alone. -/
theorem encode_decode {us : List CodeUnit} (hus : ∀ u ∈ us, u < 0x10000) :
    encode (decode us) = mended false us := by
  fun_induction decode us with
  | case1 => rfl
  | case2 u =>
      rw [encode, List.flatMap_singleton, ofChar_toChar (hus u List.mem_cons_self)]
      simp [mended]
  | case3 u v rest hpair ih =>
      obtain ⟨hhigh, hlow⟩ := Bool.and_eq_true_iff.mp hpair
      have hrest := ih fun w hw => hus w (List.mem_cons_of_mem u (List.mem_cons_of_mem v hw))
      have hnotHigh : isHigh v = false := by
        rw [Bool.eq_false_iff]
        intro h
        rw [isLow_of_isHigh h] at hlow
        cases hlow
      rw [encode, List.flatMap_cons, ← encode, hrest, ofChar_pair hhigh hlow]
      simp [mended, hhigh, hlow, hnotHigh, isLow_of_isHigh hhigh]
  | case4 u v rest hpair ih =>
      have hrest := ih fun w hw => hus w (List.mem_cons_of_mem u hw)
      -- The unit in front of `v` does not make a pair with it, so it does not matter.
      have hmended : mended false (v :: rest) = mended (isHigh u) (v :: rest) := by
        cases hhigh : isHigh u with
        | false => rfl
        | true =>
            have hlow : isLow v = false := by
              rwa [hhigh, Bool.true_and, Bool.not_eq_true] at hpair
            simp [mended, hlow]
      rw [encode, List.flatMap_cons, ← encode, hrest, ofChar_toChar (hus u List.mem_cons_self), hmended,
        mended, List.singleton_append]
      congr 1
      cases hhigh : isHigh u with
      | false => simp
      | true =>
          rw [hhigh, Bool.true_and, Bool.not_eq_true] at hpair
          simp [hpair]

end Units

namespace Escape

open Stepwise.Units (CodeUnit)

/-! ### Tokens -/

/-- A part of a text that stands for units of its own. -/
inductive Token where
  /-- The sign, the letter `u` and four digits. -/
  | wide (a b c d : Char)
  /-- The sign and two digits. -/
  | narrow (a b : Char)
  | single (c : Char)

namespace Token

def text : Token → List Char
  | wide a b c d => ['%', 'u', a, b, c, d]
  | narrow a b => ['%', a, b]
  | single c => [c]

/-- The number that digits write. -/
def number (digits : List Char) : Nat :=
  digits.foldl (fun n c => 16 * n + (hexValue? c).getD 0) 0

/-- The units that a token stands for: the number of an escape, or those of a character. -/
def units : Token → List CodeUnit
  | wide a b c d => [number [a, b, c, d]]
  | narrow a b => [number [a, b]]
  | single c => Units.ofChar c

/-- Is this an escape, with hexadecimal digits where there have to be any? -/
def isEscape : Token → Bool
  | wide a b c d => [a, b, c, d].all fun x => (hexValue? x).isSome
  | narrow a b => [a, b].all fun x => (hexValue? x).isSome
  | single _ => false

end Token

/-- A text in tokens, from left to right: an escape where one begins, and single characters between
them. -/
inductive Tokenised : List Char → List Token → Prop
  | nil : Tokenised [] []
  | escape {token : Token} {rest : List Char} {tokens : List Token} (htoken : token.isEscape = true)
      (h : Tokenised rest tokens) : Tokenised (token.text ++ rest) (token :: tokens)
  | single {c : Char} {rest : List Char} {tokens : List Token}
      (hnone : ∀ token : Token, token.isEscape = true → ¬token.text <+: c :: rest)
      (h : Tokenised rest tokens) : Tokenised (c :: rest) (.single c :: tokens)

variable {t rest : List Char} {token token' : Token} {tokens tokens' : List Token} {a b c d : Char}

theorem Token.isEscape_wide :
    (wide a b c d).isEscape = true ↔
      (hexValue? a).isSome ∧ (hexValue? b).isSome ∧ (hexValue? c).isSome ∧ (hexValue? d).isSome := by
  simp [isEscape]

theorem Token.isEscape_narrow :
    (narrow a b).isEscape = true ↔ (hexValue? a).isSome ∧ (hexValue? b).isSome := by
  simp [isEscape]

/-- **No escape begins like another one**: the letter behind the sign is no digit. -/
theorem Token.eq_of_isPrefix_of_isPrefix (htoken : token.isEscape = true) (htoken' : token'.isEscape = true)
    (h : token.text <+: t) (h' : token'.text <+: t) : token = token' := by
  have hletter : (hexValue? 'u').isSome = false := by decide
  obtain ⟨rest, rfl⟩ := h
  obtain ⟨rest', hsame⟩ := h'
  cases token with
  | single c => cases htoken
  | wide a b c d =>
      cases token' with
      | single c' => cases htoken'
      | wide a' b' c' d' =>
          simp only [text, List.cons_append, List.cons.injEq] at hsame
          obtain ⟨-, -, rfl, rfl, rfl, rfl, -⟩ := hsame
          rfl
      | narrow a' b' =>
          simp only [text, List.cons_append, List.cons.injEq] at hsame
          obtain ⟨-, rfl, -⟩ := hsame
          rw [isEscape_narrow, hletter] at htoken'
          exact absurd htoken'.1 Bool.false_ne_true
  | narrow a b =>
      cases token' with
      | single c' => cases htoken'
      | wide a' b' c' d' =>
          simp only [text, List.cons_append, List.cons.injEq] at hsame
          obtain ⟨-, rfl, -⟩ := hsame
          rw [isEscape_narrow, hletter] at htoken
          exact absurd htoken.1 Bool.false_ne_true
      | narrow a' b' =>
          simp only [text, List.cons_append, List.cons.injEq] at hsame
          obtain ⟨-, rfl, rfl, -⟩ := hsame
          rfl

namespace Tokenised

/-- The tokens are all of the text. -/
theorem flatMap_text (h : Tokenised t tokens) : tokens.flatMap Token.text = t := by
  induction h with
  | nil => rfl
  | escape _ _ ih => rw [List.flatMap_cons, ih]
  | single _ _ ih => rw [List.flatMap_cons, ih]; rfl

/-- There is one way to read a text. -/
theorem unique (h : Tokenised t tokens) (h' : Tokenised t tokens') : tokens' = tokens := by
  induction h generalizing tokens' with
  | nil =>
      generalize hempty : ([] : List Char) = t at h'
      cases h' with
      | nil => rfl
      | @escape token _ _ htoken _ =>
          cases token with
          | single c => cases htoken
          | _ => cases hempty
      | single => cases hempty
  | @escape token rest tokens htoken _ ih =>
      generalize hwhole : token.text ++ rest = t at h'
      cases h' with
      | nil =>
          cases token with
          | single c => cases htoken
          | _ => cases hwhole
      | @escape token' rest' _ htoken' hrest' =>
          obtain rfl := Token.eq_of_isPrefix_of_isPrefix htoken htoken' ⟨rest, hwhole⟩ ⟨rest', rfl⟩
          obtain rfl := List.append_cancel_left hwhole
          rw [ih hrest']
      | single hnone _ => exact absurd ⟨rest, hwhole⟩ (hnone token htoken)
  | @single c rest tokens hnone _ ih =>
      generalize hwhole : c :: rest = t at h'
      cases h' with
      | nil => cases hwhole
      | @escape token' rest' _ htoken' _ => exact absurd ⟨rest', hwhole.symm⟩ (hnone token' htoken')
      | single _ hrest' =>
          cases hwhole
          rw [ih hrest']

end Tokenised

/-! ### Units of tokens -/

theorem pair?_eq_some_iff {n : Nat} : pair? a b = some n ↔
    (Token.narrow a b).isEscape = true ∧ Token.number [a, b] = n := by
  rw [Token.isEscape_narrow, pair?]
  cases ha : hexValue? a <;> cases hb : hexValue? b <;> simp [Token.number, ha, hb]

theorem pair?_eq_none_iff : pair? a b = none ↔ (Token.narrow a b).isEscape = false := by
  rw [← Bool.not_eq_true, Token.isEscape_narrow, pair?]
  cases ha : hexValue? a <;> cases hb : hexValue? b <;> simp

/-- Where no digits follow the sign no escape begins. -/
theorem not_isPrefix_percent (hwide : ∀ a b c d rest', t = 'u' :: a :: b :: c :: d :: rest' →
      (Token.wide a b c d).isEscape = false)
    (hnarrow : ∀ a b rest', t = a :: b :: rest' → (Token.narrow a b).isEscape = false)
    (token : Token) (htoken : token.isEscape = true) : ¬token.text <+: '%' :: t := by
  rintro ⟨rest, hwhole⟩
  cases token with
  | single c => cases htoken
  | wide a b c d =>
      have htail : t = 'u' :: a :: b :: c :: d :: rest := (List.cons.inj hwhole).2.symm
      rw [hwide a b c d rest htail] at htoken
      cases htoken
  | narrow a b =>
      have htail : t = a :: b :: rest := (List.cons.inj hwhole).2.symm
      rw [hnarrow a b rest htail] at htoken
      cases htoken

theorem not_isPrefix_of_ne (hc : c ≠ '%') (token : Token) (htoken : token.isEscape = true) :
    ¬token.text <+: c :: rest := by
  rintro ⟨rest', hwhole⟩
  cases token with
  | single c => cases htoken
  | _ => exact hc (List.cons.inj hwhole).1.symm

theorem number_four (a b c d : Char) :
    Token.number [a, b, c, d] = 256 * Token.number [a, b] + Token.number [c, d] := by
  simp only [Token.number, List.foldl_cons, List.foldl_nil]
  omega

theorem wide_of_pairs {hi lo : Nat} (hhi : pair? a b = some hi) (hlo : pair? c d = some lo) :
    (Token.wide a b c d).isEscape = true ∧ (Token.wide a b c d).units = [256 * hi + lo] := by
  obtain ⟨hfront, rfl⟩ := pair?_eq_some_iff.mp hhi
  obtain ⟨hback, rfl⟩ := pair?_eq_some_iff.mp hlo
  rw [Token.isEscape_narrow] at hfront hback
  exact ⟨Token.isEscape_wide.mpr ⟨hfront.1, hfront.2, hback⟩, by rw [Token.units, number_four]⟩

theorem isEscape_wide_of_pairs (h : pair? a b = none ∨ pair? c d = none) :
    (Token.wide a b c d).isEscape = false := by
  rw [Bool.eq_false_iff, ne_eq, Token.isEscape_wide]
  rintro ⟨ha, hb, hc, hd⟩
  rcases h with h | h
  · exact Bool.false_ne_true ((pair?_eq_none_iff.mp h).symm.trans (Token.isEscape_narrow.mpr ⟨ha, hb⟩))
  · exact Bool.false_ne_true ((pair?_eq_none_iff.mp h).symm.trans (Token.isEscape_narrow.mpr ⟨hc, hd⟩))

theorem isEscape_narrow_letter (b : Char) : (Token.narrow 'u' b).isEscape = false := by
  have hletter : (hexValue? 'u').isSome = false := by decide
  simp [Token.isEscape, hletter]

/-- **A text falls into tokens, and their units are what is read from it.** -/
theorem exists_tokenised (t : List Char) :
    ∃ tokens, Tokenised t tokens ∧ unescapeUnits t = tokens.flatMap Token.units := by
  fun_induction unescapeUnits t with
  | case1 => exact ⟨[], .nil, rfl⟩
  | case2 a b c d rest hi lo hlo hhi ih =>
      obtain ⟨tokens, htokens, hunits⟩ := ih
      obtain ⟨hescape, hvalue⟩ := wide_of_pairs hhi hlo
      exact ⟨_, .escape hescape htokens, by rw [List.flatMap_cons, hvalue, hunits, List.singleton_append]⟩
  | case3 a b c d rest hpairs ih =>
      obtain ⟨tokens, htokens, hunits⟩ := ih
      refine ⟨_, .single (not_isPrefix_percent ?_ ?_) htokens, by rw [List.flatMap_cons, hunits]; rfl⟩
      · rintro a' b' c' d' rest' hsame
        cases hsame
        refine isEscape_wide_of_pairs ?_
        cases hhi : pair? a b with
        | none => exact .inl rfl
        | some hi =>
            cases hlo : pair? c d with
            | none => exact .inr rfl
            | some lo => exact absurd hlo (hpairs hi lo hhi)
      · rintro a' b' rest' hsame
        cases hsame
        exact isEscape_narrow_letter a
  | case4 a b rest hshort n hn ih =>
      obtain ⟨tokens, htokens, hunits⟩ := ih
      obtain ⟨hescape, hvalue⟩ := pair?_eq_some_iff.mp hn
      refine ⟨_, .escape hescape htokens, ?_⟩
      rw [List.flatMap_cons, Token.units, hvalue, hunits, List.singleton_append]
  | case5 a b rest hshort hnone ih =>
      obtain ⟨tokens, htokens, hunits⟩ := ih
      refine ⟨_, .single (not_isPrefix_percent ?_ ?_) htokens, by rw [List.flatMap_cons, hunits]; rfl⟩
      · rintro a' b' c' d' rest' hsame
        cases hsame
        exact (hshort _ _ _ _ rfl rfl).elim
      · rintro a' b' rest' hsame
        cases hsame
        exact pair?_eq_none_iff.mp hnone
  | case6 c rest hwide hnarrow ih =>
      obtain ⟨tokens, htokens, hunits⟩ := ih
      refine ⟨_, .single ?_ htokens, by rw [List.flatMap_cons, hunits]; rfl⟩
      by_cases hc : c = '%'
      · subst hc
        refine not_isPrefix_percent ?_ ?_
        · rintro a' b' c' d' rest' rfl
          exact (hwide _ _ _ _ _ rfl rfl).elim
        · rintro a' b' rest' rfl
          exact (hnarrow _ _ _ rfl rfl).elim
      · exact not_isPrefix_of_ne hc

/-! ### Reading what was written -/

/-- The escape of a unit is read as that unit. -/
theorem unescapeUnits_escapeUnit {u : Nat} (hu : u < 0x10000) (rest : List Char) :
    unescapeUnits (escapeUnit u ++ rest) = u :: unescapeUnits rest := by
  unfold escapeUnit
  split
  · rename_i hsmall
    have hsmall : (u : Nat) < 256 := hsmall
    have hletter : hexChar (u / 16) ≠ 'u' := by
      intro h
      have hnone : hexValue? 'u' = none := by decide
      have hdigit := hexValue?_hexChar (u / 16) (by omega)
      rw [h, hnone] at hdigit
      cases hdigit
    rw [hexPair, List.cons_append, List.cons_append, List.singleton_append, unescapeUnits, pair?_hexChar hsmall]
    exact fun _ _ _ _ h _ => hletter h
  · have hhi := pair?_hexChar (n := u / 256) (by omega)
    have hlo := pair?_hexChar (n := u % 256) (by omega)
    simp only [hexPair, List.cons_append, List.nil_append, unescapeUnits, hhi, hlo, Nat.div_add_mod]

/-- A character that is no sign is read as itself. -/
theorem unescapeUnits_cons (hc : c ≠ '%') (rest : List Char) :
    unescapeUnits (c :: rest) = Units.ofChar c ++ unescapeUnits rest := by
  rw [unescapeUnits]
  · rintro a b c' d rest' rfl
    exact absurd rfl hc
  · rintro a b rest' rfl
    exact absurd rfl hc

theorem ofChar_lt {c : Char} {u : Nat} (hu : u ∈ Units.ofChar c) : u < 0x10000 := by
  have hchar : c.toNat < 0xd800 ∨ 0xdfff < c.toNat ∧ c.toNat < 0x110000 := c.valid
  unfold Units.ofChar at hu
  split at hu
  · rw [List.mem_singleton] at hu
    omega
  · rw [List.mem_pair] at hu
    omega

/-- The units that were escaped are read, whatever comes behind them. -/
theorem unescapeUnits_flatMap {us : List CodeUnit} (hus : ∀ u ∈ us, u < 0x10000) (rest : List Char) :
    unescapeUnits (us.flatMap escapeUnit ++ rest) = us ++ unescapeUnits rest := by
  induction us with
  | nil => rfl
  | cons u us ih =>
      obtain ⟨hu, hrest⟩ := List.forall_mem_cons.mp hus
      rw [List.flatMap_cons, List.append_assoc, unescapeUnits_escapeUnit hu, ih hrest, List.cons_append]

/-- What is read from an escaped text are its units. -/
theorem unescapeUnits_escape (text : List Char) : unescapeUnits (escape text) = Units.encode text := by
  induction text with
  | nil => rfl
  | cons c text ih =>
      rw [escape, List.flatMap_cons, ← escape, Units.encode, List.flatMap_cons, ← Units.encode]
      split
      · rename_i hsafe
        have hsign : c ≠ '%' := by
          rintro rfl
          exact absurd hsafe (by decide)
        rw [List.singleton_append, unescapeUnits_cons hsign, ih]
      · rw [unescapeUnits_flatMap fun u hu => ofChar_lt hu, ih]

/-- **Reading undoes escaping.** -/
theorem unescape_escape (text : List Char) : unescape (escape text) = text := by
  rw [unescape, unescapeUnits_escape, Units.decode_encode]

/-! ### Units of a text -/

theorem hexValue?_lt (c : Char) : (hexValue? c).getD 0 < 16 := by
  have h9 : '9'.toNat = 57 := rfl
  have hf : 'f'.toNat = 102 := rfl
  have hF : 'F'.toNat = 70 := rfl
  have hle (x y : Char) : x ≤ y ↔ x.toNat ≤ y.toNat := Iff.rfl
  unfold hexValue?
  simp only [Bool.and_eq_true, decide_eq_true_eq, hle]
  split
  · show c.toNat - 48 < 16
    omega
  · split
    · show c.toNat - 97 + 10 < 16
      omega
    · split
      · show c.toNat - 65 + 10 < 16
        omega
      · decide

theorem number_pair_lt (a b : Char) : Token.number [a, b] < 256 := by
  have ha := hexValue?_lt a
  have hb := hexValue?_lt b
  simp only [Token.number, List.foldl_cons, List.foldl_nil]
  omega

theorem units_lt {u : Nat} (hu : u ∈ token.units) : u < 0x10000 := by
  cases token with
  | wide a b c d =>
      have hhi := number_pair_lt a b
      have hlo := number_pair_lt c d
      rw [Token.units, List.mem_singleton, number_four] at hu
      omega
  | narrow a b =>
      have hn := number_pair_lt a b
      rw [Token.units, List.mem_singleton] at hu
      omega
  | single c => exact ofChar_lt hu

/-- What is read from a text has the units of its tokens, but for the halves that stand alone. -/
theorem encode_unescape (h : unescapeUnits t = tokens.flatMap Token.units) :
    Units.encode (unescape t) = Units.mended false (tokens.flatMap Token.units) := by
  rw [unescape, h]
  refine Units.encode_decode fun u hu => ?_
  obtain ⟨token, -, hmem⟩ := List.mem_flatMap.mp hu
  exact units_lt hmem

/-- Two halves that were escaped one by one make a character; a third one stands alone. -/
example : unescape "%uD83D%uDE00%u12%uDE00".toList = "😀%u12\ufffd".toList := by decide

end Escape

namespace Conversions

open Escape

/-- **Reading escapes undoes writing them, and reads every text to its end.**  A text that was escaped
comes back whatever it is.  Any other text falls into tokens in one way, which are all of it,
and what is read is the text of the units that they stand for; a half of a pair that stands alone
among these becomes the replacement character. -/
theorem unescaping_reads_all :
    (∀ (heap : Heap) (args : List Value), ∃ written, apply heap .escape args = .ok written ∧
      apply heap .unescape [written] = .ok (.string (heap.textArgument args 0))) ∧
    ∀ (heap : Heap) (args : List Value), ∃ tokens,
      (∀ tokens', Tokenised (heap.textArgument args 0).toList tokens' ↔ tokens' = tokens) ∧
      tokens.flatMap Token.text = (heap.textArgument args 0).toList ∧
      ∃ read : String, apply heap .unescape args = .ok (.string read) ∧
        read = Units.toText (tokens.flatMap Token.units) ∧
        Units.encode read.toList = Units.mended false (tokens.flatMap Token.units) := by
  constructor
  · intro heap args
    refine ⟨_, rfl, ?_⟩
    have hread (t : String) : apply heap .unescape [.string t] =
        .ok (.string (String.ofList (unescape t.toList))) := rfl
    rw [hread, String.toList_ofList, unescape_escape, String.ofList_toList]
  · intro heap args
    obtain ⟨tokens, htokens, hunits⟩ := exists_tokenised (heap.textArgument args 0).toList
    refine ⟨tokens, fun tokens' => ⟨htokens.unique, fun h => h ▸ htokens⟩, htokens.flatMap_text,
      String.ofList (unescape (heap.textArgument args 0).toList), rfl, ?_, ?_⟩
    · rw [unescape, hunits, Units.toText]
    · rw [String.toList_ofList, encode_unescape hunits]

end Conversions

end Stepwise
