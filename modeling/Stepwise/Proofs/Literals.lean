/-
Decimal literals.

A literal is written with a sign or none, with digits on at least one side of a point or with no point at
all, and with a power of ten or none.  `Spelling` names these pieces.  A text is put together from them in
one way only (`Spelling.eq_of_text_eq`), since each piece ends where a character stands that it cannot hold;
so what a literal denotes is read off its pieces.  A text is read as a whole just if it has a spelling
(`read?_isSome_iff`).

The measure of the longest literal at the front of a text goes piece by piece too.  It takes as many digits
as there are, so no literal ends behind it (`Spelling.length_le_literalLength`), and it counts a point or a
power only with the digits that they need, so that a literal ends where it does (`exists_spelling`).
-/
import Mathlib.Data.Rat.Defs
import Mathlib.Algebra.Order.Field.Rat
import Stepwise.Builtin.Conversions
import Stepwise.Builtin.Install
import Stepwise.Proofs.Objects

namespace Stepwise

namespace Decimal

/-! ### Runs of digits -/

/-- Nothing but digits. -/
def AreDigits (text : List Char) : Prop := ∀ c ∈ text, c.isDigit = true

/-- No digit stands in front. -/
def StopsDigits (text : List Char) : Prop := ∀ c ∈ text.head?, c.isDigit = false

variable {digits rest : List Char} {c : Char}

theorem AreDigits.append {more : List Char} (h : AreDigits digits) (hmore : AreDigits more) :
    AreDigits (digits ++ more) :=
  fun c hc => (List.mem_append.mp hc).elim (h c) (hmore c)

theorem stopsDigits_nil : StopsDigits [] := nofun

theorem stopsDigits_cons (hc : c.isDigit = false) (rest : List Char) : StopsDigits (c :: rest) := by
  intro d hd
  cases hd
  exact hc

theorem takeWhile_of_stops (h : StopsDigits rest) : rest.takeWhile Char.isDigit = [] := by
  cases rest with
  | nil => rfl
  | cons c rest => rw [List.takeWhile_cons, h c rfl, if_neg Bool.false_ne_true]

theorem dropWhile_of_stops (h : StopsDigits rest) : rest.dropWhile Char.isDigit = rest := by
  cases rest with
  | nil => rfl
  | cons c rest => rw [List.dropWhile_cons, h c rfl, if_neg Bool.false_ne_true]

/-- A run of digits is all that is taken. -/
theorem takeWhile_digits (hdigits : AreDigits digits) (hrest : StopsDigits rest) :
    (digits ++ rest).takeWhile Char.isDigit = digits := by
  rw [List.takeWhile_append_of_pos hdigits, takeWhile_of_stops hrest, List.append_nil]

theorem dropWhile_digits (hdigits : AreDigits digits) (hrest : StopsDigits rest) :
    (digits ++ rest).dropWhile Char.isDigit = rest := by
  rw [List.dropWhile_append_of_pos hdigits, dropWhile_of_stops hrest]

/-- Every text is a run of digits and what follows it. -/
theorem exists_digits (text : List Char) : ∃ digits rest, text = digits ++ rest ∧ AreDigits digits ∧
    StopsDigits rest ∧ text.takeWhile Char.isDigit = digits ∧ text.dropWhile Char.isDigit = rest := by
  refine ⟨_, _, List.takeWhile_append_dropWhile.symm, fun c hc => ?_, fun c hc => ?_, rfl, rfl⟩
  · exact List.all_eq_true.mp List.all_takeWhile c hc
  · have hfirst := List.head?_dropWhile_not Char.isDigit text
    rw [Option.mem_def.mp hc] at hfirst
    simpa using hfirst

/-- What follows a run of digits is found in one way. -/
theorem digits_unique {digits' rest' : List Char} (hdigits : AreDigits digits) (hdigits' : AreDigits digits')
    (hrest : StopsDigits rest) (hrest' : StopsDigits rest') (h : digits ++ rest = digits' ++ rest') :
    digits = digits' ∧ rest = rest' := by
  constructor
  · rw [← takeWhile_digits hdigits hrest, h, takeWhile_digits hdigits' hrest']
  · rw [← dropWhile_digits hdigits hrest, h, dropWhile_digits hdigits' hrest']

theorem digitRun_append (hdigits : AreDigits digits) (rest : List Char) :
    digitRun (digits ++ rest) = digits.length + digitRun rest := by
  rw [digitRun, List.takeWhile_append_of_pos hdigits, List.length_append, digitRun]

theorem digitRun_of_stops (h : StopsDigits rest) : digitRun rest = 0 := by
  rw [digitRun, takeWhile_of_stops h, List.length_nil]

/-! ### How a literal is written -/

/-- A sign, if there is one; is it a minus? -/
def signText : Option Bool → List Char
  | none => []
  | some true => ['-']
  | some false => ['+']

/-- A number with the sign that is written in front of it. -/
def withSign (sign : Option Bool) (v : ℤ) : ℤ := if sign = some true then -v else v

/-- What begins otherwise than with a sign. -/
def Unsigned (text : List Char) : Prop := ∀ c ∈ text.head?, c ≠ '-' ∧ c ≠ '+'

/-- The point with the digits behind it, if it is there. -/
def pointText : Option (List Char) → List Char
  | none => []
  | some digits => '.' :: digits

/-- A power as it is written. -/
structure Power where
  mark : Char
  sign : Option Bool
  digits : List Char

namespace Power

def text (p : Power) : List Char := p.mark :: (signText p.sign ++ p.digits)

structure Proper (p : Power) : Prop where
  mark : p.mark = 'e' ∨ p.mark = 'E'
  digits : AreDigits p.digits
  some_digit : p.digits ≠ []

/-- The exponent that is written. -/
def exponent (p : Power) : ℤ := withSign p.sign (Nat.ofDigitChars 10 p.digits 0)

end Power

/-- The power, if it is there. -/
def powerText (power : Option Power) : List Char := (power.map Power.text).getD []

/-- A literal as it is written. -/
structure Spelling where
  sign : Option Bool
  whole : List Char
  /-- The digits behind the point, if there is a point. -/
  fraction : Option (List Char)
  power : Option Power

namespace Spelling

/-- What stands behind the sign. -/
def body (sp : Spelling) : List Char := sp.whole ++ (pointText sp.fraction ++ powerText sp.power)

def text (sp : Spelling) : List Char := signText sp.sign ++ sp.body

/-- `[+-]? (D+ (. D*)? | . D+) ([eE] [+-]? D+)?` -/
structure Proper (sp : Spelling) : Prop where
  whole : AreDigits sp.whole
  fraction : AreDigits (sp.fraction.getD [])
  some_digit : sp.whole ++ sp.fraction.getD [] ≠ []
  power : ∀ p ∈ sp.power, p.Proper

/-- The exponent, zero if none is written. -/
def exponent (sp : Spelling) : ℤ := (sp.power.map Power.exponent).getD 0

/-- The number that is denoted, in a radix. -/
def value (radix : ℕ) (sp : Spelling) : ℚ :=
  withSign sp.sign (Nat.ofDigitChars radix (sp.whole ++ sp.fraction.getD []) 0) *
    (radix : ℚ) ^ (sp.exponent - (sp.fraction.getD []).length)

end Spelling

/-- A text that is a literal from end to end. -/
def IsLiteral (text : List Char) : Prop := ∃ sp : Spelling, sp.Proper ∧ sp.text = text

/-! ### Where the pieces end -/

theorem AreDigits.unsigned (hdigits : AreDigits digits) (hrest : Unsigned rest) : Unsigned (digits ++ rest) := by
  cases digits with
  | nil => exact hrest
  | cons c digits =>
      intro d hd
      cases hd
      have hc := hdigits c List.mem_cons_self
      constructor <;> rintro rfl <;> exact absurd hc (by decide)

variable {power : Option Power} {fraction : Option (List Char)}

/-- A power begins with a letter. -/
theorem powerText_first (hpower : ∀ p ∈ power, p.Proper) :
    powerText power = [] ∨ ∃ c rest, powerText power = c :: rest ∧ (c = 'e' ∨ c = 'E') := by
  cases power with
  | none => exact .inl rfl
  | some p => exact .inr ⟨_, _, rfl, (hpower p rfl).mark⟩

theorem stopsDigits_powerText (hpower : ∀ p ∈ power, p.Proper) : StopsDigits (powerText power) := by
  rcases powerText_first hpower with h | ⟨c, rest, h, rfl | rfl⟩ <;> rw [h]
  · exact stopsDigits_nil
  · exact stopsDigits_cons (by decide) _
  · exact stopsDigits_cons (by decide) _

theorem stopsDigits_tail (hpower : ∀ p ∈ power, p.Proper) (fraction : Option (List Char)) :
    StopsDigits (pointText fraction ++ powerText power) := by
  cases fraction with
  | none => exact stopsDigits_powerText hpower
  | some digits => exact stopsDigits_cons (by decide) _

theorem unsigned_tail (hpower : ∀ p ∈ power, p.Proper) (fraction : Option (List Char)) :
    Unsigned (pointText fraction ++ powerText power) := by
  cases fraction with
  | none =>
      show Unsigned (powerText power)
      rcases powerText_first hpower with h | ⟨c, rest, h, rfl | rfl⟩ <;> rw [h]
      · exact nofun
      all_goals
        intro d hd
        cases hd
        decide
  | some digits =>
      intro d hd
      cases hd
      decide

/-- A sign ends where something else begins. -/
theorem signText_unique {sign sign' : Option Bool} {body : List Char} (hbody : Unsigned body) (hrest : Unsigned rest)
    (h : signText sign ++ body = signText sign' ++ rest) : sign = sign' ∧ body = rest := by
  rcases sign with - | - | - <;> rcases sign' with - | - | -
  case none.none => exact ⟨rfl, h⟩
  case some.false.some.false | some.true.some.true => exact ⟨rfl, List.tail_eq_of_cons_eq h⟩
  case none.some.false =>
    obtain rfl : body = '+' :: rest := h
    exact absurd rfl (hbody _ rfl).2
  case none.some.true =>
    obtain rfl : body = '-' :: rest := h
    exact absurd rfl (hbody _ rfl).1
  case some.false.none =>
    obtain rfl : '+' :: body = rest := h
    exact absurd rfl (hrest _ rfl).2
  case some.true.none =>
    obtain rfl : '-' :: body = rest := h
    exact absurd rfl (hrest _ rfl).1
  all_goals cases h

/-- A point with its digits ends where a power begins. -/
theorem pointText_unique {fraction' : Option (List Char)} {power' : Option Power}
    (hfraction : AreDigits (fraction.getD [])) (hfraction' : AreDigits (fraction'.getD []))
    (hpower : ∀ p ∈ power, p.Proper) (hpower' : ∀ p ∈ power', p.Proper)
    (h : pointText fraction ++ powerText power = pointText fraction' ++ powerText power') :
    fraction = fraction' ∧ powerText power = powerText power' := by
  have hpoint {q : Option Power} (hq : ∀ p ∈ q, p.Proper) (ds rest : List Char) : powerText q ≠ '.' :: ds ++ rest := by
    intro heq
    rcases powerText_first hq with hnil | ⟨c, rest', hcons, rfl | rfl⟩
    · rw [hnil] at heq
      cases heq
    all_goals
      rw [hcons] at heq
      cases heq
  cases fraction with
  | none =>
      cases fraction' with
      | none => exact ⟨rfl, h⟩
      | some ds => exact absurd h (hpoint hpower ds _)
  | some ds =>
      cases fraction' with
      | none => exact absurd h.symm (hpoint hpower' ds _)
      | some ds' =>
          obtain ⟨rfl, hrest⟩ := digits_unique hfraction hfraction' (stopsDigits_powerText hpower)
            (stopsDigits_powerText hpower') (List.tail_eq_of_cons_eq h)
          exact ⟨rfl, hrest⟩

theorem powerText_unique {power' : Option Power} (hpower : ∀ p ∈ power, p.Proper) (hpower' : ∀ p ∈ power', p.Proper)
    (h : powerText power = powerText power') : power = power' := by
  cases power with
  | none =>
      cases power' with
      | none => rfl
      | some p => cases h
  | some p =>
      cases power' with
      | none => cases h
      | some p' =>
          obtain ⟨mark, sign, digits⟩ := p
          obtain ⟨mark', sign', digits'⟩ := p'
          have hp := hpower _ rfl
          have hp' := hpower' _ rfl
          obtain ⟨rfl, hrest⟩ := List.cons.inj
            (show mark :: (signText sign ++ digits) = mark' :: (signText sign' ++ digits') from h)
          have hunsigned {ds : List Char} (hds : AreDigits ds) : Unsigned ds := by
            simpa using hds.unsigned (show Unsigned [] from nofun)
          obtain ⟨rfl, rfl⟩ := signText_unique (hunsigned hp.digits) (hunsigned hp'.digits) hrest
          rfl

/-- **A text has one spelling at most.** -/
theorem Spelling.eq_of_text_eq {sp sp' : Spelling} (h : sp.Proper) (h' : sp'.Proper) (heq : sp.text = sp'.text) :
    sp = sp' := by
  obtain ⟨sign, whole, fraction, power⟩ := sp
  obtain ⟨sign', whole', fraction', power'⟩ := sp'
  obtain ⟨rfl, hbody⟩ := signText_unique (h.whole.unsigned (unsigned_tail h.power _))
    (h'.whole.unsigned (unsigned_tail h'.power _)) heq
  obtain ⟨rfl, htail⟩ := digits_unique h.whole h'.whole (stopsDigits_tail h.power _) (stopsDigits_tail h'.power _) hbody
  obtain ⟨rfl, hpower⟩ := pointText_unique h.fraction h'.fraction h.power h'.power htail
  obtain rfl := powerText_unique h.power h'.power hpower
  rfl

/-! ### Reading a whole text -/

/-- The exponent that is read, which stops growing at a limit. -/
def Power.read (p : Power) : ℤ := withSign p.sign (exponentOfDigits p.digits)

/-- What is read. -/
def Spelling.literal (sp : Spelling) : Literal :=
  ⟨sp.sign == some true, ofDigits (sp.whole ++ sp.fraction.getD []),
    (sp.power.map Power.read).getD 0 - (sp.fraction.getD []).length⟩

theorem splitSign_signText {body : List Char} (hbody : Unsigned body) (sign : Option Bool) :
    splitSign (signText sign ++ body) = (sign == some true, body) := by
  rcases sign with - | - | -
  · cases body with
    | nil => rfl
    | cons c body =>
        obtain ⟨hminus, hplus⟩ := hbody c rfl
        show splitSign (c :: body) = _
        unfold splitSign
        split
        · rename_i heq
          exact absurd (List.cons.inj heq).1 hminus
        · rename_i heq
          exact absurd (List.cons.inj heq).1 hplus
        · rfl
  · rfl
  · rfl

theorem exists_splitSign (text : List Char) : ∃ sign body, text = signText sign ++ body ∧
    splitSign text = (sign == some true, body) := by
  unfold splitSign
  split
  · exact ⟨some true, _, rfl, rfl⟩
  · exact ⟨some false, _, rfl, rfl⟩
  · exact ⟨none, _, rfl, rfl⟩

theorem readExponent?_powerText (hpower : ∀ p ∈ power, p.Proper) :
    readExponent? (powerText power) = some ((power.map Power.read).getD 0) := by
  cases power with
  | none => rfl
  | some p =>
      obtain ⟨hmark, hdigits, hsome⟩ := hpower p rfl
      have hunsigned : Unsigned p.digits := by simpa using hdigits.unsigned (show Unsigned [] from nofun)
      have hgiven : (p.digits.isEmpty || !p.digits.all Char.isDigit) = false := by
        rw [List.all_eq_true.mpr hdigits, List.isEmpty_eq_false_iff.mpr hsome]
        rfl
      show readExponent? (p.mark :: (signText p.sign ++ p.digits)) = some p.read
      rw [readExponent?, if_pos (by simpa using hmark), splitSign_signText hunsigned]
      simp only [hgiven, Bool.false_eq_true, if_false]
      rw [Power.read, withSign]
      simp only [beq_iff_eq]

/-- What is read as a power is none, or one that is written. -/
theorem exists_powerText {text : List Char} (h : (readExponent? text).isSome = true) :
    ∃ power : Option Power, (∀ p ∈ power, p.Proper) ∧ powerText power = text := by
  cases text with
  | nil => exact ⟨none, nofun, rfl⟩
  | cons c rest =>
      unfold readExponent? at h
      obtain ⟨sign, digits, rfl, hsplit⟩ := exists_splitSign rest
      dsimp only at h
      rw [hsplit] at h
      split at h
      · rename_i hmark
        split at h
        · cases h
        · rename_i hdigits
          simp only [Bool.or_eq_true, Bool.not_eq_true', not_or, List.isEmpty_iff, Bool.not_eq_false] at hdigits
          refine ⟨some ⟨c, sign, digits⟩, ?_, rfl⟩
          intro p hp
          cases hp
          exact ⟨by simpa using hmark, List.all_eq_true.mp hdigits.2, hdigits.1⟩
      · cases h

/-- The digits behind a point, if there is one, and what follows. -/
def splitPoint : List Char → Option (List Char) × List Char
  | '.' :: rest => (some (rest.takeWhile Char.isDigit), rest.dropWhile Char.isDigit)
  | rest => (none, rest)

theorem splitPoint_pointText (hfraction : AreDigits (fraction.getD [])) (hpower : ∀ p ∈ power, p.Proper) :
    splitPoint (pointText fraction ++ powerText power) = (fraction, powerText power) := by
  cases fraction with
  | none =>
      show splitPoint (powerText power) = _
      rcases powerText_first hpower with h | ⟨c, rest, h, rfl | rfl⟩ <;> rw [h] <;> rfl
  | some digits =>
      have hstops := stopsDigits_powerText hpower
      change AreDigits digits at hfraction
      show (some ((digits ++ powerText power).takeWhile Char.isDigit),
        (digits ++ powerText power).dropWhile Char.isDigit) = _
      rw [takeWhile_digits hfraction hstops, dropWhile_digits hfraction hstops]

theorem exists_splitPoint (text : List Char) : ∃ fraction rest, text = pointText fraction ++ rest ∧
    AreDigits (fraction.getD []) ∧ splitPoint text = (fraction, rest) := by
  unfold splitPoint
  split
  · rename_i rest
    obtain ⟨digits, rest', hsplit, hdigits, -, htake, hdrop⟩ := exists_digits rest
    exact ⟨_, _, by rw [htake, hdrop, hsplit]; rfl, by rw [htake]; exact hdigits, rfl⟩
  · exact ⟨none, _, rfl, nofun, rfl⟩

/-- A text is read piece by piece. -/
theorem read?_eq (text : List Char) :
    read? text =
      let (negative, body) := splitSign text
      let whole := body.takeWhile Char.isDigit
      let (fraction, rest) := splitPoint (body.dropWhile Char.isDigit)
      if whole ++ fraction.getD [] = [] then none
      else (readExponent? rest).map fun e =>
        ⟨negative, ofDigits (whole ++ fraction.getD []), e - (fraction.getD []).length⟩ := by
  unfold read?
  dsimp only
  generalize (splitSign text).2.dropWhile Char.isDigit = tail
  split
  · simp [splitPoint]
  · rename_i hother
    rw [splitPoint.eq_2 tail hother]
    simp

theorem read?_text {sp : Spelling} (h : sp.Proper) : read? sp.text = some sp.literal := by
  have htail := stopsDigits_tail h.power sp.fraction
  have hsign : splitSign sp.text = (sp.sign == some true, sp.body) :=
    splitSign_signText (h.whole.unsigned (unsigned_tail h.power _)) _
  rw [read?_eq, hsign]
  dsimp only [Spelling.body]
  rw [takeWhile_digits h.whole htail, dropWhile_digits h.whole htail, splitPoint_pointText h.fraction h.power]
  dsimp only
  rw [if_neg h.some_digit, readExponent?_powerText h.power]
  rfl

theorem isLiteral_of_read? {text : List Char} (h : (read? text).isSome = true) : IsLiteral text := by
  rw [read?_eq] at h
  obtain ⟨sign, body, rfl, hsign⟩ := exists_splitSign text
  obtain ⟨whole, tail, rfl, hwhole, -, htake, hdrop⟩ := exists_digits body
  obtain ⟨fraction, rest, rfl, hfraction, hpoint⟩ := exists_splitPoint tail
  rw [hsign] at h
  dsimp only at h
  rw [htake, hdrop, hpoint] at h
  dsimp only at h
  split at h
  · cases h
  · rename_i hsome
    rw [Option.isSome_map] at h
    obtain ⟨power, hpower, rfl⟩ := exists_powerText h
    exact ⟨⟨sign, whole, fraction, power⟩, ⟨hwhole, hfraction, hsome, hpower⟩, rfl⟩

/-- **A text is read as a whole just if it is a literal.** -/
theorem read?_isSome_iff {text : List Char} : (read? text).isSome = true ↔ IsLiteral text := by
  refine ⟨isLiteral_of_read?, ?_⟩
  rintro ⟨sp, hsp, rfl⟩
  rw [read?_text hsp]
  rfl

/-! ### The longest literal in front -/

/-- The length of a sign in front of a text. -/
def signLength : List Char → Nat
  | c :: _ => if c == '-' || c == '+' then 1 else 0
  | [] => 0

theorem signLength_signText {sign : Option Bool} {body : List Char} (hbody : sign = none → Unsigned body) :
    signLength (signText sign ++ body) = (signText sign).length := by
  rcases sign with - | - | -
  · cases body with
    | nil => rfl
    | cons c body =>
        obtain ⟨hminus, hplus⟩ := hbody rfl c rfl
        show (if c == '-' || c == '+' then 1 else 0) = 0
        rw [if_neg (by simp [hminus, hplus])]
  · rfl
  · rfl

theorem exists_signText (text : List Char) :
    ∃ sign body, text = signText sign ++ body ∧ (sign = none → Unsigned body) := by
  cases text with
  | nil => exact ⟨none, [], rfl, nofun⟩
  | cons c rest =>
      by_cases hminus : c = '-'
      · exact ⟨some true, rest, by rw [hminus]; rfl, nofun⟩
      · by_cases hplus : c = '+'
        · exact ⟨some false, rest, by rw [hplus]; rfl, nofun⟩
        · refine ⟨none, c :: rest, rfl, fun _ d hd => ?_⟩
          cases hd
          exact ⟨hminus, hplus⟩

theorem literalLength_eq (text : List Char) :
    literalLength text =
      let body := text.drop (signLength text)
      if mantissaLength body = 0 then 0
      else signLength text + (mantissaLength body + exponentLength (body.drop (mantissaLength body))) := by
  have hlength : literalLength text =
      if mantissaLength (text.drop (signLength text)) == 0 then 0
      else signLength text + mantissaLength (text.drop (signLength text)) +
        exponentLength (text.drop (signLength text + mantissaLength (text.drop (signLength text)))) := by
    cases text <;> rfl
  simp only [hlength, beq_iff_eq, List.drop_drop, Nat.add_assoc]

/-! #### The digits and the point -/

section

variable {whole : List Char} (hwhole : AreDigits whole)

include hwhole

theorem mantissaLength_point (rest : List Char) : mantissaLength (whole ++ '.' :: rest) =
    if whole = [] ∧ digitRun rest = 0 then 0 else whole.length + 1 + digitRun rest := by
  have hrun : digitRun (whole ++ '.' :: rest) = whole.length := by
    rw [digitRun_append hwhole, digitRun_of_stops (stopsDigits_cons (by decide) _), Nat.add_zero]
  unfold mantissaLength
  dsimp only
  rw [hrun, List.drop_left]
  simp

theorem mantissaLength_whole {rest : List Char} (hrest : StopsDigits rest) (hpoint : rest.head? ≠ some '.') :
    mantissaLength (whole ++ rest) = whole.length := by
  have hrun : digitRun (whole ++ rest) = whole.length := by
    rw [digitRun_append hwhole, digitRun_of_stops hrest, Nat.add_zero]
  unfold mantissaLength
  dsimp only
  rw [hrun, List.drop_left]
  split
  · exact absurd rfl hpoint
  · rfl

/-- What is measured of a text that begins with digits, and a point perhaps, is these at least. -/
theorem le_mantissaLength (hfraction : AreDigits (fraction.getD [])) (hsome : whole ++ fraction.getD [] ≠ [])
    (rest : List Char) :
    (whole ++ pointText fraction).length ≤ mantissaLength (whole ++ (pointText fraction ++ rest)) := by
  cases fraction with
  | none =>
      obtain ⟨digits, rest, rfl, hdigits, hrest, -, -⟩ := exists_digits rest
      have hgiven : whole ≠ [] := by simpa using hsome
      have hrun := hwhole.append hdigits
      show (whole ++ []).length ≤ mantissaLength (whole ++ (digits ++ rest))
      rw [List.append_nil, ← List.append_assoc]
      by_cases hpoint : rest.head? = some '.'
      · obtain ⟨rest, rfl⟩ := List.head?_eq_some_iff.mp hpoint
        rw [mantissaLength_point hrun, if_neg (by simp [hgiven]), List.length_append]
        omega
      · rw [mantissaLength_whole hrun hrest hpoint, List.length_append]
        omega
  | some digits =>
      have hrun : digitRun (digits ++ rest) = digits.length + digitRun rest := digitRun_append hfraction rest
      have hgiven : ¬(whole = [] ∧ digitRun (digits ++ rest) = 0) := by
        rintro ⟨rfl, hzero⟩
        have hpos : 0 < digits.length := List.length_pos_iff.mpr (by simpa using hsome)
        omega
      show (whole ++ '.' :: digits).length ≤ mantissaLength (whole ++ '.' :: (digits ++ rest))
      rw [mantissaLength_point hwhole, if_neg hgiven, hrun, List.length_append, List.length_cons]
      omega

/-- No digit is left that could be taken, and no point either if there is none yet. -/
theorem mantissaLength_eq (hfraction : AreDigits (fraction.getD [])) (hsome : whole ++ fraction.getD [] ≠ [])
    {rest : List Char} (hrest : StopsDigits rest) (hpoint : fraction = none → rest.head? ≠ some '.') :
    mantissaLength (whole ++ (pointText fraction ++ rest)) = (whole ++ pointText fraction).length := by
  cases fraction with
  | none =>
      show mantissaLength (whole ++ rest) = (whole ++ []).length
      rw [mantissaLength_whole hwhole hrest (hpoint rfl), List.append_nil]
  | some digits =>
      have hrun : digitRun (digits ++ rest) = digits.length + digitRun rest := digitRun_append hfraction rest
      rw [digitRun_of_stops hrest, Nat.add_zero] at hrun
      have hgiven : ¬(whole = [] ∧ digitRun (digits ++ rest) = 0) := by
        rintro ⟨rfl, hzero⟩
        have hpos : 0 < digits.length := List.length_pos_iff.mpr (by simpa using hsome)
        omega
      show mantissaLength (whole ++ '.' :: (digits ++ rest)) = (whole ++ '.' :: digits).length
      rw [mantissaLength_point hwhole, if_neg hgiven, hrun, List.length_append, List.length_cons]
      omega

end

/-- What is measured is digits, with a point perhaps, and a digit is among them. -/
theorem exists_mantissa {text : List Char} (h : mantissaLength text ≠ 0) : ∃ whole fraction rest,
    text = whole ++ (pointText fraction ++ rest) ∧ AreDigits whole ∧ AreDigits (fraction.getD []) ∧
      whole ++ fraction.getD [] ≠ [] ∧ mantissaLength text = (whole ++ pointText fraction).length := by
  obtain ⟨whole, tail, rfl, hwhole, htail, -, -⟩ := exists_digits text
  by_cases hpoint : tail.head? = some '.'
  · obtain ⟨rest, rfl⟩ := List.head?_eq_some_iff.mp hpoint
    obtain ⟨digits, rest, rfl, hdigits, hrest, -, -⟩ := exists_digits rest
    have hsome : whole ++ (some digits).getD [] ≠ [] := by
      intro hnil
      obtain ⟨rfl, rfl⟩ := List.append_eq_nil_iff.mp hnil
      rw [mantissaLength_point hwhole, if_pos ⟨rfl, digitRun_of_stops hrest⟩] at h
      exact h rfl
    exact ⟨whole, some digits, rest, rfl, hwhole, hdigits, hsome,
      mantissaLength_eq hwhole (show AreDigits ((some digits).getD []) from hdigits) hsome hrest nofun⟩
  · have hsome : whole ++ (none : Option (List Char)).getD [] ≠ [] := by
      intro hnil
      rw [mantissaLength_whole hwhole htail hpoint] at h
      exact h (by simpa using hnil)
    have hnone : AreDigits ((none : Option (List Char)).getD []) := by simp [AreDigits]
    exact ⟨whole, none, tail, rfl, hwhole, hnone, hsome, mantissaLength_eq hwhole hnone hsome htail fun _ => hpoint⟩

/-! #### The power -/

theorem exponentLength_mark {sign : Option Bool} (hmark : c = 'e' ∨ c = 'E') (hdigits : AreDigits digits)
    (hrest : StopsDigits rest) (hsign : sign = none → Unsigned (digits ++ rest)) :
    exponentLength (c :: (signText sign ++ (digits ++ rest))) =
      if digits = [] then 0 else 1 + ((signText sign).length + digits.length) := by
  have hletter : (c == 'e' || c == 'E') = true := by simpa using hmark
  have hrun : digitRun (digits ++ rest) = digits.length := by
    rw [digitRun_append hdigits, digitRun_of_stops hrest, Nat.add_zero]
  unfold exponentLength
  dsimp only
  rw [if_pos hletter]
  rcases sign with - | - | -
  · have hunsigned := hsign rfl
    have hnil : (signText none ++ (digits ++ rest)) = digits ++ rest := rfl
    rw [hnil]
    cases hbody : digits ++ rest with
    | nil =>
        obtain ⟨rfl, rfl⟩ := List.append_eq_nil_iff.mp hbody
        rfl
    | cons d body =>
        rw [hbody] at hrun hunsigned
        obtain ⟨hminus, hplus⟩ := hunsigned d rfl
        dsimp only
        rw [if_neg (by simp [hminus, hplus]), hrun]
        simp [signText]
  all_goals
    show (if (digitRun (digits ++ rest) == 0) = true then 0 else 2 + digitRun (digits ++ rest)) = _
    rw [hrun]
    simp [signText, ← Nat.add_assoc]

theorem le_exponentLength {p : Power} (hp : p.Proper) (rest : List Char) :
    p.text.length ≤ exponentLength (p.text ++ rest) := by
  obtain ⟨mark, sign, digits⟩ := p
  obtain ⟨hmark, hdigits, hsome⟩ := hp
  dsimp only at hmark hdigits hsome
  obtain ⟨more, rest, rfl, hmore, hrest, -, -⟩ := exists_digits rest
  have htext : Power.text ⟨mark, sign, digits⟩ ++ (more ++ rest) =
        mark :: (signText sign ++ (digits ++ more ++ rest)) := by
    simp [Power.text]
  rw [htext, exponentLength_mark hmark (hdigits.append hmore) hrest, if_neg (by simp [hsome])]
  · simp [Power.text]
    omega
  · intro _
    cases digits with
    | nil => exact absurd rfl hsome
    | cons d digits =>
        intro d' hd'
        cases hd'
        have hdigit := hdigits d List.mem_cons_self
        constructor <;> rintro rfl <;> exact absurd hdigit (by decide)

/-- What is measured of a power is a power or nothing. -/
theorem exists_power (text : List Char) : ∃ (power : Option Power) (rest : List Char),
    (∀ p ∈ power, p.Proper) ∧ text = powerText power ++ rest ∧ exponentLength text = (powerText power).length := by
  by_cases hzero : exponentLength text = 0
  · exact ⟨none, text, nofun, rfl, hzero⟩
  · cases text with
    | nil => exact absurd rfl hzero
    | cons c rest =>
        by_cases hmark : c = 'e' ∨ c = 'E'
        · obtain ⟨sign, body, rfl, hsign⟩ := exists_signText rest
          obtain ⟨digits, rest, rfl, hdigits, hrest, -, -⟩ := exists_digits body
          have hlength := exponentLength_mark hmark hdigits hrest hsign
          have hsome : digits ≠ [] := by
            rintro rfl
            exact hzero hlength
          refine ⟨some ⟨c, sign, digits⟩, rest, ?_, ?_, ?_⟩
          · intro p hp
            cases hp
            exact ⟨hmark, hdigits, hsome⟩
          · simp [powerText, Power.text]
          · rw [hlength, if_neg hsome]
            simp [powerText, Power.text]
            omega
        · unfold exponentLength at hzero
          dsimp only at hzero
          rw [if_neg (by simpa using hmark)] at hzero
          exact absurd rfl hzero

/-! #### The literal -/

theorem Spelling.Proper.body_ne_nil {sp : Spelling} (h : sp.Proper) : sp.body ≠ [] := by
  have hsome := h.some_digit
  obtain ⟨sign, whole, fraction, power⟩ := sp
  intro hnil
  obtain ⟨rfl, htail⟩ := List.append_eq_nil_iff.mp
    (show whole ++ (pointText fraction ++ powerText power) = [] from hnil)
  cases fraction with
  | none => exact hsome rfl
  | some digits => cases htail

theorem Spelling.Proper.unsigned {sp : Spelling} (h : sp.Proper) (rest : List Char) : Unsigned (sp.body ++ rest) := by
  intro c hc
  rw [List.head?_append_of_ne_nil _ h.body_ne_nil] at hc
  exact h.whole.unsigned (unsigned_tail h.power _) c hc

/-- **No literal in front is longer than what is measured.** -/
theorem Spelling.length_le_literalLength {sp : Spelling} (h : sp.Proper) (rest : List Char) :
    sp.text.length ≤ literalLength (sp.text ++ rest) := by
  have hsign : signLength (signText sp.sign ++ (sp.body ++ rest)) = (signText sp.sign).length :=
    signLength_signText fun _ => h.unsigned rest
  have hmantissa := le_mantissaLength h.whole h.fraction h.some_digit (powerText sp.power ++ rest)
  have hbody : sp.body ++ rest = sp.whole ++ (pointText sp.fraction ++ (powerText sp.power ++ rest)) := by
    simp [Spelling.body]
  have hpos : 0 < (sp.whole ++ pointText sp.fraction).length := by
    refine List.length_pos_iff.mpr fun hnil => h.some_digit ?_
    obtain ⟨hwhole, hpoint⟩ := List.append_eq_nil_iff.mp hnil
    cases hfraction : sp.fraction with
    | none => rw [hwhole]; rfl
    | some digits => rw [hfraction] at hpoint; cases hpoint
  rw [Spelling.text, List.append_assoc, literalLength_eq, hsign, List.drop_left, hbody]
  dsimp only
  rw [if_neg (by omega), Spelling.body]
  cases hpower : sp.power with
  | none =>
      rw [hpower] at hmantissa
      simp only [powerText, Option.map_none, Option.getD_none, List.nil_append, List.append_nil, List.length_append]
        at hmantissa ⊢
      omega
  | some p =>
      -- The letter of the power ends the digits, so that these are all measured before it.
      have hp := h.power p hpower
      have htext : powerText (some p) = p.text := rfl
      have hletter : StopsDigits (p.text ++ rest) ∧ (p.text ++ rest).head? ≠ some '.' := by
        rw [Power.text, List.cons_append]
        rcases hp.mark with hmark | hmark <;> rw [hmark] <;> exact ⟨stopsDigits_cons (by decide) _, by simp⟩
      have hexact := mantissaLength_eq h.whole h.fraction h.some_digit hletter.1 fun _ => hletter.2
      have hexponent := le_exponentLength hp rest
      rw [htext, hexact, ← List.append_assoc sp.whole (pointText sp.fraction) (p.text ++ rest), List.drop_left]
      simp only [List.length_append] at hexponent ⊢
      omega

/-- **What is measured is a literal**, or nothing. -/
theorem exists_spelling {text : List Char} (h : literalLength text ≠ 0) : ∃ (sp : Spelling) (rest : List Char),
    sp.Proper ∧ text = sp.text ++ rest ∧ literalLength text = sp.text.length := by
  obtain ⟨sign, body, rfl, hsign⟩ := exists_signText text
  rw [literalLength_eq, signLength_signText hsign, List.drop_left] at h ⊢
  dsimp only at h ⊢
  split at h
  · exact absurd rfl h
  · rename_i hmantissa
    rw [if_neg hmantissa]
    obtain ⟨whole, fraction, rest, rfl, hwhole, hfraction, hsome, hlength⟩ := exists_mantissa hmantissa
    obtain ⟨power, rest, hpower, rfl, hexponent⟩ := exists_power rest
    refine ⟨⟨sign, whole, fraction, power⟩, rest, ⟨hwhole, hfraction, hsome, hpower⟩, ?_, ?_⟩
    · simp [Spelling.text, Spelling.body]
    · rw [hlength, ← List.append_assoc whole, List.drop_left, hexponent]
      simp only [Spelling.text, Spelling.body, List.length_append]
      omega

/-- The length of the longest literal that a text begins with, zero if it begins with none. -/
structure IsLongestLiteral (text : List Char) (n : ℕ) : Prop where
  literal : n ≠ 0 → IsLiteral (text.take n)
  longest : ∀ literal, literal <+: text → IsLiteral literal → literal.length ≤ n
  none : n = 0 → ∀ literal, literal <+: text → ¬IsLiteral literal

theorem isLongestLiteral_literalLength (text : List Char) : IsLongestLiteral text (literalLength text) := by
  have hlongest : ∀ literal, literal <+: text → IsLiteral literal → literal.length ≤ literalLength text := by
    rintro _ ⟨rest, rfl⟩ ⟨sp, hsp, rfl⟩
    exact sp.length_le_literalLength hsp rest
  refine ⟨fun hsome => ?_, hlongest, fun hzero literal hfront hliteral => ?_⟩
  · obtain ⟨sp, rest, hsp, htext, hlength⟩ := exists_spelling hsome
    rw [hlength]
    conv in (List.take _ text) => rw [htext]
    rw [List.take_left]
    exact ⟨sp, hsp, rfl⟩
  · have hlength := hlongest literal hfront hliteral
    obtain ⟨sp, hsp, rfl⟩ := hliteral
    have hpos : 0 < sp.text.length := by
      refine List.length_pos_iff.mpr fun hnil => hsp.body_ne_nil ?_
      exact (List.append_eq_nil_iff.mp hnil).2
    omega

/-! ### The characters of a literal -/

/-- What a literal is written with. -/
def IsLiteralChar (c : Char) : Prop := c.isDigit = true ∨ c ∈ ['.', 'e', 'E', '+', '-']

theorem IsLiteralChar.not_isBlank (h : IsLiteralChar c) : Blank.isBlank c = false := by
  rcases h with hdigit | hmark
  · have hrange := toNat_of_isDigit hdigit
    simp only [Blank.isBlank, Blank.isSpace, Bool.or_eq_false_iff, Bool.and_eq_false_iff, decide_eq_false_iff_not,
      beq_eq_false_iff_ne]
    omega
  · simp only [List.mem_cons, List.not_mem_nil, or_false] at hmark
    rcases hmark with rfl | rfl | rfl | rfl | rfl <;> decide

theorem IsLiteralChar.ne_letter (h : IsLiteralChar c) : c ≠ 'I' := by
  rintro rfl
  rcases h with hdigit | hmark
  · exact absurd hdigit (by decide)
  · exact absurd hmark (by decide)

theorem isLiteralChar_signText {sign : Option Bool} : ∀ c ∈ signText sign, IsLiteralChar c := by
  rcases sign with - | - | - <;> intro c hc
  · cases hc
  all_goals
    cases List.mem_singleton.mp hc
    exact .inr (by decide)

theorem Spelling.Proper.isLiteralChar {sp : Spelling} (h : sp.Proper) : ∀ c ∈ sp.text, IsLiteralChar c := by
  intro c hc
  simp only [Spelling.text, Spelling.body, List.mem_append] at hc
  rcases hc with hc | hc | hc | hc
  · exact isLiteralChar_signText c hc
  · exact .inl (h.whole c hc)
  · have hdigits := h.fraction
    cases hfraction : sp.fraction with
    | none =>
        rw [hfraction] at hc
        cases hc
    | some digits =>
        rw [hfraction] at hc hdigits
        rcases List.mem_cons.mp hc with rfl | hc
        · exact .inr (by decide)
        · exact .inl (hdigits c hc)
  · cases hpower : sp.power with
    | none =>
        rw [hpower] at hc
        cases hc
    | some p =>
        obtain ⟨hmark, hdigits, -⟩ := h.power p hpower
        rw [hpower] at hc
        rcases List.mem_cons.mp hc with rfl | hc
        · rcases hmark with hmark | hmark <;> rw [hmark] <;> exact .inr (by decide)
        · rcases List.mem_append.mp hc with hc | hc
          · exact isLiteralChar_signText c hc
          · exact .inl (hdigits c hc)

end Decimal

/-! ### Texts of numbers -/

/-- What is trimmed at the end is blank. -/
theorem Blank.exists_trimRight (text : List Char) :
    ∃ blanks, text = trimRight text ++ blanks ∧ ∀ c ∈ blanks, isBlank c = true := by
  refine ⟨(text.reverse.takeWhile isBlank).reverse, ?_, fun c hc => ?_⟩
  · rw [trimRight, ← List.reverse_append, List.takeWhile_append_dropWhile, List.reverse_reverse]
  · exact List.all_eq_true.mp List.all_takeWhile c (List.mem_reverse.mp hc)

namespace Reading

open Decimal

/-- Behind a literal, blanks do not lengthen it. -/
theorem literalLength_append_blanks {literal blanks : List Char} (hliteral : IsLiteral literal)
    (hblanks : ∀ c ∈ blanks, Blank.isBlank c = true) : literalLength (literal ++ blanks) = literal.length := by
  obtain ⟨sp, hsp, rfl⟩ := hliteral
  have hle := sp.length_le_literalLength hsp blanks
  have hpos : 0 < sp.text.length := by
    refine List.length_pos_iff.mpr fun hnil => hsp.body_ne_nil ?_
    exact (List.append_eq_nil_iff.mp hnil).2
  have hsome : literalLength (sp.text ++ blanks) ≠ 0 := by omega
  obtain ⟨sp', rest, hsp', htext, hlength⟩ := exists_spelling hsome
  rw [hlength] at hle ⊢
  obtain ⟨more, hmore⟩ : sp.text <+: sp'.text :=
    List.prefix_of_prefix_length_le (List.prefix_append _ blanks) ⟨rest, htext.symm⟩ hle
  -- What there were more would be both blank and of a literal.
  cases more with
  | nil => rw [← hmore, List.append_nil]
  | cons c more =>
      rw [← hmore, List.append_assoc] at htext
      have hblank : c ∈ blanks := by
        rw [List.append_cancel_left htext]
        exact List.mem_cons_self
      have hchar := hsp'.isLiteralChar c (hmore ▸ List.mem_append_right _ List.mem_cons_self)
      exact absurd (hblanks c hblank) (by rw [hchar.not_isBlank]; exact Bool.false_ne_true)

/-- A word with a letter that no literal has is no front of a literal with blanks behind it. -/
theorem not_isPrefixOf_literal {literal blanks word : List Char} (hliteral : IsLiteral literal)
    (hblanks : ∀ c ∈ blanks, Blank.isBlank c = true) (hword : 'I' ∈ word) :
    word.isPrefixOf (literal ++ blanks) = false := by
  rw [Bool.eq_false_iff]
  intro hfront
  obtain ⟨sp, hsp, rfl⟩ := hliteral
  rcases List.mem_append.mp ((List.isPrefixOf_iff_prefix.mp hfront).subset hword) with hmem | hmem
  · exact (hsp.isLiteralChar _ hmem).ne_letter rfl
  · exact absurd (hblanks _ hmem) (by decide)

theorem hexBody?_eq_none {text : List Char} (hlower : ¬"0x".toList <+: text) (hupper : ¬"0X".toList <+: text) :
    hexBody? text = none := by
  unfold hexBody?
  split
  · exact absurd (List.prefix_append ['0', 'x'] _) hlower
  · exact absurd (List.prefix_append ['0', 'X'] _) hupper
  · rfl

/-- The number of a text that is not hexadecimal. -/
theorem number_eq {text : List Char} (hsome : Blank.trim text ≠ []) (hdecimal : hexBody? (Blank.trim text) = none) :
    number text =
      if Blank.trim text == "Infinity".toList || Blank.trim text == "+Infinity".toList then Double.infinity
      else if Blank.trim text == "-Infinity".toList then -Double.infinity
      else (toDouble? (Blank.trim text)).getD Double.nan := by
  unfold number
  dsimp only
  rw [if_neg (by simpa using hsome), hdecimal]

/-- **What is a number as a whole is the number in front.** -/
theorem leadingNumber_eq_number {text : List Char} (hsome : Blank.trim text ≠ [])
    (hlower : ¬"0x".toList <+: Blank.trim text) (hupper : ¬"0X".toList <+: Blank.trim text)
    (hnumber : (number text).isNaN = false) : leadingNumber text = number text := by
  obtain ⟨blanks, hsplit, hblanks⟩ := Blank.exists_trimRight (Blank.trimLeft text)
  change Blank.trimLeft text = Blank.trim text ++ blanks at hsplit
  rw [number_eq hsome (hexBody?_eq_none hlower hupper)] at hnumber ⊢
  unfold leadingNumber
  dsimp only
  rw [hsplit]
  generalize Blank.trim text = trimmed at hnumber ⊢
  by_cases hinfinite : (trimmed == "Infinity".toList || trimmed == "+Infinity".toList) = true
  · have hfront : ("Infinity".toList.isPrefixOf (trimmed ++ blanks) ||
        "+Infinity".toList.isPrefixOf (trimmed ++ blanks)) = true := by
      simp only [Bool.or_eq_true, beq_iff_eq, List.isPrefixOf_iff_prefix] at hinfinite ⊢
      rcases hinfinite with rfl | rfl
      · exact .inl (List.prefix_append _ _)
      · exact .inr (List.prefix_append _ _)
    rw [if_pos hinfinite, if_pos hfront]
  rw [if_neg hinfinite] at hnumber ⊢
  by_cases hbelow : (trimmed == "-Infinity".toList) = true
  · rw [if_pos hbelow, beq_iff_eq.mp hbelow]
    rfl
  rw [if_neg hbelow] at hnumber ⊢
  have hread : (read? trimmed).isSome = true := by
    rw [toDouble?] at hnumber
    cases hread : read? trimmed with
    | some l => rfl
    | none =>
        rw [hread] at hnumber
        exact absurd hnumber (by decide)
  have hliteral := isLiteral_of_read? hread
  have hletter (word : List Char) (hword : 'I' ∈ word) : word.isPrefixOf (trimmed ++ blanks) = false :=
    not_isPrefixOf_literal hliteral hblanks hword
  rw [hletter "Infinity".toList (by decide), hletter "+Infinity".toList (by decide),
    hletter "-Infinity".toList (by decide), literalLength_append_blanks hliteral hblanks, List.take_left]
  rfl

end Reading

namespace Conversions

open Decimal

/-- **The longest literal in front is read, and nothing else of a text that is a number.**  How much of a text
counts as a literal is the length of the longest one that it begins with, and a literal is read.  A text that
is a number as a whole, and not a hexadecimal one, is read as that number. -/
theorem longest_literal_is_read :
    (∀ text, IsLongestLiteral text (literalLength text)) ∧
    (∀ text, (read? text).isSome = true ↔ IsLiteral text) ∧
    ∀ (s : Heap) (text : String), Blank.trim text.toList ≠ [] → ¬"0x".toList <+: Blank.trim text.toList →
      ¬"0X".toList <+: Blank.trim text.toList → (s.toNumber (.string text)).isNaN = false →
      apply s .parseFloat [.string text] = .ok (.number (s.toNumber (.string text))) := by
  refine ⟨isLongestLiteral_literalLength, fun text => read?_isSome_iff, fun s text hsome hlower hupper hnumber => ?_⟩
  have hleading := Reading.leadingNumber_eq_number hsome hlower hupper hnumber
  show Except.ok (Value.number (Reading.leadingNumber text.toList)) = _
  rw [hleading]
  rfl

/-- A text with blanks around it, a point in it and a power. -/
theorem longest_literal_is_read_padded : ∃ heap : Heap, ∃ text : String,
    (Blank.trim text.toList ≠ [] ∧ ¬"0x".toList <+: Blank.trim text.toList ∧ ¬"0X".toList <+: Blank.trim text.toList ∧
      (heap.toNumber (.string text)).isNaN = false) ∧
    text = "\t-12.50e+1 " ∧ apply heap .parseFloat [.string text] = .ok (.number (-125.0)) := by
  have hvalue : (Store.create {} none 0.0 1).toHeap.toNumber (.string "\t-12.50e+1 ") = -125.0 := by rfl
  have hnumber : ((Store.create {} none 0.0 1).toHeap.toNumber (.string "\t-12.50e+1 ")).isNaN = false := by
    rw [hvalue]
    rfl
  have hsome : Blank.trim "\t-12.50e+1 ".toList ≠ [] := by decide
  have hlower : ¬"0x".toList <+: Blank.trim "\t-12.50e+1 ".toList := by decide
  have hupper : ¬"0X".toList <+: Blank.trim "\t-12.50e+1 ".toList := by decide
  refine ⟨_, _, ⟨hsome, hlower, hupper, hnumber⟩, rfl, ?_⟩
  rw [longest_literal_is_read.2.2 _ _ hsome hlower hupper hnumber, hvalue]

end Conversions

end Stepwise
