/-
Finding one sequence within another.

`first?` and `last?` give the least and the greatest place of a match on one side of a
start; `split` cuts a text at the matches of a separator, from the left and without
overlap.

A window as long as the pattern slides over the text, and a checksum of its elements
slides with it.  Only where the checksum is that of the pattern are the elements compared,
so a search takes about as long as the text, however much of the pattern keeps returning.
`slide_windowOf` says that the checksum stays right, and `isMatch_windowOf` that nothing is
missed by looking at it first.
-/
namespace Stepwise

namespace Search

variable {α : Type}

section

variable [BEq α]

/-- Does the sequence begin with the pattern? -/
def beginsWith : (text pattern : List α) → Bool
  | _, [] => true
  | [], _ :: _ => false
  | a :: text, b :: pattern => a == b && beginsWith text pattern

/-- A sequence that begins with a pattern has it as its first part. -/
theorem take_of_beginsWith [LawfulBEq α] {text pattern : List α} (h : beginsWith text pattern) :
    text.take pattern.length = pattern ∧ pattern.length ≤ text.length := by
  induction pattern generalizing text with
  | nil => simp
  | cons b pattern ih =>
    cases text with
    | nil => simp [beginsWith] at h
    | cons a text =>
      simp only [beginsWith, Bool.and_eq_true, beq_iff_eq] at h
      have rest := ih h.2
      simp [h.1, rest.1, rest.2]

end

/-! ### Checksums -/

section

variable [Hashable α]

/-- What the checksum of a sequence is multiplied by for every element that follows. -/
def base : UInt64 := 6364136223846793005

def checksum (xs : List α) : UInt64 := xs.foldl (fun sum a => sum * base + hash a) 0

/-- A pattern with its checksum, and the factor of the first element in it. -/
structure Pattern (α : Type) [Hashable α] where
  elements : List α
  sum : UInt64
  lead : UInt64
  sum_eq : sum = checksum elements
  lead_eq : lead = base ^ (elements.length - 1)

/-- A power of the base. -/
def leadOf (n : Nat) : UInt64 := n.fold (fun _ _ factor => factor * base) 1

theorem leadOf_eq (n : Nat) : leadOf n = base ^ n := by
  induction n with
  | zero => simp [leadOf]
  | succ n ih =>
    rw [leadOf, Nat.fold_succ, UInt64.pow_succ, ← ih]
    rfl

def Pattern.ofList (elements : List α) : Pattern α :=
  ⟨elements, checksum elements, leadOf (elements.length - 1), rfl, leadOf_eq _⟩

/-- What slides over a text: the checksum of as many elements as the pattern has, if so many are
left, and the text behind them. -/
structure Window (α : Type) where
  sum? : Option UInt64
  ahead : List α

/-- The window at the front of a text. -/
def Pattern.windowOf (p : Pattern α) (text : List α) : Window α :=
  ⟨if p.elements.length ≤ text.length then some (checksum (text.take p.elements.length)) else none,
    text.drop p.elements.length⟩

/-- The window one element on, past the element `a`. -/
def Pattern.slide (p : Pattern α) (a : α) (w : Window α) : Window α :=
  match w.ahead with
  | [] => ⟨none, []⟩
  | b :: ahead =>
    match w.sum? with
    | some sum => ⟨some ((sum - hash a * p.lead) * base + hash b), ahead⟩
    | none => ⟨none, ahead⟩

theorem checksum_concat (xs : List α) (b : α) :
    checksum (xs ++ [b]) = checksum xs * base + hash b := by
  simp [checksum]

/-- What stands in front is multiplied by the base once more with every element. -/
theorem foldl_checksum (sum : UInt64) (xs : List α) :
    xs.foldl (fun sum a => sum * base + hash a) sum = sum * base ^ xs.length + checksum xs := by
  induction xs generalizing sum with
  | nil => simp [checksum]
  | cons a xs ih =>
    rw [checksum, List.foldl_cons, List.foldl_cons, ih, ih (0 * base + hash a), List.length_cons,
      UInt64.pow_succ, UInt64.add_mul, UInt64.zero_mul, UInt64.zero_add, UInt64.mul_assoc,
      UInt64.mul_comm base, UInt64.add_assoc]

theorem checksum_cons (a : α) (xs : List α) :
    checksum (a :: xs) = hash a * base ^ xs.length + checksum xs := by
  rw [checksum, List.foldl_cons, foldl_checksum, UInt64.zero_mul, UInt64.zero_add]

/-- One element on, the window is that of the rest of the text. -/
theorem Pattern.slide_windowOf (p : Pattern α) (some_element : p.elements ≠ []) (a : α) (text : List α) :
    p.slide a (p.windowOf (a :: text)) = p.windowOf text := by
  obtain ⟨n, hn⟩ : ∃ n, p.elements.length = n + 1 :=
    ⟨_, (Nat.succ_pred_eq_of_pos (List.length_pos_iff.2 some_element)).symm⟩
  have lead : p.lead = base ^ n := by rw [p.lead_eq, hn, Nat.add_sub_cancel]
  rw [slide, windowOf, windowOf, hn]
  simp only [List.drop_succ_cons, List.take_succ_cons, List.length_cons, Nat.add_le_add_iff_right]
  split
  · next h =>
    have short := List.drop_eq_nil_iff.1 h
    rw [if_neg (by omega), List.drop_eq_nil_of_le (by omega)]
  · next b ahead h =>
    have long : n < text.length := by
      have := congrArg List.length h
      simp at this
      omega
    have next : text.drop (n + 1) = ahead := by
      rw [← List.drop_drop, h, List.drop_one, List.tail_cons]
    have taken : text.take (n + 1) = text.take n ++ [b] := by
      rw [List.take_add, h]
      rfl
    have size : (text.take n).length = n := List.length_take_of_le (by omega)
    rw [if_pos (by omega), if_pos (by omega), next, taken, checksum_concat, checksum_cons, size, lead,
      UInt64.add_comm (_ * _)]
    dsimp only
    rw [UInt64.add_sub_cancel]

end

/-! ### Searching -/

variable [BEq α] [Hashable α]

/-- Does the pattern match at the front of a text with this window? -/
def Pattern.isMatch (p : Pattern α) (w : Window α) (text : List α) : Bool :=
  match w.sum? with
  | some sum => sum == p.sum && beginsWith text p.elements
  | none => false

/-- With the window of the text itself, a match is that the text begins with the pattern. -/
theorem Pattern.isMatch_windowOf [LawfulBEq α] (p : Pattern α) (text : List α) :
    p.isMatch (p.windowOf text) text = beginsWith text p.elements := by
  cases h : beginsWith text p.elements with
  | false => rw [isMatch]; split <;> simp [h]
  | true =>
    have ⟨taken, long⟩ := take_of_beginsWith h
    simp [isMatch, windowOf, long, taken, h, p.sum_eq]

/-- The first match at or after the position `start`; `at_` is the position of `text`. -/
def firstFrom? (p : Pattern α) (start : Nat) : (at_ : Nat) → Window α → (text : List α) → Option Nat
  | _, _, [] => none
  | at_, w, a :: text =>
    if start ≤ at_ && p.isMatch w (a :: text) then some at_
    else firstFrom? p start (at_ + 1) (p.slide a w) text

/-- The first match at or after `start`.  The empty pattern matches at `start` itself,
or at the end of a shorter text. -/
def first? (text pattern : List α) (start : Nat) : Option Nat :=
  if pattern.isEmpty then some (min start text.length)
  else
    let p := Pattern.ofList pattern
    firstFrom? p start 0 (p.windowOf text) text

/-- The last match at or before `bound`: read backward, it is the first one of the pattern read
backward.  The empty pattern matches at `bound` itself, or at the end of a shorter text. -/
def last? (text pattern : List α) (bound : Nat) : Option Nat :=
  if pattern.isEmpty then some (min bound text.length)
  else
    let room := text.length - pattern.length
    (first? text.reverse pattern.reverse (room - bound)).map (room - ·)

/-- The pieces of a text between the matches of a separator that is not empty.  `skip`
counts the elements of the current match still to pass over, and `piece` holds the
current piece backward. -/
def splitFrom (p : Pattern α) : (skip : Nat) → Window α → (piece text : List α) → List (List α)
  | _, _, piece, [] => [piece.reverse]
  | skip + 1, w, piece, a :: text => splitFrom p skip (p.slide a w) piece text
  | 0, w, piece, a :: text =>
    if p.isMatch w (a :: text) then
      piece.reverse :: splitFrom p (p.elements.length - 1) (p.slide a w) [] text
    else splitFrom p 0 (p.slide a w) (a :: piece) text

/-- The pieces of a text between the matches of a separator that is not empty. -/
def split (text separator : List α) : List (List α) :=
  let p := Pattern.ofList separator
  splitFrom p 0 (p.windowOf text) [] text

end Search

end Stepwise
