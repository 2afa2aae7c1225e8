import Mathlib.Data.Nat.Digits.Lemmas

/-!
# Positional numerals

A number is written in a radix with the highest place first.  The canonical
numeral of a number has no leading zero, and it is the only text of that kind
with that value, so writing a number loses nothing.
-/

namespace Positional

variable {α : Type*} {radix : Nat}

/-- The characters for the digits below a radix, and how they are read. -/
structure Digits (α : Type*) (radix : Nat) where
  char : Nat → α
  value : α → Nat
  value_char : ∀ digit, digit < radix → value (char digit) = digit

namespace Digits

variable (digits : Digits α radix)

/-- The digits of a number, the highest place first; zero has one digit. -/
def numeral (n : Nat) : List α :=
  if n = 0 then [digits.char 0] else ((Nat.digits radix n).map digits.char).reverse

/-- The number that a text stands for, whatever zeros it begins with. -/
def placeValue (text : List α) : Nat :=
  text.foldl (fun n c => radix * n + digits.value c) 0

/-- A text over the digits that stands for `n` and has no leading zero, unless it
is a single zero. -/
structure Canonical (n : Nat) (text : List α) : Prop where
  nonempty : text ≠ []
  written : ∀ c ∈ text, ∃ digit, digit < radix ∧ c = digits.char digit
  value : digits.placeValue text = n
  leading : text.head? = some (digits.char 0) → text = [digits.char 0]

variable {digits}

theorem char_injective {digit other : Nat} (low : digit < radix) (low' : other < radix)
    (same : digits.char digit = digits.char other) : digit = other := by
  calc digit = digits.value (digits.char digit) := (digits.value_char digit low).symm
    _ = digits.value (digits.char other) := by rw [same]
    _ = other := digits.value_char other low'

/-- Reading the characters of a list of digits, which has the lowest place first. -/
theorem placeValue_map {places : List Nat} (low : ∀ digit ∈ places, digit < radix) :
    digits.placeValue (places.map digits.char).reverse = Nat.ofDigits radix places := by
  rw [placeValue, List.foldl_reverse, List.foldr_map]
  induction places with
  | nil => rfl
  | cons digit rest induction =>
      have later := induction fun other member => low other (List.mem_cons_of_mem _ member)
      rw [List.foldr_cons, later, Nat.ofDigits_cons,
        digits.value_char digit (low digit List.mem_cons_self), Nat.add_comm]

theorem exists_places {text : List α}
    (written : ∀ c ∈ text, ∃ digit, digit < radix ∧ c = digits.char digit) :
    ∃ places : List Nat, (∀ digit ∈ places, digit < radix) ∧
      text = places.map digits.char := by
  induction text with
  | nil => exact ⟨[], List.forall_mem_nil _, rfl⟩
  | cons c rest induction =>
      obtain ⟨digit, low, isChar⟩ := written c List.mem_cons_self
      obtain ⟨places, lows, isText⟩ :=
        induction fun other member => written other (List.mem_cons_of_mem _ member)
      refine ⟨digit :: places, List.forall_mem_cons.mpr ⟨low, lows⟩, ?_⟩
      rw [List.map_cons, ← isChar, ← isText]

theorem numeral_canonical (two : 2 ≤ radix) (n : Nat) :
    digits.Canonical n (digits.numeral n) := by
  by_cases isZero : n = 0
  · rw [numeral, if_pos isZero]
    constructor
    case nonempty => exact List.cons_ne_nil _ _
    case written =>
      intro c member
      exact ⟨0, Nat.lt_of_lt_of_le Nat.zero_lt_two two, List.mem_singleton.mp member⟩
    case value =>
      have zero := digits.value_char 0 (Nat.lt_of_lt_of_le Nat.zero_lt_two two)
      rw [placeValue, List.foldl_cons, List.foldl_nil, zero, isZero, Nat.mul_zero]
    case leading => exact fun _ => rfl
  · have low : ∀ digit ∈ Nat.digits radix n, digit < radix :=
      fun _ member => Nat.digits_lt_base two member
    have someDigit : Nat.digits radix n ≠ [] := Nat.digits_ne_nil_iff_ne_zero.mpr isZero
    rw [numeral, if_neg isZero]
    constructor
    case nonempty => simpa using someDigit
    case written =>
      intro c member
      obtain ⟨digit, isDigit, isChar⟩ := List.mem_map.mp (List.mem_reverse.mp member)
      exact ⟨digit, low digit isDigit, isChar.symm⟩
    case value =>
      rw [placeValue_map low]
      exact Nat.ofDigits_digits radix n
    case leading =>
      intro zero
      rw [List.head?_reverse, List.getLast?_map, List.getLast?_eq_getLast_of_ne_nil someDigit,
        Option.map_some, Option.some.injEq] at zero
      have lastLow := low _ (List.getLast_mem someDigit)
      have lastZero := char_injective lastLow (Nat.lt_of_lt_of_le Nat.zero_lt_two two) zero
      exact absurd lastZero (Nat.getLast_digit_ne_zero radix isZero)

theorem Canonical.eq_numeral (two : 2 ≤ radix) {n : Nat} {text : List α}
    (canonical : digits.Canonical n text) : text = digits.numeral n := by
  obtain ⟨nonempty, written, value, leading⟩ := canonical
  obtain ⟨places, low, isText⟩ := @exists_places _ _ digits text.reverse
    fun c member => written c (List.mem_reverse.mp member)
  rw [List.reverse_eq_iff] at isText
  subst isText
  rw [placeValue_map low] at value
  by_cases leadingZero : ∃ inner : places ≠ [], places.getLast inner = 0
  · obtain ⟨inner, isZero⟩ := leadingZero
    have single := leading (by
      rw [List.head?_reverse, List.getLast?_map, List.getLast?_eq_getLast_of_ne_nil inner,
        isZero, Option.map_some])
    have noValue := @placeValue_map _ _ digits places low
    rw [single, placeValue, List.foldl_cons, List.foldl_nil,
      digits.value_char 0 (Nat.lt_of_lt_of_le Nat.zero_lt_two two), Nat.mul_zero, value] at noValue
    rw [single, numeral, if_pos noValue.symm]
  · have noZero : ∀ inner : places ≠ [], places.getLast inner ≠ 0 :=
      fun inner isZero => leadingZero ⟨inner, isZero⟩
    have isDigits := Nat.digits_ofDigits radix two places low noZero
    have positive : n ≠ 0 := by
      intro isZero
      rw [value, isZero, Nat.digits_zero] at isDigits
      rw [← isDigits] at nonempty
      exact nonempty rfl
    rw [numeral, if_neg positive, ← value, isDigits]

theorem canonical_iff (two : 2 ≤ radix) {n : Nat} {text : List α} :
    digits.Canonical n text ↔ text = digits.numeral n := by
  constructor
  · exact Canonical.eq_numeral two
  · intro isNumeral
    rw [isNumeral]
    exact numeral_canonical two n

theorem Canonical.length_le (two : 2 ≤ radix) {n width : Nat} {text : List α}
    (canonical : digits.Canonical n text) (positive : 0 < width) (small : n < radix ^ width) :
    text.length ≤ width := by
  rw [canonical.eq_numeral two, numeral]
  split
  case isTrue => exact positive
  case isFalse =>
    rw [List.length_reverse, List.length_map]
    exact (Nat.digits_length_le_iff two n).mpr small

end Digits

end Positional
