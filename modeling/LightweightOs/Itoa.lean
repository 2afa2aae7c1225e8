import LightweightOs.Library.Strings
import LightweightOs.Words
import Mathlib.Data.Nat.Digits.Lemmas

/-!
# Numbers as text

`itoa` stores the digits of a number from the lowest place value on and has
`strrev` reverse them in the buffer.  What it leaves there is the numeral of the
number: its digits with the highest place value first, and a single `0` for zero.
-/

namespace LightweightOs

namespace Lib

open Strings

/-- The loop of `strlen`, with `fuel` turns. -/
def strlenLoop (memory : Int → Byte) (s : Int) (len : Nat) : Nat → Option Nat
  | 0 => none
  | fuel + 1 =>
      if memory (s + len) = nul then some len
      else strlenLoop memory s (len + 1) fuel

def strlen (memory : Int → Byte) (s : Int) (fuel : Nat) : Option Nat :=
  strlenLoop memory s 0 fuel

/-- The loop of `strrev`; `last` is its `end`. -/
def strrevLoop (memory : Int → Byte) (s beg last : Int) : Int → Byte :=
  if beg < last then
    let tmp := memory (s + last)
    let memory := assign memory (s + last) (memory (s + beg))
    let memory := assign memory (s + beg) tmp
    strrevLoop memory s (beg + 1) (last - 1)
  else memory
termination_by (last - beg).toNat
decreasing_by omega

/-- `strrev`, which returns its argument. -/
def strrev (memory : Int → Byte) (s : Int) (fuel : Nat) : Option (Int → Byte) :=
  (strlen memory s fuel).map fun (len : Nat) => strrevLoop memory s 0 ((len : Int) - 1)

/-- The array in `itoa`, with its terminator. -/
def lookup : List Byte := ascii "0123456789ABCDEFGHIJKLMNOPQRSTUVWXYZ" ++ [nul]

/-- The loop of `itoa`, with `fuel` turns.  It fails to divide by zero and to read
behind `lookup`. -/
def itoaLoop (radix newval : Word) (memory : Int → Byte) (newbuf : Int) :
    Nat → Option ((Int → Byte) × Int)
  | 0 => none
  | fuel + 1 =>
      if newval = 0 then some (memory, newbuf)
      else if radix = 0 then none
      else do
        let digit ← lookup[(newval % radix).toNat]?
        itoaLoop radix (newval / radix) (assign memory newbuf digit) (newbuf + 1) fuel

/-- `itoa`, which returns `buf`.  Both loops have as many turns as the 32 digits
of a word in binary take. -/
def itoa (value : Word) (memory : Int → Byte) (buf : Int) (radix : Word) :
    Option (Int → Byte) :=
  if value = 0 then some (assign (assign memory buf 0x30#8) (buf + 1) nul)
  else do
    let (memory, newbuf) ← itoaLoop radix value memory buf 33
    strrev (assign memory newbuf nul) buf 33

/-- The character of a digit. -/
def digitChar (digit : Nat) : Byte :=
  if digit < 10 then BitVec.ofNat 8 (0x30 + digit) else BitVec.ofNat 8 (0x41 + (digit - 10))

/-- The canonical numeral of a number. -/
def numeral (radix n : Nat) : List Byte :=
  if n = 0 then [digitChar 0] else ((Nat.digits radix n).map digitChar).reverse

theorem lookup_digit {digit : Nat} (low : digit < 36) :
    lookup[digit]? = some (digitChar digit) := by
  have all : ∀ digit < 36, lookup[digit]? = some (digitChar digit) := by decide
  exact all digit low

theorem digitChar_ne_nul {digit : Nat} (low : digit < 36) : digitChar digit ≠ nul := by
  have all : ∀ digit < 36, digitChar digit ≠ nul := by decide
  exact all digit low

theorem digits_plain {radix n : Nat} (low : 2 ≤ radix) (high : radix ≤ 36) :
    nul ∉ (Nat.digits radix n).map digitChar := by
  intro member
  obtain ⟨digit, isDigit, isNul⟩ := List.mem_map.mp member
  have small := Nat.digits_lt_base low isDigit
  exact digitChar_ne_nul (Nat.lt_of_lt_of_le small high) isNul

theorem digits_length_le {radix : Nat} (low : 2 ≤ radix) (value : Word) :
    (Nat.digits radix value.toNat).length ≤ 32 := by
  rw [Nat.digits_length_le_iff low]
  calc value.toNat < 2 ^ 32 := value.isLt
    _ ≤ radix ^ 32 := Nat.pow_le_pow_left low 32

theorem strlen_eq {memory : Int → Byte} {s : Int} {text : List Byte}
    (spells : Spells nul memory s text) {fuel : Nat} (enough : text.length < fuel) :
    strlen memory s fuel = some text.length := by
  have loop : ∀ (fuel len : Nat), len ≤ text.length → text.length < len + fuel →
      strlenLoop memory s len fuel = some text.length := by
    intro fuel
    induction fuel with
    | zero =>
        intro len low high
        omega
    | succ fuel induction =>
        intro len low high
        rw [strlenLoop]
        rcases Nat.lt_or_eq_of_le low with inside | atEnd
        · have notNul : memory (s + len) ≠ nul := by
            rw [spells.stored len inside]
            intro isNul
            exact spells.plain (isNul ▸ List.getElem_mem inside)
          rw [if_neg notNul]
          exact induction (len + 1) inside (by omega)
        · rw [atEnd, if_pos spells.ends]
  exact loop fuel 0 (Nat.zero_le _) (by omega)

/-- The two indices meet in the middle, and the places between them are mirrored. -/
theorem strrevLoop_eq (memory : Int → Byte) (s beg last : Int) :
    strrevLoop memory s beg last = mirror memory (s + beg) (s + last) := by
  induction memory, beg, last using strrevLoop.induct (s := s) with
  | case1 memory beg last apart tmp stored exchanged induction =>
      have place : s + last - 1 = s + (last - 1) := by omega
      have exchange := @mirror_exchange _ memory (s + beg) (s + last) (by omega)
      rw [Int.add_assoc, place] at exchange
      rw [strrevLoop, if_pos apart, induction]
      exact exchange
  | case2 memory beg last met =>
      rw [strrevLoop, if_neg met, mirror_of_le (by omega)]

theorem strrev_eq {memory : Int → Byte} {s : Int} {text : List Byte}
    (spells : Spells nul memory s text) {fuel : Nat} (enough : text.length < fuel) :
    strrev memory s fuel = some (mirror memory s (s + text.length - 1)) := by
  have last : s + ((text.length : Int) - 1) = s + text.length - 1 := by omega
  rw [strrev, strlen_eq spells enough, Option.map_some, strrevLoop_eq, Int.add_zero, last]

/-- The loop of `itoa` stores the digits from the lowest place value on. -/
theorem itoaLoop_stores {radix : Word} (low : 2 ≤ radix.toNat) (high : radix.toNat ≤ 36)
    {newval : Word} {memory : Int → Byte} {newbuf : Int} {fuel : Nat}
    (enough : (Nat.digits radix.toNat newval.toNat).length < fuel) :
    ∃ after,
      itoaLoop radix newval memory newbuf fuel =
          some (after, newbuf + (Nat.digits radix.toNat newval.toNat).length) ∧
        Stores memory after newbuf ((Nat.digits radix.toNat newval.toNat).map digitChar) := by
  induction fuel generalizing newval memory newbuf with
  | zero => exact absurd enough (Nat.not_lt_zero _)
  | succ fuel induction =>
      rw [itoaLoop]
      by_cases isZero : newval = 0
      · rw [if_pos isZero, isZero]
        exact ⟨memory, by simp, by simpa using Stores.nil memory newbuf⟩
      · have positive : 0 < newval.toNat := BitVec.toNat_pos_of_ne_zero isZero
        have digits := Nat.digits_def' low positive
        have divided : (newval / radix).toNat = newval.toNat / radix.toNat :=
          BitVec.toNat_udiv
        have remainder : (newval % radix).toNat = newval.toNat % radix.toNat :=
          BitVec.toNat_umod
        have small : newval.toNat % radix.toNat < 36 :=
          Nat.lt_of_lt_of_le (Nat.mod_lt _ (by omega)) high
        have notZero : radix ≠ 0 := by
          intro zero
          rw [zero] at low
          exact absurd low (by decide)
        rw [digits, List.length_cons, ← divided] at enough
        obtain ⟨after, stored, later⟩ :=
          @induction (newval / radix)
            (assign memory newbuf (digitChar (newval.toNat % radix.toNat))) (newbuf + 1)
            (by omega)
        rw [if_neg isZero, if_neg notZero, remainder, lookup_digit small, digits]
        refine ⟨after, ?_, ?_⟩
        · simp only [Option.bind_eq_bind, Option.bind_some]
          rw [stored, divided, List.length_cons]
          push_cast
          rw [Int.add_assoc, Int.add_comm 1]
        · rw [List.map_cons, ← divided]
          exact later.cons

/-- `itoa` leaves the numeral of the value in the buffer, and changes nothing
else. -/
theorem itoa_spells {radix : Word} (low : 2 ≤ radix.toNat) (high : radix.toNat ≤ 36)
    (value : Word) (memory : Int → Byte) (buf : Int) :
    ∃ after,
      itoa value memory buf radix = some after ∧
        Spells nul after buf (numeral radix.toNat value.toNat) ∧
        ∀ place, place < buf ∨ buf + (numeral radix.toNat value.toNat).length < place →
          after place = memory place := by
  by_cases isZero : value = 0
  · have noValue : value.toNat = 0 := by
      rw [isZero]
      rfl
    rw [itoa, if_pos isZero, numeral, if_pos noValue]
    refine ⟨_, rfl, ?_, ?_⟩
    · rw [spells_cons, spells_nil]
      refine ⟨by decide, ?_, assign_self _ _ _⟩
      rw [assign_of_ne (by omega), assign_self]
      rfl
    · intro place outside
      rw [List.length_singleton] at outside
      rw [assign_of_ne (by omega), assign_of_ne (by omega)]
  · have someValue : value.toNat ≠ 0 :=
      Nat.ne_of_gt (BitVec.toNat_pos_of_ne_zero isZero)
    have short := digits_length_le low value
    obtain ⟨digits, stored, stores⟩ :=
      @itoaLoop_stores radix low high value memory buf 33 (by omega)
    have spells := stores.spells (digits_plain low high)
    rw [List.length_map] at spells
    have reversed := strrev_eq spells (by rw [List.length_map]; omega : _ < 33)
    have isNumeral := spells.mirror
    rw [itoa, if_neg isZero, numeral, if_neg someValue, stored]
    refine ⟨_, reversed, isNumeral, ?_⟩
    intro place outside
    rw [List.length_reverse, List.length_map] at outside
    rw [List.length_map, mirror_outside (by omega), Function.update_of_ne (by omega)]
    apply stores.kept
    rw [List.length_map]
    omega

end Lib

end LightweightOs
