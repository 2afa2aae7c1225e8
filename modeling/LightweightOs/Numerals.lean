import LightweightOs.Library.Fuel
import LightweightOs.Library.Positional
import LightweightOs.Itoa

/-!
# Canonical numerals

The digits of a radix are the first characters of `0` to `9` and `A` to `Z`.
`itoa` leaves the canonical numeral of the value over them, so the value can be
read back and different values leave different strings.
-/

namespace LightweightOs

namespace Lib

open Strings Positional

/-- The characters that digits are written with. -/
def characters : List Byte := ascii "0123456789ABCDEFGHIJKLMNOPQRSTUVWXYZ"

/-- The digits of a radix up to 36, read by their place in the alphabet. -/
def digits (radix : Nat) (high : radix ≤ 36) : Digits Byte radix where
  char := digitChar
  value := fun c => characters.idxOf c
  value_char := by
    intro digit low
    have all : ∀ digit < 36, characters.idxOf (digitChar digit) = digit := by decide
    exact all digit (Nat.lt_of_lt_of_le low high)

theorem numeral_eq {radix : Nat} (high : radix ≤ 36) (n : Nat) :
    numeral radix n = (digits radix high).numeral n := rfl

theorem digitChar_mem {radix digit : Nat} (high : radix ≤ 36) (low : digit < radix) :
    digitChar digit ∈ characters.take radix := by
  have all : ∀ digit < 36, characters[digit]? = some (digitChar digit) := by decide
  have here := all digit (Nat.lt_of_lt_of_le low high)
  rw [← List.getElem?_take_of_lt low] at here
  exact List.mem_of_getElem? here

theorem numeral_length_lt {radix : Nat} (low : 2 ≤ radix) (high : radix ≤ 36) (value : Word) :
    (numeral radix value.toNat).length < 33 := by
  have canonical := @Digits.numeral_canonical _ _ (digits radix high) low value.toNat
  apply Nat.lt_succ_of_le
  apply canonical.length_le low (by decide)
  calc value.toNat < 2 ^ 32 := value.isLt
    _ ≤ radix ^ 32 := Nat.pow_le_pow_left low 32

theorem toInt_add_one_of_slt {beg last : Word} (apart : beg.slt last) :
    (beg + 1).toInt = beg.toInt + 1 := by
  have below := BitVec.slt_iff_toInt_lt.mp apart
  have high := @BitVec.two_mul_toInt_lt _ last
  have low := @BitVec.le_two_mul_toInt _ beg
  have one : (1 : Word).toInt = 1 := rfl
  rw [BitVec.toInt_add, one]
  apply Int.bmod_eq_of_le_mul_two <;> omega

theorem toInt_sub_one_of_slt {beg last : Word} (apart : beg.slt last) :
    (last - 1).toInt = last.toInt - 1 := by
  have below := BitVec.slt_iff_toInt_lt.mp apart
  have high := @BitVec.two_mul_toInt_lt _ last
  have low := @BitVec.le_two_mul_toInt _ beg
  have one : (1 : Word).toInt = 1 := rfl
  rw [BitVec.toInt_sub, one]
  apply Int.bmod_eq_of_le_mul_two <;> omega

/-- The loop of `strrev` over the `int32_t` variables `beg` and `end`. -/
def strrevLoopInt32 (memory : Int → Byte) (s : Int) (beg last : Word) : Int → Byte :=
  if beg.slt last then
    let tmp := memory (s + last.toInt)
    let memory := assign memory (s + last.toInt) (memory (s + beg.toInt))
    let memory := assign memory (s + beg.toInt) tmp
    strrevLoopInt32 memory s (beg + 1) (last - 1)
  else memory
termination_by (last.toInt - beg.toInt).toNat
decreasing_by
  rename_i apart _
  rw [toInt_add_one_of_slt apart, toInt_sub_one_of_slt apart]
  have below := BitVec.slt_iff_toInt_lt.mp apart
  omega

/-- `strrev` over the types of its variables: `end` is the unsigned length less
one, converted to `int32_t`. -/
def strrevInt32 (memory : Int → Byte) (s : Int) (fuel : Nat) : Option (Int → Byte) :=
  (strlen memory s fuel).map fun (len : Nat) =>
    strrevLoopInt32 memory s 0 (BitVec.ofNat 32 len - 1)

theorem strrevLoopInt32_eq (memory : Int → Byte) (s : Int) (beg last : Word) :
    strrevLoopInt32 memory s beg last = strrevLoop memory s beg.toInt last.toInt := by
  induction memory, beg, last using strrevLoopInt32.induct (s := s) with
  | case1 memory beg last apart tmp stored exchanged induction =>
      have below := BitVec.slt_iff_toInt_lt.mp apart
      rw [toInt_add_one_of_slt apart, toInt_sub_one_of_slt apart] at induction
      rw [strrevLoopInt32, if_pos apart, strrevLoop, if_pos below]
      exact induction
  | case2 memory beg last met =>
      have notBelow := fun below => met (BitVec.slt_iff_toInt_lt.mpr below)
      rw [strrevLoopInt32, if_neg met, strrevLoop, if_neg notBelow]

/-- The last index of a string that fits into half of the address space; that of
the empty string is -1. -/
theorem toInt_last {len : Nat} (fits : len ≤ 2 ^ 31) :
    (BitVec.ofNat 32 len - 1).toInt = (len : Int) - 1 := by
  have one : (1 : Word).toNat = 1 := rfl
  simp only [BitVec.toInt, BitVec.toNat_sub, BitVec.toNat_ofNat, one]
  omega

theorem strrevInt32_eq {memory : Int → Byte} {s : Int} {text : List Byte}
    (spells : Spells nul memory s text) (fits : text.length ≤ 2 ^ 31) {fuel : Nat}
    (enough : text.length < fuel) :
    strrevInt32 memory s fuel = strrev memory s fuel := by
  have zero : (0 : Word).toInt = 0 := rfl
  rw [strrevInt32, strrev, strlen_eq spells enough, Option.map_some, Option.map_some,
    strrevLoopInt32_eq, toInt_last fits, zero]

/-- `strrev` reverses a string of any length, and the empty one too, for which its
`end` is -1. -/
theorem strrev_reverses {memory : Int → Byte} {s : Int} {text : List Byte}
    (spells : Spells nul memory s text) :
    ∃ after, Fuel.Returns (strrev memory s) after ∧
      (text.length ≤ 2 ^ 31 → Fuel.Returns (strrevInt32 memory s) after) ∧
      Spells nul after s text.reverse ∧
      ∀ place, place < s ∨ s + text.length ≤ place → after place = memory place := by
  refine ⟨_, ⟨text.length + 1, fun fuel enough => strrev_eq spells enough⟩, ?_,
    spells.mirror, ?_⟩
  · intro fits
    refine ⟨text.length + 1, ?_⟩
    intro fuel enough
    rw [strrevInt32_eq spells fits enough]
    exact strrev_eq spells enough
  · intro place outside
    exact mirror_outside (by omega)

/-- Some run of `itoa` leaves the string in its buffer. -/
def Writes (radix value : Word) (text : List Byte) : Prop :=
  ∃ memory buf after, itoa value memory buf radix = some after ∧ Spells nul after buf text

theorem writes_iff {radix : Word} (low : 2 ≤ radix.toNat) (high : radix.toNat ≤ 36)
    {value : Word} {text : List Byte} :
    Writes radix value text ↔ (digits radix.toNat high).Canonical value.toNat text := by
  rw [Digits.canonical_iff low, ← numeral_eq high]
  constructor
  · rintro ⟨memory, buf, after, returned, spells⟩
    obtain ⟨after', returned', spells', _⟩ := itoa_spells low high value memory buf
    rw [returned, Option.some.injEq] at returned'
    subst returned'
    exact spells'.unique spells
  · intro isNumeral
    obtain ⟨after, returned, spells, _⟩ := itoa_spells low high value (fun _ => nul) 0
    exact ⟨_, _, after, returned, isNumeral ▸ spells⟩

/-- `itoa` writes the canonical numeral of the value with its terminator and nothing
else, and no two values have the same one. -/
theorem itoa_canonical {radix : Word} (low : 2 ≤ radix.toNat) (high : radix.toNat ≤ 36) :
    (∀ (value : Word) (memory : Int → Byte) (buf : Int), ∃ after text,
      itoa value memory buf radix = some after ∧
        Spells nul after buf text ∧
        text.length + 1 ≤ 33 ∧
        (∀ c ∈ text, c ∈ characters.take radix.toNat) ∧
        (digits radix.toNat high).Canonical value.toNat text ∧
        ∀ place, place < buf ∨ buf + text.length < place → after place = memory place) ∧
    (∀ (value other : Word) (text : List Byte),
      Writes radix value text → Writes radix other text → value = other) ∧
    ∀ (memory : Int → Byte) (s : Int) (text : List Byte), Spells nul memory s text →
      ∃ after, Fuel.Returns (strrev memory s) after ∧
        (text.length ≤ 2 ^ 31 → Fuel.Returns (strrevInt32 memory s) after) ∧
        Spells nul after s text.reverse ∧
        ∀ place, place < s ∨ s + text.length ≤ place → after place = memory place := by
  refine ⟨?_, ?_, fun memory s text spells => strrev_reverses spells⟩
  · intro value memory buf
    obtain ⟨after, returned, spells, kept⟩ := itoa_spells low high value memory buf
    have canonical := (writes_iff low high).mp ⟨memory, buf, after, returned, spells⟩
    refine ⟨after, _, returned, spells, numeral_length_lt low high value, ?_, canonical, kept⟩
    intro c member
    obtain ⟨digit, small, isChar⟩ := canonical.written c member
    rw [isChar]
    exact digitChar_mem high small
  · intro value other text writes writes'
    apply BitVec.eq_of_toNat_eq
    calc value.toNat = (digits radix.toNat high).placeValue text :=
          ((writes_iff low high).mp writes).value.symm
      _ = other.toNat := ((writes_iff low high).mp writes').value

theorem itoa_canonical_hexadecimal :
    ∃ after text, itoa 255#32 (fun _ => nul) 0 16#32 = some after ∧
      Spells nul after 0 text ∧ text.length + 1 ≤ 33 := by
  have written := itoa_canonical (show 2 ≤ (16#32 : Word).toNat by decide) (by decide)
  obtain ⟨after, text, returned, spells, short, _⟩ := written.1 255#32 (fun _ => nul) 0
  exact ⟨after, text, returned, spells, short⟩

end Lib

end LightweightOs
