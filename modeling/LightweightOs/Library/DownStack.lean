import Mathlib.Data.List.Basic
import Mathlib.Algebra.Group.Nat.Defs

/-!
# Words on a stack that grows down

Memory is a function from 32-bit addresses to bytes, and a word is four bytes,
the lowest first.  `Stacked` lists the words from the stack pointer on: a push
puts a word in front of the list and a pop takes it off, so what a sequence of
pushes and pops reads back follows from the list alone.
-/

namespace DownStack

abbrev Memory := BitVec 32 → BitVec 8

variable {memory other : Memory} {sp address : BitVec 32} {word : BitVec 32}
  {words : List (BitVec 32)}

/-- The word at an address. -/
def read (memory : Memory) (address : BitVec 32) : BitVec 32 :=
  memory (address + 3) ++ memory (address + 2) ++ memory (address + 1) ++ memory address

/-- Store a word at an address. -/
def write (memory : Memory) (address word : BitVec 32) : Memory := fun place =>
  if (place - address).toNat < 4 then word.extractLsb' (8 * (place - address).toNat) 8
  else memory place

theorem write_inside {offset : BitVec 32} (inside : offset.toNat < 4) :
    write memory address word (address + offset) =
      word.extractLsb' (8 * offset.toNat) 8 := by
  have distance : address + offset - address = offset := by
    rw [BitVec.add_comm, BitVec.add_sub_cancel]
  rw [write, distance, if_pos inside]

theorem write_outside {place : BitVec 32} (outside : 4 ≤ (place - address).toNat) :
    write memory address word place = memory place :=
  if_neg (Nat.not_lt.mpr outside)

theorem read_write_self (memory : Memory) (address word : BitVec 32) :
    read (write memory address word) address = word := by
  have first : write memory address word address = word.extractLsb' 0 8 := by
    have stored := @write_inside memory address word 0#32 (by decide)
    rwa [BitVec.add_zero] at stored
  have second : write memory address word (address + 1) = word.extractLsb' 8 8 :=
    write_inside (by decide)
  have third : write memory address word (address + 2) = word.extractLsb' 16 8 :=
    write_inside (by decide)
  have fourth : write memory address word (address + 3) = word.extractLsb' 24 8 :=
    write_inside (by decide)
  rw [read, first, second, third, fourth]
  apply BitVec.eq_of_getLsbD_eq
  intro i inside
  simp only [BitVec.getLsbD_append, BitVec.getLsbD_extractLsb']
  grind

/-- The words from the stack pointer on. -/
def Stacked (memory : Memory) : BitVec 32 → List (BitVec 32) → Prop
  | _, [] => True
  | sp, word :: words => read memory sp = word ∧ Stacked memory (sp + 4) words

/-- The words of a stack depend on its own bytes only. -/
theorem Stacked.congr (stacked : Stacked memory sp words)
    (same : ∀ i, i < 4 * words.length →
      other (sp + BitVec.ofNat 32 i) = memory (sp + BitVec.ofNat 32 i)) :
    Stacked other sp words := by
  induction words generalizing sp with
  | nil => trivial
  | cons word words induction =>
      obtain ⟨isWord, rest⟩ := stacked
      rw [List.length_cons] at same
      constructor
      · have first := same 0 (by omega)
        have second := same 1 (by omega)
        have third := same 2 (by omega)
        have fourth := same 3 (by omega)
        rw [BitVec.add_zero] at first
        rw [← isWord, read, read, first]
        congr 1
        congr 1
        congr 1
      · apply induction rest
        intro i inside
        have later := same (4 + i) (by omega)
        rw [BitVec.ofNat_add, ← BitVec.add_assoc] at later
        exact later

theorem Stacked.write (stacked : Stacked memory sp words)
    (below : 4 ≤ (sp - address).toNat)
    (room : (sp - address).toNat + 4 * words.length ≤ 2 ^ 32) :
    Stacked (write memory address word) sp words := by
  apply stacked.congr
  intro i inside
  apply write_outside
  have distance : (sp + BitVec.ofNat 32 i - address).toNat = (sp - address).toNat + i := by
    have small : (BitVec.ofNat 32 i).toNat = i := by
      rw [BitVec.toNat_ofNat]
      omega
    have moved : sp + BitVec.ofNat 32 i - address = sp - address + BitVec.ofNat 32 i := by
      rw [BitVec.sub_eq_add_neg, BitVec.sub_eq_add_neg, BitVec.add_assoc, BitVec.add_assoc,
        BitVec.add_comm (BitVec.ofNat 32 i)]
    rw [moved, BitVec.toNat_add, small]
    omega
  omega

theorem Stacked.push (stacked : Stacked memory sp words) (word : BitVec 32)
    (room : 4 * (words.length + 1) ≤ 2 ^ 32) :
    Stacked (DownStack.write memory (sp - 4) word) (sp - 4) (word :: words) := by
  have four : sp - (sp - 4) = 4 := by
    apply BitVec.eq_of_toNat_eq
    bv_omega
  constructor
  · exact read_write_self memory (sp - 4) word
  · rw [BitVec.sub_add_cancel]
    apply stacked.write
    · rw [four]
      decide
    · rw [four]
      have isFour : (4 : BitVec 32).toNat = 4 := rfl
      omega

theorem stacked_append {upper : List (BitVec 32)} :
    Stacked memory sp (words ++ upper) ↔
      Stacked memory sp words ∧ Stacked memory (sp + BitVec.ofNat 32 (4 * words.length)) upper := by
  induction words generalizing sp with
  | nil =>
      rw [List.nil_append, List.length_nil, Nat.mul_zero, BitVec.add_zero]
      exact ⟨fun stacked => ⟨trivial, stacked⟩, And.right⟩
  | cons word words induction =>
      have next : sp + 4 + BitVec.ofNat 32 (4 * words.length) =
          sp + BitVec.ofNat 32 (4 * (words.length + 1)) := by
        rw [Nat.mul_add, Nat.add_comm, BitVec.ofNat_add, ← BitVec.add_assoc]
        rfl
      rw [List.cons_append, List.length_cons, Stacked, induction, next, Stacked, and_assoc]

theorem Stacked.unique {others : List (BitVec 32)} (stacked : Stacked memory sp words)
    (otherStacked : Stacked memory sp others) (length : words.length = others.length) :
    words = others := by
  induction words generalizing sp others with
  | nil => exact (List.length_eq_zero_iff.mp length.symm).symm
  | cons word words induction =>
      cases others with
      | nil => cases length
      | cons other others =>
          obtain ⟨isWord, rest⟩ := stacked
          obtain ⟨isOther, otherRest⟩ := otherStacked
          apply List.cons_eq_cons.mpr
          exact ⟨isWord.symm.trans isOther, induction rest otherRest (Nat.succ.inj length)⟩

theorem exists_stacked (memory : Memory) (sp : BitVec 32) (count : Nat) :
    ∃ words, words.length = count ∧ Stacked memory sp words := by
  induction count generalizing sp with
  | zero => exact ⟨[], rfl, trivial⟩
  | succ count induction =>
      obtain ⟨words, length, stacked⟩ := induction (sp + 4)
      exact ⟨read memory sp :: words, by rw [List.length_cons, length], rfl, stacked⟩

end DownStack
