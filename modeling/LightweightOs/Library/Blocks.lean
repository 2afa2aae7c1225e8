import Mathlib.Logic.Function.Basic
import Mathlib.Data.BitVec

/-!
# Blocks of memory

A block is a range of addresses from a base on, which may wrap around the end of
the address space.  `overlay` is the memory in which a part of a block has been
replaced, one place after the other from either end.
-/

namespace Blocks

variable {α : Type*} {w : Nat} {memory : BitVec w → α} {dest src address : BitVec w}
  {text : Nat → α} {low high n : Nat}

/-- The `i`-th address of a block. -/
def place (base : BitVec w) (i : Nat) : BitVec w := base + BitVec.ofNat w i

/-- The address belongs to the first `n` places of a block. -/
def Inside (base : BitVec w) (n : Nat) (address : BitVec w) : Prop :=
  ∃ i, i < n ∧ address = place base i

/-- The addresses of the first `n` places of a block. -/
def addresses (base : BitVec w) (n : Nat) : List (BitVec w) := (List.range n).map (place base)

/-- What the first `n` places of a block hold. -/
def load (memory : BitVec w → α) (base : BitVec w) (n : Nat) : List α :=
  (addresses base n).map memory

/-- The contents are written to the places of a block. -/
def store (memory : BitVec w → α) (base : BitVec w) : List α → BitVec w → α
  | [] => memory
  | c :: rest => store (Function.update memory base c) (place base 1) rest

/-- The places of the block from `low` up to `high` hold the text. -/
def overlay (memory : BitVec w → α) (dest : BitVec w) (text : Nat → α) (low high : Nat) :
    BitVec w → α := fun address =>
  if low ≤ (address - dest).toNat ∧ (address - dest).toNat < high
  then text (address - dest).toNat
  else memory address

theorem place_zero (base : BitVec w) : place base 0 = base := by
  simp [place]

theorem place_add (base : BitVec w) (i j : Nat) : place (place base i) j = place base (i + j) := by
  rw [place, place, place, BitVec.ofNat_add, BitVec.add_assoc]

theorem place_sub_toNat (base : BitVec w) {i : Nat} (small : i < 2 ^ w) :
    (place base i - base).toNat = i := by
  rw [place, BitVec.add_comm, BitVec.add_sub_cancel, BitVec.toNat_ofNat]
  exact Nat.mod_eq_of_lt small

theorem place_of_sub (base address : BitVec w) : place base (address - base).toNat = address := by
  rw [place, BitVec.ofNat_toNat, BitVec.setWidth_eq, BitVec.add_comm, BitVec.sub_add_cancel]

theorem place_toNat {base : BitVec w} {i : Nat} (fits : base.toNat + i < 2 ^ w) :
    (place base i).toNat = base.toNat + i := by
  have small : i < 2 ^ w := Nat.lt_of_le_of_lt (Nat.le_add_left i _) fits
  rw [place, BitVec.toNat_add, BitVec.toNat_ofNat, Nat.mod_eq_of_lt small, Nat.mod_eq_of_lt fits]

theorem Inside.mono {base : BitVec w} {m : Nat} (less : m ≤ n) (inside : Inside base m address) :
    Inside base n address := by
  obtain ⟨i, small, isPlace⟩ := inside
  exact ⟨i, Nat.lt_of_lt_of_le small less, isPlace⟩

theorem mem_addresses {base : BitVec w} : address ∈ addresses base n ↔ Inside base n address := by
  constructor
  · intro member
    obtain ⟨i, isIndex, isPlace⟩ := List.mem_map.mp member
    exact ⟨i, List.mem_range.mp isIndex, isPlace.symm⟩
  · rintro ⟨i, small, isPlace⟩
    exact List.mem_map.mpr ⟨i, List.mem_range.mpr small, isPlace.symm⟩

theorem Inside.shift {base : BitVec w} {k m : Nat} (inside : Inside (place base k) m address)
    (fits : k + m ≤ n) : Inside base n address := by
  obtain ⟨i, small, isPlace⟩ := inside
  refine ⟨k + i, by omega, ?_⟩
  rw [isPlace, place_add]

theorem length_load (memory : BitVec w → α) (base : BitVec w) (n : Nat) :
    (load memory base n).length = n := by
  rw [load, addresses, List.length_map, List.length_map, List.length_range]

theorem getElem_load {base : BitVec w} {i : Nat} (inside : i < (load memory base n).length) :
    (load memory base n)[i] = memory (place base i) := by
  simp [load, addresses]

theorem overlay_empty (memory : BitVec w → α) (dest : BitVec w) (text : Nat → α) (k : Nat) :
    overlay memory dest text k k = memory := by
  funext address
  rw [overlay, if_neg]
  intro inside
  exact absurd (Nat.lt_of_le_of_lt inside.1 inside.2) (Nat.lt_irrefl k)

theorem overlay_place {i : Nat} (reached : low ≤ i) (below : i < high) (small : i < 2 ^ w) :
    overlay memory dest text low high (place dest i) = text i := by
  rw [overlay, place_sub_toNat dest small, if_pos ⟨reached, below⟩]

theorem overlay_outside (outside : ∀ i, low ≤ i → i < high → address ≠ place dest i) :
    overlay memory dest text low high address = memory address := by
  rw [overlay, if_neg]
  intro inside
  exact outside _ inside.1 inside.2 (place_of_sub dest address).symm

/-- Writing a place of the text adds it to the part that has been replaced. -/
theorem update_overlay {low' high' k : Nat} (small : k < 2 ^ w) (added : low' ≤ k ∧ k < high')
    (others : ∀ i, i ≠ k → (low ≤ i ∧ i < high ↔ low' ≤ i ∧ i < high')) :
    Function.update (overlay memory dest text low high) (place dest k) (text k) =
      overlay memory dest text low' high' := by
  funext address
  by_cases here : address = place dest k
  · subst here
    rw [Function.update_self, overlay_place added.1 added.2 small]
  · have other : (address - dest).toNat ≠ k := by
      intro same
      rw [← same, place_of_sub] at here
      exact here rfl
    rw [Function.update_of_ne here, overlay, overlay]
    congr 1
    exact propext (others _ other)

/-- One more place is written behind the part that has been replaced. -/
theorem update_overlay_high (ordered : low ≤ high) (small : high < 2 ^ w) :
    Function.update (overlay memory dest text low high) (place dest high) (text high) =
      overlay memory dest text low (high + 1) := by
  apply update_overlay small ⟨ordered, Nat.lt_succ_self high⟩
  intro i other
  omega

/-- One more place is written in front of the part that has been replaced. -/
theorem update_overlay_low (ordered : low < high) (small : low < 2 ^ w) :
    Function.update (overlay memory dest text (low + 1) high) (place dest low) (text low) =
      overlay memory dest text low high := by
  apply update_overlay small ⟨Nat.le_refl low, ordered⟩
  intro i other
  omega

/-- The contents continue the text behind the part that has been replaced. -/
theorem store_overlay {contents : List α} (ordered : low ≤ high)
    (small : high + contents.length ≤ 2 ^ w)
    (continues : ∀ (i : Nat) (inside : i < contents.length), contents[i] = text (high + i)) :
    store (overlay memory dest text low high) (place dest high) contents =
      overlay memory dest text low (high + contents.length) := by
  induction contents generalizing high with
  | nil => rfl
  | cons c rest induction =>
      rw [List.length_cons] at small
      have first := continues 0 (Nat.zero_lt_succ _)
      rw [List.getElem_cons_zero] at first
      rw [store, first, Nat.add_zero, update_overlay_high ordered (by omega), place_add,
        induction (Nat.le_succ_of_le ordered) (by omega), List.length_cons]
      · congr 1
        omega
      · intro i inside
        have later := continues (i + 1) (Nat.succ_lt_succ inside)
        rw [List.getElem_cons_succ] at later
        rw [later]
        congr 1
        omega

/-- The first `n` places of the two blocks have no address in common. -/
def Apart (dest src : BitVec w) (n : Nat) : Prop :=
  ∀ i j, i < n → j < n → place dest i ≠ place src j

/-- Copied from the first place on, the source is read before it is overwritten. -/
def Ahead (dest src : BitVec w) (n : Nat) : Prop :=
  ∀ i j, i < j → j < n → place dest i ≠ place src j

/-- Copied from the last place on, the source is read before it is overwritten. -/
def Behind (dest src : BitVec w) (n : Nat) : Prop :=
  ∀ i j, j < i → i < n → place dest i ≠ place src j

theorem Apart.ahead (apart : Apart dest src n) : Ahead dest src n :=
  fun i j less inside => apart i j (Nat.lt_trans less inside) inside

theorem apart_of_le (order : src.toNat + n ≤ dest.toNat ∨ dest.toNat + n ≤ src.toNat)
    (fits : dest.toNat + n ≤ 2 ^ w) (fits' : src.toNat + n ≤ 2 ^ w) : Apart dest src n := by
  intro i j inside inside' same
  have numbers := congrArg BitVec.toNat same
  rw [place_toNat (by omega), place_toNat (by omega)] at numbers
  omega

theorem Ahead.mono {m : Nat} (less : m ≤ n) (ahead : Ahead dest src n) : Ahead dest src m :=
  fun i j before inside => ahead i j before (Nat.lt_of_lt_of_le inside less)

theorem ahead_of_le (order : dest.toNat ≤ src.toNat) (fits : src.toNat + n ≤ 2 ^ w) :
    Ahead dest src n := by
  intro i j less inside same
  have numbers := congrArg BitVec.toNat same
  rw [place_toNat (by omega), place_toNat (by omega)] at numbers
  omega

theorem behind_of_le (order : src.toNat ≤ dest.toNat) (fits : dest.toNat + n ≤ 2 ^ w) :
    Behind dest src n := by
  intro i j less inside same
  have numbers := congrArg BitVec.toNat same
  rw [place_toNat (by omega), place_toNat (by omega)] at numbers
  omega

theorem Ahead.unread (ahead : Ahead dest src n) {k j : Nat} (later : k ≤ j) (inside : j < n) :
    overlay memory dest text 0 k (place src j) = memory (place src j) := by
  apply overlay_outside
  intro i _ copied same
  exact ahead i j (Nat.lt_of_lt_of_le copied later) inside same.symm

theorem Behind.unread (behind : Behind dest src n) {k j : Nat} (earlier : j < k) :
    overlay memory dest text k n (place src j) = memory (place src j) := by
  apply overlay_outside
  intro i copied inside same
  exact behind i j (Nat.lt_of_lt_of_le earlier copied) inside same.symm

end Blocks
