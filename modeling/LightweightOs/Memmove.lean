import LightweightOs.MemoryLoops

/-!
# Moving memory

`memmove` copies upwards when the source is not below the destination, and
otherwise sets the direction flag and copies downwards.  Either way the bytes
arrive, however the ranges overlap; but nothing clears the flag again.
-/

namespace LightweightOs

namespace Lib

open Blocks X86

/-- `memmove`, which returns `dest`; the load of `es` is left out as in `memcpy`. -/
def memmove (m : Machine) (dest src n : Word) : Machine :=
  let m :=
    { m with
      edi := dest
      esi := src
      ecx := n }
  let m := { m with df := false }
  if m.edi ≤ m.esi then rep movsb m
  else
    let m := { m with esi := m.esi + m.ecx - 1 }
    let m := { m with edi := m.edi + m.ecx - 1 }
    let m := { m with df := true }
    rep movsb m

/-- The destination holds what the source held, nothing else has changed, and string
instructions go forward again. -/
structure Moves (m after : Machine) (dest src : Word) (n : Nat) : Prop where
  moved : ∀ i, i < n → after.memory (place dest i) = m.memory (place src i)
  kept : ∀ address, ¬ Inside dest n address → after.memory address = m.memory address
  clear : after.df = false

theorem add_toNat_sub_one (base n : Word) : base + n - 1 = place base n.toNat - 1 := by
  rw [place, BitVec.ofNat_toNat, BitVec.setWidth_eq]

theorem memmove_memory (m : Machine) {dest src n : Word}
    (fits : dest.toNat + n.toNat ≤ 2 ^ 32) (fits' : src.toNat + n.toNat ≤ 2 ^ 32) :
    (memmove m dest src n).memory =
      overlay m.memory dest (fun i => m.memory (place src i)) 0 n.toNat := by
  have small := n.isLt.le
  by_cases order : dest ≤ src
  · have ahead := ahead_of_le (BitVec.le_def.mp order) fits'
    have start : Copied m dest src 0
        { m with edi := dest, esi := src, ecx := n, df := false } :=
      .begin rfl rfl rfl rfl rfl
    have copied := start.rep_movsb ahead small rfl rfl
    rw [memmove, if_pos order]
    exact copied.memory
  · have behind := behind_of_le (Nat.le_of_not_le (mt BitVec.le_def.mpr order)) fits
    have start : CopiedDown m dest src n.toNat n.toNat
        { m with edi := dest + n - 1, esi := src + n - 1, ecx := n, df := true } :=
      ⟨(overlay_empty _ _ _ _).symm, add_toNat_sub_one dest n, add_toNat_sub_one src n⟩
    have copied := start.rep_movsb behind small rfl rfl
    rw [memmove, if_neg order]
    exact copied.memory

theorem memmove_df (m : Machine) (dest src n : Word) :
    (memmove m dest src n).df = decide (src < dest) := by
  by_cases order : dest ≤ src
  · rw [memmove, if_pos order, rep_df, decide_eq_false (BitVec.not_lt.mpr order)]
  · rw [memmove, if_neg order, rep_df, decide_eq_true (BitVec.not_le.mp order)]

/-- `memmove` does all of it exactly if it copies forward. -/
theorem memmove_moves_iff (m : Machine) {dest src n : Word}
    (fits : dest.toNat + n.toNat ≤ 2 ^ 32) (fits' : src.toNat + n.toNat ≤ 2 ^ 32) :
    Moves m (memmove m dest src n) dest src n.toNat ↔ dest ≤ src := by
  have memory := memmove_memory m fits fits'
  constructor
  · intro moves
    have clear := moves.clear
    rw [memmove_df, decide_eq_false_iff_not] at clear
    exact BitVec.not_lt.mp clear
  · intro order
    constructor
    case moved =>
      intro i inside
      rw [memory]
      exact overlay_place (Nat.zero_le i) inside (Nat.lt_trans inside n.isLt)
    case kept =>
      intro address outside
      rw [memory]
      apply overlay_outside
      exact fun i _ inside isPlace => outside ⟨i, inside, isPlace⟩
    case clear =>
      rw [memmove_df]
      exact decide_eq_false (BitVec.not_lt.mpr order)

theorem memmove_moves_iff_overlapping :
    Moves ⟨fun address => address.setWidth 8, 0, 0, 0, 0, 0, false, [], []⟩
      (memmove ⟨fun address => address.setWidth 8, 0, 0, 0, 0, 0, false, [], []⟩
        0x1000#32 0x1001#32 4#32) 0x1000#32 0x1001#32 4 :=
  (memmove_moves_iff ⟨fun address => address.setWidth 8, 0, 0, 0, 0, 0, false, [], []⟩
    (show (0x1000#32).toNat + (4#32).toNat ≤ 2 ^ 32 by decide)
    (show (0x1001#32).toNat + (4#32).toNat ≤ 2 ^ 32 by decide)).mpr (by decide)

/-- Four bytes are moved up by one place, and the flag is set behind them. -/
theorem memmove_backward_flag :
    ¬ Moves ⟨fun address => address.setWidth 8, 0, 0, 0, 0, 0, false, [], []⟩
      (memmove ⟨fun address => address.setWidth 8, 0, 0, 0, 0, 0, false, [], []⟩
        0x1001#32 0x1000#32 4#32) 0x1001#32 0x1000#32 4 := by
  intro moves
  have clear := moves.clear
  rw [memmove_df] at clear
  exact absurd clear (by decide)

end Lib

end LightweightOs
