import Mathlib.Data.Nat.Count

/-!
# Multiples passed by a counter

A counter that goes up by one passes the multiples of a divisor at regular
distances.  A counter that wraps around at `size` does so too when the divisor
divides `size`; otherwise the distance over the wraparound is shorter, and the
count is that of the two sides.
-/

namespace Multiples

/-- The multiples of `divisor` among the `length` values from `first` on. -/
theorem count_eq {divisor : Nat} (positive : 0 < divisor) (first length : Nat) :
    Nat.count (fun i => (first + i) % divisor = 0) length =
      (first + length + (divisor - 1)) / divisor - (first + (divisor - 1)) / divisor := by
  induction length with
  | zero => simp
  | succ length induction =>
      have grows : (first + (divisor - 1)) / divisor ≤
          (first + length + (divisor - 1)) / divisor := by
        apply Nat.div_le_div_right
        omega
      have next : first + (length + 1) + (divisor - 1) = first + length + divisor := by
        omega
      have previous : first + length + divisor = first + length + (divisor - 1) + 1 := by
        omega
      rw [Nat.count_succ, induction, next]
      by_cases multiple : (first + length) % divisor = 0
      · have divides : divisor ∣ first + length + (divisor - 1) + 1 := by
          rw [← previous]
          exact Nat.dvd_add (Nat.dvd_of_mod_eq_zero multiple) (Nat.dvd_refl divisor)
        rw [if_pos multiple, previous, Nat.succ_div_of_dvd divides]
        omega
      · have skips : ¬divisor ∣ first + length + (divisor - 1) + 1 := by
          rw [← previous]
          intro divides
          apply multiple
          exact Nat.mod_eq_zero_of_dvd ((Nat.dvd_add_left (Nat.dvd_refl divisor)).mp divides)
        rw [if_neg multiple, previous, Nat.succ_div_of_not_dvd skips]
        rfl

theorem count_congr {p q : Nat → Prop} [DecidablePred p] [DecidablePred q] {length : Nat}
    (same : ∀ i < length, p i ↔ q i) : Nat.count p length = Nat.count q length := by
  apply Nat.le_antisymm
  · exact Nat.count_mono_left fun i less => (same i less).mp
  · exact Nat.count_mono_left fun i less => (same i less).mpr

section Wrapping

variable {size divisor first length : Nat}

theorem count_of_le (within : first + length ≤ size) :
    Nat.count (fun i => (first + i) % size % divisor = 0) length =
      Nat.count (fun i => (first + i) % divisor = 0) length := by
  apply count_congr
  intro i less
  rw [Nat.mod_eq_of_lt (by omega : first + i < size)]

theorem count_of_wrap (below : first ≤ size) (around : size ≤ first + length)
    (once : first + length ≤ 2 * size) :
    Nat.count (fun i => (first + i) % size % divisor = 0) length =
      Nat.count (fun i => (first + i) % divisor = 0) (size - first) +
        Nat.count (fun i => (0 + i) % divisor = 0) (first + length - size) := by
  have parts : length = (size - first) + (first + length - size) := by
    omega
  rw [parts, Nat.count_add, ← parts]
  congr 1
  · apply count_of_le
    omega
  · apply count_congr
    intro i less
    have wraps : (first + (size - first + i)) % size = 0 + i := by
      rw [show first + (size - first + i) = size + i by omega, Nat.add_mod_left,
        Nat.mod_eq_of_lt (by omega : i < size), Nat.zero_add]
    rw [wraps]

/-- When the divisor divides the size the wraparound is not noticed, and whole periods
give a multiple each. -/
theorem count_of_dvd (positive : 0 < divisor) (divides : divisor ∣ size) (first periods : Nat) :
    Nat.count (fun i => (first + i) % size % divisor = 0) (divisor * periods) = periods := by
  have unnoticed : Nat.count (fun i => (first + i) % size % divisor = 0) (divisor * periods) =
      Nat.count (fun i => (first + i) % divisor = 0) (divisor * periods) := by
    apply count_congr
    intro i _
    rw [Nat.mod_mod_of_dvd _ divides]
  rw [unnoticed, count_eq positive, Nat.add_right_comm, Nat.add_mul_div_left _ _ positive,
    Nat.add_sub_cancel_left]

end Wrapping

/-- A place of a cycle comes up when a counter that is ahead by the rest of the cycle passes
a multiple of its length. -/
theorem count_place {length place : Nat} (inside : place < length) (first steps : Nat) :
    Nat.count (fun i => (first + i) % length = place) steps =
      Nat.count (fun i => (first + (length - place) + i) % length = 0) steps := by
  apply count_congr
  intro i _
  have ahead : (first + (length - place) + i) % length =
      ((first + i) % length + (length - place)) % length := by
    rw [Nat.mod_add_mod, Nat.add_right_comm]
  have bound : (first + i) % length < length := by
    apply Nat.mod_lt
    omega
  rw [ahead]
  generalize (first + i) % length = reached at bound
  by_cases short : reached < place
  · rw [Nat.mod_eq_of_lt (by omega)]
    omega
  · rw [Nat.mod_eq_sub_mod (by omega), Nat.mod_eq_of_lt (by omega)]
    omega

end Multiples
