import Mathlib.Logic.Basic

/-!
# Computations with fuel

A computation that runs out of fuel gives nothing.  It returns a value when some
amount of fuel and every larger one give that value, so the amount itself stays
out of the statements.
-/

namespace Fuel

variable {α β : Type*} {f : Nat → Option α} {a b : α}

/-- With enough fuel the computation gives the value. -/
def Returns (f : Nat → Option α) (a : α) : Prop :=
  ∃ enough, ∀ fuel, enough ≤ fuel → f fuel = some a

theorem Returns.pure (a : α) : Returns (fun _ => some a) a := ⟨0, fun _ _ => rfl⟩

theorem Returns.spend {next : Nat → Option α} (spent : ∀ fuel, f (fuel + 1) = next fuel)
    (returns : Returns next a) : Returns f a := by
  obtain ⟨enough, later⟩ := returns
  refine ⟨enough + 1, ?_⟩
  intro fuel large
  cases fuel with
  | zero => exact absurd large (Nat.not_succ_le_zero enough)
  | succ fuel =>
      rw [spent]
      exact later fuel (Nat.le_of_succ_le_succ large)

theorem Returns.bind {next : α → Nat → Option β} {value : β} (first : Returns f a)
    (second : Returns (next a) value) :
    Returns (fun fuel => (f fuel).bind fun x => next x fuel) value := by
  obtain ⟨enough, early⟩ := first
  obtain ⟨more, late⟩ := second
  refine ⟨max enough more, ?_⟩
  intro fuel large
  have here := early fuel (Nat.le_trans (Nat.le_max_left enough more) large)
  have there := late fuel (Nat.le_trans (Nat.le_max_right enough more) large)
  dsimp only
  rw [here, Option.bind_some, there]

theorem Returns.map (g : α → β) (returns : Returns f a) :
    Returns (fun fuel => (f fuel).map g) (g a) := by
  obtain ⟨enough, later⟩ := returns
  refine ⟨enough, ?_⟩
  intro fuel large
  dsimp only
  rw [later fuel large, Option.map_some]

theorem Returns.exists_fuel (returns : Returns f a) : ∃ fuel, f fuel = some a := by
  obtain ⟨enough, later⟩ := returns
  exact ⟨enough, later enough (Nat.le_refl enough)⟩

end Fuel
