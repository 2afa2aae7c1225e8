import LightweightOs.Rtc

/-!
# The check of `rtc_write`

A frequency passes a bit test for powers of two, and its rate, which a loop of
halvings finds, has to lie in the window of rates.  Together they let through
the powers of two from 2 to 8192 and nothing else.
-/

namespace LightweightOs

namespace Rtc

/-- The frequency is 2^k for a k from 1 to 13. -/
def IsRate (frequency : Word) : Prop :=
  ∃ k, 1 ≤ k ∧ k ≤ 13 ∧ frequency.toNat = 2 ^ k

/-- What `rtc_write` does with a frequency that the terminal with index `t` asks for. -/
structure Validates (r : Rtc) (t : Int) (frequency : Word) : Prop where
  terminates : ∃ rate, ∀ fuel ≥ 17, rateFrom frequency 32768#32 1 fuel = some rate
  accepts : (r.rtcWrite t frequency).2 = 0 ∧
      (r.rtcWrite t frequency).1 = { r with rtcFreq := assign r.rtcFreq t frequency } ↔
    IsRate frequency
  rejects : ¬IsRate frequency →
    (r.rtcWrite t frequency).2 = -1 ∧ (r.rtcWrite t frequency).1 = r
  others : ∀ other, other ≠ t →
    (r.rtcWrite t frequency).1.rtcFreq other = r.rtcFreq other

section Loop

variable {frequency value : Word} {rate result : Int} {fuel : Nat}

theorem rateFrom_isSome (spent : value.toNat < 2 ^ fuel) :
    (rateFrom frequency value rate (fuel + 1)).isSome := by
  induction fuel generalizing value rate with
  | zero =>
      have isZero : value = 0 := by
        apply BitVec.eq_of_toNat_eq
        exact Nat.lt_one_iff.mp spent
      simp [rateFrom, isZero]
  | succ fuel induction =>
      rw [rateFrom]
      split
      · apply induction
        rw [BitVec.toNat_ushiftRight, Nat.shiftRight_eq_div_pow, pow_one]
        rw [Nat.pow_succ] at spent
        exact Nat.div_lt_of_lt_mul (by rwa [Nat.mul_comm])
      · exact rfl

theorem rateFrom_more (stops : rateFrom frequency value rate fuel = some result)
    {more : Nat} (enough : fuel ≤ more) :
    rateFrom frequency value rate more = some result := by
  induction fuel generalizing value rate more with
  | zero => cases stops
  | succ fuel induction =>
      obtain ⟨later, rfl⟩ := Nat.exists_eq_add_of_le' enough
      rw [rateFrom] at stops
      change rateFrom frequency value rate ((later + fuel) + 1) = some result
      rw [rateFrom]
      split at stops
      case isTrue above =>
        rw [if_pos above]
        exact induction stops (Nat.le_add_left fuel later)
      case isFalse atMost =>
        rw [if_neg atMost]
        exact stops

theorem rateFrom_terminates (frequency : Word) :
    ∃ rate, ∀ fuel ≥ 17, rateFrom frequency 32768#32 1 fuel = some rate := by
  have stops : (rateFrom frequency 32768#32 1 17).isSome :=
    rateFrom_isSome (by decide)
  obtain ⟨rate, isRate⟩ := Option.isSome_iff_exists.mp stops
  exact ⟨rate, fun fuel enough => rateFrom_more isRate enough⟩

end Loop

theorem mem_acceptedFrequencies_iff {frequency : Word} :
    frequency ∈ acceptedFrequencies ↔ IsRate frequency := by
  constructor
  · intro accepted
    simp only [acceptedFrequencies, List.mem_cons, List.not_mem_nil, or_false] at accepted
    -- the list holds the thirteen powers in order
    rcases accepted with rfl | rfl | rfl | rfl | rfl | rfl | rfl | rfl | rfl | rfl | rfl |
      rfl | rfl
    · exact ⟨1, by decide⟩
    · exact ⟨2, by decide⟩
    · exact ⟨3, by decide⟩
    · exact ⟨4, by decide⟩
    · exact ⟨5, by decide⟩
    · exact ⟨6, by decide⟩
    · exact ⟨7, by decide⟩
    · exact ⟨8, by decide⟩
    · exact ⟨9, by decide⟩
    · exact ⟨10, by decide⟩
    · exact ⟨11, by decide⟩
    · exact ⟨12, by decide⟩
    · exact ⟨13, by decide⟩
  · rintro ⟨k, low, high, isPower⟩
    have value : frequency = BitVec.ofNat 32 (2 ^ k) := by
      rw [← isPower, BitVec.ofNat_toNat, BitVec.setWidth_eq]
    rw [value]
    interval_cases k <;> decide

theorem rtcWrite_of_accepted (r : Rtc) (t : Int) {frequency : Word}
    (accepted : frequency ∈ acceptedFrequencies) :
    r.rtcWrite t frequency = ({ r with rtcFreq := assign r.rtcFreq t frequency }, 0) := by
  simp only [acceptedFrequencies, List.mem_cons, List.not_mem_nil, or_false] at accepted
  rcases accepted with rfl | rfl | rfl | rfl | rfl | rfl | rfl | rfl | rfl | rfl | rfl |
    rfl | rfl <;> rfl

theorem rtcWrite_of_not_accepted (r : Rtc) (t : Int) {frequency : Word}
    (refused : frequency ∉ acceptedFrequencies) :
    r.rtcWrite t frequency = (r, -1) := by
  by_cases valid : 0 < frequency ∧ frequency &&& (frequency - 1) = 0
  · cases stops : rateFrom frequency 32768#32 1 17 with
    | none => simp [rtcWrite, stops]
    | some rate =>
        have window : rate < 3 ∨ rate > 15 := by
          by_contra inside
          exact refused (mem_acceptedFrequencies valid.2 stops inside)
        simp only [rtcWrite, valid, stops, and_self, not_true_eq_false, if_false,
          if_pos window]
  · rw [rtcWrite, if_pos valid]

theorem rtc_write_validates (r : Rtc) (t : Int) (frequency : Word) :
    r.Validates t frequency := by
  by_cases accepted : frequency ∈ acceptedFrequencies
  · have written := r.rtcWrite_of_accepted t accepted
    have isRate := mem_acceptedFrequencies_iff.mp accepted
    constructor
    case terminates => exact rateFrom_terminates frequency
    case accepts =>
      rw [written]
      exact iff_of_true ⟨rfl, rfl⟩ isRate
    case rejects => exact fun notRate => (notRate isRate).elim
    case others =>
      intro other different
      rw [written]
      exact assign_of_ne different _ _
  · have refused := r.rtcWrite_of_not_accepted t accepted
    have notRate := mt mem_acceptedFrequencies_iff.mpr accepted
    have minusOne : (-1 : Int) ≠ 0 := by decide
    constructor
    case terminates => exact rateFrom_terminates frequency
    case accepts =>
      rw [refused]
      exact iff_of_false (fun returned => minusOne returned.1) notRate
    case rejects =>
      intro _
      rw [refused]
      exact ⟨rfl, rfl⟩
    case others =>
      intro other _
      rw [refused]

end Rtc

end LightweightOs
