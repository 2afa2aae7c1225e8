import LightweightOs.System

/-!
# The divisor of the clock handler

`RTC_handler` divides by the product of a frequency that `rtc_write` checked
and the number of booted terminals, and then takes a remainder by the quotient.
The check lets through frequencies for which the quotient is zero, so whether
an interrupt is handled depends on the frequency of the scheduled terminal.
-/

namespace LightweightOs

open Transition

namespace Kernel

/-- `rtc_freq[curProcess]` -/
def scheduledFreq (s : Kernel) : Word := s.rtc.rtcFreq (s.curProcess - 1)

/-- `processes_active` -/
def activeTerminals (s : Kernel) : Word := processesActive s.table.baseShellBootedBitmask

/-- The arithmetic of `RTC_handler` is safe in this state. -/
structure DivisorSafe (s : Kernel) : Prop where
  nonzero : s.rtc.product (s.curProcess - 1) s.table.baseShellBootedBitmask ≠ 0
  noOverflow : (s.rtc.product (s.curProcess - 1) s.table.baseShellBootedBitmask).toNat =
    s.scheduledFreq.toNat * s.activeTerminals.toNat
  positive :
    1 ≤ (s.rtc.divisor (s.curProcess - 1) s.table.baseShellBootedBitmask).toNat
  handled : (s.step .rtc).isSome

/-- The frequency of the scheduled terminal is low enough for the number of
booted terminals. -/
def RateFits (s : Kernel) : Prop :=
  s.scheduledFreq ≤ initRateDefault ∨
    s.scheduledFreq = 512 ∧ s.activeTerminals ≤ 2 ∨
    s.scheduledFreq = 1024 ∧ s.activeTerminals = 1

end Kernel

theorem divisor_of_frequency {frequency active : Word}
    (tuned : frequency ∈ initRateDefault :: Rtc.acceptedFrequencies)
    (counted : active ∈ ([1, 2, 3] : List Word)) :
    frequency * active ≠ 0 ∧
      (frequency * active).toNat = frequency.toNat * active.toNat ∧
      (1 ≤ (maxFreq / (frequency * active)).toNat ↔
        frequency ≤ initRateDefault ∨ frequency = 512 ∧ active ≤ 2 ∨
          frequency = 1024 ∧ active = 1) := by
  simp only [Rtc.acceptedFrequencies, List.mem_cons, List.not_mem_nil, or_false]
    at tuned counted
  rcases counted with rfl | rfl | rfl <;>
    rcases tuned with rfl | rfl | rfl | rfl | rfl | rfl | rfl | rfl | rfl | rfl |
      rfl | rfl | rfl | rfl <;>
      decide

/-- Only a write to the clock and its interrupt touch the globals of RTC.c. -/
theorem Step.rtc_cases {s next : Kernel} {record : Record} (step : Step s record next) :
    next.rtc = s.rtc ∨
      (∃ frequency, next.rtc = (s.rtc.rtcWrite (s.curProcess - 1) frequency).1) ∨
      s.rtc.rtcHandler (s.curProcess - 1) s.table.baseShellBootedBitmask =
        some next.rtc := by
  obtain ⟨before, event, outcome⟩ := record
  obtain ⟨_, _, taken⟩ := step
  dsimp only at taken
  cases event with
  | execute frame locals commandUser =>
      obtain ⟨result, executes, isNext⟩ := Option.map_eq_some_iff.mp taken
      have kept := (Kernel.execute_keepsDevices executes).rtc
      cases result <;> cases isNext <;> exact .inl kept
  | halt frame inner locals status after =>
      obtain ⟨result, halts, isNext⟩ := Option.map_eq_some_iff.mp taken
      have kept := (Kernel.halt_keepsDevices halts).rtc
      cases result <;> cases isNext <;> exact .inl kept
  | pit frame locals =>
      obtain ⟨result, ticks, isNext⟩ := Option.map_eq_some_iff.mp taken
      have kept := Kernel.pitHandler_rtc ticks
      cases result <;> cases isNext <;> exact .inl kept
  | key frame inner locals scanCode after =>
      obtain ⟨result, handles, isNext⟩ := Option.map_eq_some_iff.mp taken
      have kept := (Kernel.keyboardHandler_keepsDevices handles).rtc
      cases result <;> cases isNext <;> exact .inl kept
  | vidmap frame locals screenStart =>
      obtain ⟨⟨mapped, value, store⟩, maps, isNext⟩ := Option.map_eq_some_iff.mp taken
      cases isNext
      exact .inl (Kernel.vidmap_rtc maps)
  | terminalWrite frame input =>
      obtain ⟨written, writes, isNext⟩ := Option.map_eq_some_iff.mp taken
      cases isNext
      exact .inl (Kernel.terminalWrite_keepsDevices writes).rtc
  | readStart bytes =>
      simp only [Kernel.step] at taken
      split at taken <;> cases taken <;> exact .inl rfl
  | readLine bytes =>
      cases taken
      exact .inl rfl
  | rtcWrite frequency =>
      cases taken
      exact .inr (.inl ⟨frequency, rfl⟩)
  | rtc =>
      obtain ⟨ticked, handles, isNext⟩ := Option.map_eq_some_iff.mp taken
      cases isNext
      exact .inr (.inr handles)

/-- Only an accepted `rtc_write` changes a frequency. -/
theorem Step.tuned {s next : Kernel} {record : Record} (tuned : s.rtc.Tuned)
    (step : Step s record next) : next.rtc.Tuned := by
  rcases step.rtc_cases with same | ⟨frequency, written⟩ | handles
  · rw [same]
    exact tuned
  · rw [written]
    exact tuned.rtcWrite _ frequency
  · exact tuned.rtcHandler handles

theorem Booted.tuned {s : Kernel} (booted : Booted s) : s.rtc.Tuned := by
  obtain ⟨pre, frame, locals, after, started, preBoot, _, executes⟩ := booted
  have kept := (Kernel.execute_keepsDevices executes).rtc
  have initial : s.rtc = rtcInit := kept.trans preBoot.rtc
  rw [initial]
  exact Rtc.rtcInit_tuned

/-- In a state with accepted frequencies the arithmetic is safe exactly when the
rate fits. -/
theorem Kernel.divisorSafe_iff_of_tuned {s : Kernel} (tuned : s.rtc.Tuned) :
    s.DivisorSafe ↔ s.RateFits := by
  obtain ⟨nonzero, noOverflow, quotient⟩ := divisor_of_frequency (tuned (s.curProcess - 1))
    (Rtc.processesActive_mem s.table.baseShellBootedBitmask)
  constructor
  · intro safe
    exact quotient.mp safe.positive
  · intro fits
    have positive := quotient.mpr fits
    refine ⟨nonzero, noOverflow, positive, ?_⟩
    have notZero : s.rtc.divisor (s.curProcess - 1)
        s.table.baseShellBootedBitmask ≠ 0 := by
      intro zero
      have none : (s.rtc.divisor (s.curProcess - 1)
        s.table.baseShellBootedBitmask).toNat = 0 := by rw [zero]; rfl
      have some : 1 ≤ (s.rtc.divisor (s.curProcess - 1)
        s.table.baseShellBootedBitmask).toNat := positive
      omega
    have product : s.rtc.product (s.curProcess - 1)
        s.table.baseShellBootedBitmask ≠ 0 := nonzero
    simp only [Kernel.step, Rtc.rtcHandler, if_neg product, if_neg notZero,
      Option.map_some, Option.isSome_some]

theorem rtc_divisor {start s : Kernel} {history : List Record}
    (booted : Booted start) (run : Run Step start history s) :
    s.DivisorSafe ↔ s.RateFits := by
  apply Kernel.divisorSafe_iff_of_tuned
  exact run.invariant (fun _ _ _ tuned step => step.tuned tuned) booted.tuned

theorem rtc_divisor_sampleTour :
    ∃ history final, Run Step sampleStart history final ∧ history.length = 6 ∧
      (final.DivisorSafe ↔ final.RateFits) := by
  obtain ⟨history, final, run, length⟩ := sampleTour_run
  exact ⟨history, final, run, length, rtc_divisor sampleStart_booted run⟩

/-- Two terminals are booted and the second asks for 1024 Hz. -/
def fastClockEvents : List Event :=
  [sampleKey 1 ScanCode.alt, sampleKey 1 ScanCode.f2, .rtcWrite 1024]

theorem rtc_divides_by_zero :
    ¬∀ start s history, Booted start → Run Step start history s →
      s.DivisorSafe := by
  intro safe
  obtain ⟨history, final, run, zero⟩ :=
    @Kernel.run_of_replay sampleStart fastClockEvents
      (fun _ final => final.rtc.divisor (final.curProcess - 1)
        final.table.baseShellBootedBitmask = 0) _ (by decide +kernel)
  have positive := (safe sampleStart final history sampleStart_booted run).positive
  rw [zero] at positive
  simp at positive

end LightweightOs
