import LightweightOs.Words
import LightweightOs.Library.BitField
import Mathlib.Tactic.IntervalCases

/-!
# The virtualised real-time clock

The chip interrupts at 1024 Hz; `RTC_handler` counts interrupts for the
terminal being scheduled and releases its reader whenever the count is a
multiple of a divisor computed from the terminal's frequency and the number of
booted terminals.
-/

namespace LightweightOs

def maxFreq : Word := 1024#32

/-- `INIT_RATE_DEFAULT` -/
def initRateDefault : Word := 340#32

structure Rtc where
  rtcFlag : Int → Bool
  rtcCounter : Int → Word
  rtcFreq : Int → Word

/-- The values of the static initialisers. -/
def rtcInit : Rtc :=
  { rtcFlag := fun _ => false
    rtcCounter := fun _ => 0
    rtcFreq := fun _ => initRateDefault }

/-- The number of booted terminals as `RTC_handler` counts them: the first one
without looking, the others by their bits. -/
def processesActive (baseShellBootedBitmask : Byte) : Word :=
  [1, 2].foldl
    (fun active (i : Nat) =>
      if (baseShellBootedBitmask >>> i) &&& 1 ≠ 0 then active + 1 else active) 1

namespace Rtc

/-- `rtc_freq[curProcess] * processes_active` -/
def product (r : Rtc) (curProcess : Int) (bootedBitmask : Byte) : Word :=
  r.rtcFreq curProcess * processesActive bootedBitmask

/-- `MAX_FREQ / (rtc_freq[curProcess] * processes_active)` -/
def divisor (r : Rtc) (curProcess : Int) (bootedBitmask : Byte) : Word :=
  maxFreq / r.product curProcess bootedBitmask

/-- `RTC_handler` for the terminal with index `curProcess`; `none` is a
division error. -/
def rtcHandler (r : Rtc) (curProcess : Int) (bootedBitmask : Byte) :
    Option Rtc :=
  if r.product curProcess bootedBitmask = 0 then none
  else if r.divisor curProcess bootedBitmask = 0 then none
  else
    let count := r.rtcCounter curProcess
    some
      { r with
        rtcFlag :=
          if count % r.divisor curProcess bootedBitmask = 0
          then assign r.rtcFlag curProcess false
          else r.rtcFlag
        rtcCounter := assign r.rtcCounter curProcess (count + 1) }

/-- The halving loop of `rtc_write`: the rate whose frequency is the first not
above `frequency`. -/
def rateFrom (frequency value : Word) (rate : Int) : Nat → Option Int
  | 0 => none
  | fuel + 1 =>
      if frequency < value then rateFrom frequency (value >>> 1) (rate + 1) fuel
      else some rate

/-- `rtc_write` for the terminal with index `curProcess`.  Sixteen halvings
take 32768 to zero, so the fuel covers the whole loop. -/
def rtcWrite (r : Rtc) (curProcess : Int) (frequency : Word) : Rtc × Int :=
  if ¬(0 < frequency ∧ frequency &&& (frequency - 1) = 0) then (r, -1)
  else
    match rateFrom frequency 32768#32 1 17 with
    | none => (r, -1)
    | some rate =>
        if rate < 3 ∨ rate > 15 then (r, -1)
        else ({ r with rtcFreq := assign r.rtcFreq curProcess frequency }, 0)

/-- `rtc_open`: the chip goes back to its initial rate, `rtc_freq` stays. -/
def rtcOpen (r : Rtc) (curProcess : Int) : Rtc :=
  { r with rtcFlag := assign r.rtcFlag curProcess false }

/-- `rtc_read` up to its wait. -/
def rtcReadStart (r : Rtc) (curProcess : Int) : Rtc :=
  { r with rtcFlag := assign r.rtcFlag curProcess true }

/-- The wait of `rtc_read` ends. -/
def ticked (r : Rtc) (curProcess : Int) : Bool := !r.rtcFlag curProcess

/-- `rtc_read` after its wait. -/
def rtcReadEnd (r : Rtc) (curProcess : Int) : Rtc :=
  { r with rtcFlag := assign r.rtcFlag curProcess true }

/-- The loop stops at the first halving that is not above the frequency. -/
theorem rateFrom_stops {frequency value : Word} {rate result : Int} {fuel : Nat}
    (stops : rateFrom frequency value rate fuel = some result) :
    ∃ halvings < fuel, result = rate + halvings ∧
      value >>> halvings ≤ frequency ∧
      (halvings ≠ 0 → frequency < value >>> (halvings - 1)) := by
  induction fuel generalizing value rate with
  | zero => cases stops
  | succ fuel induction =>
      simp only [rateFrom] at stops
      split at stops
      case isTrue above =>
        obtain ⟨halvings, less, isResult, atMost, below⟩ := induction stops
        refine ⟨halvings + 1, by omega, by omega, ?_, ?_⟩
        · rw [Nat.add_comm, BitVec.shiftRight_add]
          exact atMost
        · intro _
          cases halvings with
          | zero => simpa using above
          | succ earlier =>
              have shifted := below (by omega)
              rw [← BitVec.shiftRight_add, Nat.add_sub_cancel, Nat.add_comm] at shifted
              exact shifted
      case isFalse atMost =>
        cases stops
        exact ⟨0, by omega, by simp, by simpa using atMost, by simp⟩

/-- The frequencies `rtc_write` accepts: its window of rates lets 2048, 4096 and
8192 Hz through. -/
def acceptedFrequencies : List Word :=
  [2, 4, 8, 16, 32, 64, 128, 256, 512, 1024, 2048, 4096, 8192]

theorem mem_acceptedFrequencies {frequency : Word} {rate : Int}
    (power : frequency &&& (frequency - 1) = 0)
    (stops : rateFrom frequency 32768#32 1 17 = some rate)
    (window : ¬(rate < 3 ∨ rate > 15)) : frequency ∈ acceptedFrequencies := by
  obtain ⟨halvings, _, isRate, atMost, below⟩ := rateFrom_stops stops
  have low : 2 ≤ halvings := by omega
  have high : halvings ≤ 14 := by omega
  have positive : halvings ≠ 0 := by omega
  have above := below positive
  rw [BitVec.le_def, BitVec.toNat_ushiftRight, Nat.shiftRight_eq_div_pow] at atMost
  rw [BitVec.lt_def, BitVec.toNat_ushiftRight, Nat.shiftRight_eq_div_pow] at above
  have value : frequency.toNat = 2 ^ (15 - halvings) := by
    apply BitField.toNat_eq_twoPow_of_and_pred _ _ _ power
    · interval_cases halvings <;> simpa using atMost
    · interval_cases halvings <;> simpa using above
  have isPower : frequency = BitVec.ofNat 32 (2 ^ (15 - halvings)) := by
    rw [← value, BitVec.ofNat_toNat, BitVec.setWidth_eq]
  rw [isPower]
  interval_cases halvings <;> decide

theorem rtcWrite_cases (r : Rtc) (curProcess : Int) (frequency : Word) :
    (r.rtcWrite curProcess frequency).1 = r ∨
      frequency ∈ acceptedFrequencies ∧
        (r.rtcWrite curProcess frequency).1 =
          { r with rtcFreq := assign r.rtcFreq curProcess frequency } := by
  by_cases valid : 0 < frequency ∧ frequency &&& (frequency - 1) = 0
  · cases stops : rateFrom frequency 32768#32 1 17 with
    | none => simp [rtcWrite, stops]
    | some rate =>
        by_cases window : rate < 3 ∨ rate > 15
        · left
          simp only [rtcWrite, valid, stops, and_self, not_true_eq_false, if_false,
            if_pos window]
        · right
          refine ⟨mem_acceptedFrequencies valid.2 stops window, ?_⟩
          simp only [rtcWrite, valid, stops, and_self, not_true_eq_false, if_false,
            if_neg window]
  · left
    simp only [rtcWrite, if_pos valid]

/-- Every terminal has the default frequency or one that was accepted. -/
def Tuned (r : Rtc) : Prop :=
  ∀ i, r.rtcFreq i ∈ initRateDefault :: acceptedFrequencies

theorem rtcInit_tuned : rtcInit.Tuned := by
  intro i
  exact List.mem_cons_self

theorem Tuned.rtcWrite {r : Rtc} (tuned : r.Tuned) (curProcess : Int)
    (frequency : Word) : (r.rtcWrite curProcess frequency).1.Tuned := by
  rcases rtcWrite_cases r curProcess frequency with same | ⟨accepted, written⟩
  · rw [same]
    exact tuned
  · rw [written]
    intro i
    by_cases here : i = curProcess
    · simp only [here, Function.update_self]
      exact List.mem_cons_of_mem _ accepted
    · simp only [ne_eq, here, not_false_eq_true, Function.update_of_ne]
      exact tuned i

theorem Tuned.rtcHandler {r next : Rtc} {curProcess : Int} {mask : Byte}
    (tuned : r.Tuned) (handles : r.rtcHandler curProcess mask = some next) :
    next.Tuned := by
  simp only [Rtc.rtcHandler] at handles
  split at handles
  · cases handles
  · split at handles
    · cases handles
    · cases handles
      exact tuned

theorem processesActive_mem (mask : Byte) :
    processesActive mask ∈ ([1, 2, 3] : List Word) := by
  simp only [processesActive, List.foldl_cons, List.foldl_nil]
  split <;> split <;> decide

end Rtc

end LightweightOs
