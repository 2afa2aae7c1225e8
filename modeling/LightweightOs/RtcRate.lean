import LightweightOs.Clock
import LightweightOs.Library.Multiples

/-!
# The rate of the virtual clock

`RTC_handler` counts the interrupts of each terminal apart and clears a
terminal's flag whenever that count is a multiple of 1024 over the frequency
times the number of booted terminals.  With one or two terminals the quotient
is exact and divides the range of the counter.  With three it is rounded down:
a low frequency comes out right except where the counter wraps around, and from
32 Hz on too many interrupts clear the flag.
-/

namespace LightweightOs

open Transition

/-- The terminals that `RTC_handler` counts. -/
def bootedTerminals (mask : Byte) : List Int :=
  0 :: (([1, 2] : List Nat).filter fun i => (mask >>> i) &&& 1 ≠ 0).map Int.ofNat

theorem bootedTerminals_length (mask : Byte) :
    (bootedTerminals mask).length = (processesActive mask).toNat := by
  simp only [bootedTerminals, processesActive, List.foldl_cons, List.foldl_nil,
    List.filter_cons, List.filter_nil, decide_eq_true_eq]
  split <;> split <;> rfl

theorem bootedTerminals_nodup (mask : Byte) : (bootedTerminals mask).Nodup := by
  apply List.nodup_cons.mpr
  constructor
  · simp
  · apply List.Nodup.map Int.ofNat_injective
    apply List.Nodup.filter
    decide

/-- Interrupts fall on the terminals of `order` in turn, and nobody writes another
frequency for `t`. -/
def InTurn (order : List Int) (t : Int) (c : Clock) (record : ClockRecord) : Prop :=
  match record.event with
  | .interrupt curProcess =>
      order[c.interrupts % order.length]? = some curProcess
  | .rtcWrite curProcess _ => curProcess ≠ t
  | .readStart _ | .readEnd _ | .rtcOpen _ => True

/-- A step of the clock while the booted terminals are interrupted in turn. -/
abbrev TurnStep (mask : Byte) (order : List Int) (t : Int) :
    Clock → ClockRecord → Clock → Prop :=
  Guarded (InTurn order t) (ClockStep mask)

/-- `rtc_write` has just accepted a frequency for the terminal with index `t`. -/
structure WroteRate (t : Int) (frequency : Word) (c : Clock) : Prop where
  accepted : ∃ r : Rtc, (r.rtcWrite t frequency).2 = 0 ∧ c.rtc = (r.rtcWrite t frequency).1
  returned : c.waiting t = false
  executes : c.spinning = false

namespace ClockRecord

def IsInterrupt (record : ClockRecord) : Prop :=
  ∃ curProcess, record.event = .interrupt curProcess

instance (record : ClockRecord) : Decidable record.IsInterrupt :=
  match isEvent : record.event with
  | .interrupt curProcess => isTrue ⟨curProcess, isEvent⟩
  | .readStart _ | .readEnd _ | .rtcOpen _ | .rtcWrite _ _ =>
      isFalse (by rintro ⟨_, other⟩; rw [isEvent] at other; cases other)

/-- `RTC_handler` comes through its arithmetic. -/
def Handled (record : ClockRecord) (mask : Byte) : Prop :=
  ∀ curProcess, record.event = .interrupt curProcess →
    (record.before.rtc.rtcHandler curProcess mask).isSome

/-- The frequency of the interrupted terminal times the number of booted terminals is
positive and at most 1024. -/
def RateAllowed (record : ClockRecord) (mask : Byte) : Prop :=
  ∀ curProcess, record.event = .interrupt curProcess →
    record.before.rtc.product curProcess mask ≠ 0 ∧
      record.before.rtc.product curProcess mask ≤ maxFreq

end ClockRecord

/-- The interrupts of a history. -/
def interruptsOf (history : List ClockRecord) : List ClockRecord :=
  history.filter fun record => record.IsInterrupt

/-- 1024 consecutive interrupts of a history. -/
def ClockWindow (history window : List ClockRecord) : Prop :=
  window <:+: interruptsOf history ∧ window.length = 1024

/-- A count differs from the frequency by at most one. -/
def NearRate (frequency : Word) (count : Nat) : Prop :=
  count ≤ frequency.toNat + 1 ∧ frequency.toNat ≤ count + 1

/-- The counter, at `counter` before the first of `ticks` ticks, comes to the last multiple
of the divisor before its wraparound so early that the two sides hold two multiples more
than the frequency. -/
def CrowdedWrap (frequency counter ticks : Nat) : Prop :=
  let divisor := 1024 / (3 * frequency)
  let gap := 2 ^ 32 % divisor
  counter + gap ≤ 2 ^ 32 ∧ (2 ^ 32 - counter - gap) / divisor ≤ frequency ∧
    (2 ^ 32 - counter - gap) % divisor + frequency * divisor + gap < ticks

/-- One or two terminals are booted; or there are three, the frequency is at most 16, and
the window does not lie badly over the wraparound of the counter. -/
def WindowFits (mask : Byte) (t : Int) (frequency : Word) (first : ClockRecord) : Prop :=
  (processesActive mask).toNat ≤ 2 ∨
    frequency.toNat ≤ 16 ∧
      ¬CrowdedWrap frequency.toNat (first.before.rtc.rtcCounter t).toNat
        (if first.event = .interrupt t then 342 else 341)

namespace Rtc

theorem divisor_eq_zero {r : Rtc} {curProcess : Int} {mask : Byte}
    (nonzero : r.product curProcess mask ≠ 0) :
    r.divisor curProcess mask = 0 ↔ ¬r.product curProcess mask ≤ maxFreq := by
  rw [divisor, ← BitVec.toNat_inj, BitVec.toNat_udiv, BitVec.le_def]
  have positive : (r.product curProcess mask).toNat ≠ 0 := by
    intro zero
    exact nonzero (BitVec.eq_of_toNat_eq zero)
  have value : maxFreq.toNat = 1024 := rfl
  simp only [BitVec.ofNat_eq_ofNat, BitVec.toNat_ofNat, Nat.zero_mod, Nat.div_eq_zero_iff,
    positive, false_or, value, Nat.not_le]

theorem rtcHandler_isSome {r : Rtc} {curProcess : Int} {mask : Byte} :
    (r.rtcHandler curProcess mask).isSome ↔
      r.product curProcess mask ≠ 0 ∧ r.product curProcess mask ≤ maxFreq := by
  unfold rtcHandler
  split
  case isTrue zero =>
    simp only [Option.isSome_none, Bool.false_eq_true, false_iff, not_and]
    intro nonzero
    exact (nonzero zero).elim
  case isFalse nonzero =>
    split
    case isTrue none =>
      have above := (divisor_eq_zero nonzero).mp none
      simp only [Option.isSome_none, Bool.false_eq_true, false_iff, not_and]
      intro _
      exact above
    case isFalse some =>
      have atMost := not_not.mp (mt (divisor_eq_zero nonzero).mpr some)
      simp only [Option.isSome_some, true_iff]
      exact ⟨nonzero, atMost⟩

theorem rtcWrite_accepts {r : Rtc} {t : Int} {frequency : Word}
    (result : (r.rtcWrite t frequency).2 = 0) :
    frequency ∈ acceptedFrequencies ∧ (r.rtcWrite t frequency).1.rtcFreq t = frequency := by
  unfold rtcWrite at result ⊢
  split at result
  · cases result
  case isFalse valid =>
    split at result
    · cases result
    case h_2 rate stops =>
      split at result
      · cases result
      case isFalse window =>
        refine ⟨mem_acceptedFrequencies (not_not.mp valid).2 stops window, ?_⟩
        rw [if_neg valid]
        simp only [if_neg window]
        exact assign_self _ _ _

theorem divisor_toNat {r : Rtc} {t : Int} {mask : Byte}
    (accepted : r.rtcFreq t ∈ acceptedFrequencies) :
    (r.divisor t mask).toNat =
      1024 / ((r.rtcFreq t).toNat * (processesActive mask).toNat) := by
  obtain ⟨_, noOverflow, _⟩ := divisor_of_frequency (List.mem_cons_of_mem _ accepted)
    (processesActive_mem mask)
  rw [divisor, BitVec.toNat_udiv, product, noOverflow]
  rfl

end Rtc

theorem count_one_or_two {frequency : Word}
    (accepted : frequency ∈ Rtc.acceptedFrequencies) {booted : Nat}
    (counted : booted = 1 ∨ booted = 2) (allowed : frequency.toNat * booted ≤ 1024)
    (counter : Nat) :
    Nat.count (fun i => (counter + i) % 2 ^ 32 % (1024 / (frequency.toNat * booted)) = 0)
        (1024 / booted) =
      frequency.toNat := by
  have whole : 0 < 1024 / (frequency.toNat * booted) ∧
      1024 / (frequency.toNat * booted) ∣ 2 ^ 32 ∧
      1024 / booted = 1024 / (frequency.toNat * booted) * frequency.toNat := by
    simp only [Rtc.acceptedFrequencies, List.mem_cons, List.not_mem_nil, or_false] at accepted
    rcases counted with rfl | rfl <;>
      rcases accepted with rfl | rfl | rfl | rfl | rfl | rfl | rfl | rfl | rfl | rfl | rfl |
        rfl | rfl <;>
      revert allowed <;> decide
  obtain ⟨positive, divides, periods⟩ := whole
  rw [periods]
  exact Multiples.count_of_dvd positive divides counter frequency.toNat

/-- Three terminals: the quotient is rounded down, and the ticks of a window hold too many
periods from 32 Hz on. -/
theorem count_three {frequency : Nat}
    (accepted : frequency ∈ [2, 4, 8, 16, 32, 64, 128, 256]) {counter ticks : Nat}
    (below : counter < 2 ^ 32) (few : 341 ≤ ticks) (many : ticks ≤ 342) :
    (Nat.count (fun i => (counter + i) % 2 ^ 32 % (1024 / (frequency * 3)) = 0) ticks ≤
        frequency + 1 ∧
      frequency ≤
        Nat.count (fun i => (counter + i) % 2 ^ 32 % (1024 / (frequency * 3)) = 0) ticks +
          1) ↔
      frequency ≤ 16 ∧ ¬CrowdedWrap frequency counter ticks := by
  simp only [List.mem_cons, List.not_mem_nil, or_false] at accepted
  have positive : 0 < 1024 / (frequency * 3) := by
    rcases accepted with rfl | rfl | rfl | rfl | rfl | rfl | rfl | rfl <;> decide
  rw [CrowdedWrap, Nat.mul_comm 3 frequency]
  by_cases around : counter + ticks ≤ 2 ^ 32
  · rw [Multiples.count_of_le around, Multiples.count_eq positive]
    rcases accepted with rfl | rfl | rfl | rfl | rfl | rfl | rfl | rfl <;>
      norm_num <;> omega
  · rw [Multiples.count_of_wrap (by omega) (by omega) (by omega),
      Multiples.count_eq positive, Multiples.count_eq positive]
    rcases accepted with rfl | rfl | rfl | rfl | rfl | rfl | rfl | rfl <;>
      norm_num <;> omega

theorem nearRate_count_iff {frequency : Word}
    (accepted : frequency ∈ Rtc.acceptedFrequencies) {booted : Nat}
    (counted : booted = 1 ∨ booted = 2 ∨ booted = 3)
    (allowed : frequency.toNat * booted ≤ 1024) {counter : Nat} (below : counter < 2 ^ 32)
    {leads : Prop} [Decidable leads] :
    NearRate frequency
        (Nat.count
          (fun i => (counter + i) % 2 ^ 32 % (1024 / (frequency.toNat * booted)) = 0)
          (if leads then 1023 / booted + 1 else 1024 / booted)) ↔
      booted ≤ 2 ∨
        frequency.toNat ≤ 16 ∧
          ¬CrowdedWrap frequency.toNat counter (if leads then 342 else 341) := by
  by_cases few : booted ≤ 2
  · have counted : booted = 1 ∨ booted = 2 := by omega
    have ticks : (if leads then 1023 / booted + 1 else 1024 / booted) = 1024 / booted := by
      rcases counted with rfl | rfl <;> split <;> rfl
    rw [ticks, count_one_or_two accepted counted allowed, NearRate]
    omega
  · have three : booted = 3 := by omega
    subst three
    have low : frequency.toNat ∈ [2, 4, 8, 16, 32, 64, 128, 256] := by
      simp only [Rtc.acceptedFrequencies, List.mem_cons, List.not_mem_nil, or_false]
        at accepted
      rcases accepted with rfl | rfl | rfl | rfl | rfl | rfl | rfl | rfl | rfl | rfl | rfl |
        rfl | rfl <;>
        revert allowed <;> decide
    simp only [few, false_or]
    split <;> exact count_three low below (by decide) (by decide)

/-- The ticks of a terminal in 1024 interrupts that fall on the terminals in turn. -/
theorem ticks_of_turns {booted place : Nat} (counted : booted = 1 ∨ booted = 2 ∨ booted = 3)
    (inside : place < booted) (interrupts : Nat) :
    Nat.count (fun i => (interrupts + i) % booted = place) 1024 =
      if interrupts % booted = place then 1023 / booted + 1 else 1024 / booted := by
  rw [Multiples.count_place inside, Multiples.count_eq (by omega)]
  rcases counted with rfl | rfl | rfl <;> split <;> omega

/-- What an event does to the count of interrupts and to the globals of `t`. -/
theorem turnStep_cases {mask : Byte} {order : List Int} {t : Int} {c next : Clock}
    {record : ClockRecord} (step : TurnStep mask order t c record next) :
    next.rtc.rtcFreq t = c.rtc.rtcFreq t ∧
      ((∃ curProcess, record.event = .interrupt curProcess ∧
          order[c.interrupts % order.length]? = some curProcess ∧
          next.interrupts = c.interrupts + 1 ∧
          (record.Handled mask → next.rtc.rtcCounter =
            assign c.rtc.rtcCounter curProcess (c.rtc.rtcCounter curProcess + 1))) ∨
        (¬record.IsInterrupt ∧ next.interrupts = c.interrupts ∧
          next.rtc.rtcCounter = c.rtc.rtcCounter)) := by
  obtain ⟨before, event⟩ := record
  obtain ⟨turn, rfl, taken⟩ := step
  simp only [Clock.step] at taken
  split at taken
  · cases taken
  · cases event with
    | interrupt curProcess =>
        dsimp only at taken
        split at taken
        case h_1 rtc handles =>
          cases taken
          have isNext := Rtc.rtcHandler_eq handles
          constructor
          · dsimp only
            rw [isNext]
          · refine .inl ⟨curProcess, rfl, turn, rfl, ?_⟩
            intro _
            dsimp only
            rw [isNext]
        case h_2 fault =>
          cases taken
          refine ⟨rfl, .inl ⟨curProcess, rfl, turn, rfl, ?_⟩⟩
          intro handled
          have some := handled curProcess rfl
          dsimp only at some
          rw [fault] at some
          cases some
    | readStart curProcess =>
        dsimp only at taken
        split at taken
        · cases taken
        · cases taken
          exact ⟨rfl, .inr ⟨by simp [ClockRecord.IsInterrupt], rfl, rfl⟩⟩
    | readEnd curProcess =>
        dsimp only at taken
        split at taken
        · cases taken
          exact ⟨rfl, .inr ⟨by simp [ClockRecord.IsInterrupt], rfl, rfl⟩⟩
        · cases taken
    | rtcOpen curProcess =>
        dsimp only at taken
        split at taken
        · cases taken
        · cases taken
          exact ⟨rfl, .inr ⟨by simp [ClockRecord.IsInterrupt], rfl, rfl⟩⟩
    | rtcWrite curProcess frequency =>
        dsimp only at taken
        split at taken
        · cases taken
        · cases taken
          have other : t ≠ curProcess := Ne.symm turn
          dsimp only
          rcases before.rtc.rtcWrite_cases curProcess frequency with same | ⟨_, written⟩
          · rw [same]
            exact ⟨rfl, .inr ⟨by simp [ClockRecord.IsInterrupt], rfl, rfl⟩⟩
          · rw [written]
            exact ⟨assign_of_ne other _ _, .inr ⟨by simp [ClockRecord.IsInterrupt], rfl, rfl⟩⟩

theorem interruptsOf_concat {history : List ClockRecord} {record : ClockRecord}
    (interrupt : record.IsInterrupt) :
    interruptsOf (history ++ [record]) = interruptsOf history ++ [record] := by
  rw [interruptsOf, List.filter_append, List.filter_cons_of_pos (by simpa using interrupt)]
  rfl

theorem interruptsOf_concat_other {history : List ClockRecord} {record : ClockRecord}
    (other : ¬record.IsInterrupt) :
    interruptsOf (history ++ [record]) = interruptsOf history := by
  rw [interruptsOf, List.filter_append, List.filter_cons_of_neg (by simpa using other),
    List.filter_nil, List.append_nil]
  rfl

theorem interruptsOf_cons {history : List ClockRecord} {record : ClockRecord}
    (interrupt : record.IsInterrupt) :
    interruptsOf (record :: history) = record :: interruptsOf history :=
  List.filter_cons_of_pos (by simpa using interrupt)

/-- The interrupts that fall on the terminal with index `t`. -/
def ticksOf (t : Int) (interrupts : List ClockRecord) : Nat :=
  interrupts.countP fun record => record.event = .interrupt t

/-- The interrupts on which the handler clears `rtc_flag[t]`. -/
def clearsOf (mask : Byte) (t : Int) (interrupts : List ClockRecord) : Nat :=
  interrupts.countP fun record => record.ClearsFlag mask t

/-- What the parts of a run with these interrupts add up to, when `t` has the place `place`
among the `booted` terminals. -/
structure Counts (mask : Byte) (t : Int) (booted place : Nat) (c : Clock)
    (interrupts : List ClockRecord) (d : Clock) : Prop where
  freq : d.rtc.rtcFreq t = c.rtc.rtcFreq t
  length : d.interrupts = c.interrupts + interrupts.length
  counter : (d.rtc.rtcCounter t).toNat =
    ((c.rtc.rtcCounter t).toNat + ticksOf t interrupts) % 2 ^ 32
  ticks : ticksOf t interrupts =
    Nat.count (fun i => (c.interrupts + i) % booted = place) interrupts.length
  allowed : 0 < ticksOf t interrupts → c.rtc.product t mask ≤ maxFreq
  clears : clearsOf mask t interrupts =
    Nat.count
      (fun i => ((c.rtc.rtcCounter t).toNat + i) % 2 ^ 32 % (c.rtc.divisor t mask).toNat = 0)
      (ticksOf t interrupts)

theorem interrupt_iff_place {order : List Int} {t curProcess : Int} {place interrupts : Nat}
    (nodup : order.Nodup) (here : order[place]? = some t)
    (turn : order[interrupts % order.length]? = some curProcess) :
    curProcess = t ↔ interrupts % order.length = place := by
  constructor
  · rintro rfl
    have inside := (List.getElem?_eq_some_iff.mp turn).1
    exact (List.getElem?_inj inside nodup).mp (turn.trans here.symm)
  · intro same
    rw [same, here] at turn
    exact (Option.some.inj turn).symm

theorem Counts.concat {mask : Byte} {order : List Int} {t : Int} {place : Nat}
    {c middle next : Clock} {interrupts : List ClockRecord} {record : ClockRecord}
    (counts : Counts mask t order.length place c interrupts middle) (nodup : order.Nodup)
    (here : order[place]? = some t) (step : TurnStep mask order t middle record next)
    (interrupt : record.IsInterrupt) (handled : record.Handled mask) :
    Counts mask t order.length place c (interrupts ++ [record]) next := by
  have isBefore := step.2.before
  obtain ⟨freq, ⟨curProcess, isEvent, turn, later, counted⟩ | ⟨other, _⟩⟩ :=
    turnStep_cases step
  · have isCounter := counted handled
    have length : (interrupts ++ [record]).length = interrupts.length + 1 := by simp
    have onPlace : curProcess = t ↔
        (c.interrupts + interrupts.length) % order.length = place := by
      rw [← counts.length]
      exact interrupt_iff_place nodup here turn
    have sameProduct : middle.rtc.product t mask = c.rtc.product t mask := by
      rw [Rtc.product, Rtc.product, counts.freq]
    have sameDivisor : middle.rtc.divisor t mask = c.rtc.divisor t mask := by
      rw [Rtc.divisor, Rtc.divisor, sameProduct]
    by_cases mine : curProcess = t
    · subst mine
      have some := handled curProcess isEvent
      rw [isBefore] at some
      have ticks : ticksOf curProcess (interrupts ++ [record]) =
          ticksOf curProcess interrupts + 1 := by
        simp [ticksOf, isEvent]
      have clears : record.ClearsFlag mask curProcess ↔
          ((c.rtc.rtcCounter curProcess).toNat + ticksOf curProcess interrupts) % 2 ^ 32 %
            (c.rtc.divisor curProcess mask).toNat = 0 := by
        rw [← counts.counter, ← sameDivisor, ← BitVec.toNat_umod]
        simp only [ClockRecord.ClearsFlag, isEvent, isBefore, Rtc.Clears, some, true_and]
        exact BitVec.toNat_inj.symm
      refine ⟨freq.trans counts.freq, ?_, ?_, ?_, ?_, ?_⟩
      · rw [later, counts.length, length]
        omega
      · rw [isCounter, assign_self, BitVec.toNat_add, counts.counter, ticks]
        simp only [BitVec.ofNat_eq_ofNat, BitVec.toNat_ofNat]
        omega
      · rw [ticks, length, Nat.count_succ, if_pos (onPlace.mp rfl), counts.ticks]
      · intro _
        rw [← sameProduct]
        exact (Rtc.rtcHandler_isSome.mp some).2
      · rw [ticks, Nat.count_succ, ← counts.clears, clearsOf, List.countP_append,
          List.countP_singleton]
        simp only [decide_eq_true_eq, clears]
        rfl
    · have ticks : ticksOf t (interrupts ++ [record]) = ticksOf t interrupts := by
        simp [ticksOf, isEvent, mine]
      have clears : ¬record.ClearsFlag mask t := by
        simp [ClockRecord.ClearsFlag, isEvent, mine]
      refine ⟨freq.trans counts.freq, ?_, ?_, ?_, ?_, ?_⟩
      · rw [later, counts.length, length]
        omega
      · rw [isCounter, assign_of_ne (Ne.symm mine), counts.counter, ticks]
      · rw [ticks, length, Nat.count_succ, if_neg (mt onPlace.mpr mine), counts.ticks]
        rfl
      · rw [ticks]
        exact counts.allowed
      · rw [ticks, ← counts.clears, clearsOf, List.countP_append, List.countP_singleton,
          if_neg (by simpa using clears)]
        rfl
  · exact (other interrupt).elim

theorem Counts.of_run {mask : Byte} {order : List Int} {t : Int} {place : Nat}
    {c d : Clock} {part : List ClockRecord} (nodup : order.Nodup)
    (here : order[place]? = some t) (run : Run (TurnStep mask order t) c part d)
    (handled : ∀ record ∈ interruptsOf part, record.Handled mask) :
    Counts mask t order.length place c (interruptsOf part) d := by
  induction run with
  | nil =>
      refine ⟨rfl, rfl, ?_, rfl, ?_, rfl⟩
      · exact (Nat.mod_eq_of_lt (c.rtc.rtcCounter t).isLt).symm
      · intro some
        exact (Nat.lt_irrefl 0 some).elim
  | @snoc events _ _ last _ taken induction =>
      by_cases interrupt : last.IsInterrupt
      · rw [interruptsOf_concat interrupt] at handled ⊢
        have before := induction fun record member => handled record (by simp [member])
        exact before.concat nodup here taken interrupt (handled last (by simp))
      · rw [interruptsOf_concat_other interrupt] at handled ⊢
        have before := induction handled
        obtain ⟨freq, ⟨curProcess, isEvent, _⟩ | ⟨_, same, kept⟩⟩ := turnStep_cases taken
        · exact (interrupt ⟨curProcess, isEvent⟩).elim
        · refine ⟨freq.trans before.freq, same.trans before.length, ?_, before.ticks,
            before.allowed, before.clears⟩
          rw [kept]
          exact before.counter

/-- A window is what the interrupts add up to from its first record on. -/
theorem ClockWindow.part {mask : Byte} {order : List Int} {t : Int} {start c : Clock}
    {history : List ClockRecord} {first : ClockRecord} {rest : List ClockRecord}
    (window : ClockWindow history (first :: rest))
    (run : Run (TurnStep mask order t) start history c) :
    ∃ earlier part after, Run (TurnStep mask order t) start earlier first.before ∧
      Run (TurnStep mask order t) first.before part after ∧
      interruptsOf part = first :: rest ∧ first.IsInterrupt ∧
      InTurn order t first.before first := by
  obtain ⟨⟨before, beyond, isInfix⟩, _⟩ := window
  rw [List.append_assoc, List.cons_append] at isInfix
  obtain ⟨front, onward, rfl, _, isOnward⟩ := List.filter_eq_append_iff.mp isInfix.symm
  obtain ⟨quiet, tail, rfl, _, isFirst, isTail⟩ := List.filter_eq_cons_iff.mp isOnward
  obtain ⟨body, end_, rfl, isBody, _⟩ := List.filter_eq_append_iff.mp isTail
  have regrouped : front ++ (quiet ++ first :: (body ++ end_)) =
      (front ++ quiet) ++ ((first :: body) ++ end_) := by simp
  rw [regrouped] at run
  obtain ⟨middle, toMiddle, onward⟩ := run.split
  obtain ⟨after, through, _⟩ := onward.split
  obtain ⟨_, firstStep, _⟩ := through.head
  have isMiddle := firstStep.2.before
  subst isMiddle
  have interrupt : first.IsInterrupt := by simpa using isFirst
  refine ⟨_, _, after, toMiddle, through, ?_, interrupt, firstStep.1⟩
  rw [interruptsOf_cons interrupt]
  exact congrArg _ isBody

theorem freq_of_run {mask : Byte} {order : List Int} {t : Int} {start c : Clock}
    {history : List ClockRecord} (run : Run (TurnStep mask order t) start history c) :
    c.rtc.rtcFreq t = start.rtc.rtcFreq t := by
  induction run with
  | nil => rfl
  | snoc _ taken earlier => exact (turnStep_cases taken).1.trans earlier

/-- In a window whose interrupts are handled, the count of clears is near the frequency
exactly when the window fits. -/
theorem nearRate_iff_of_window {mask : Byte} {order : List Int} {t : Int}
    {frequency : Word} {start c : Clock} {history : List ClockRecord}
    {first : ClockRecord} {rest : List ClockRecord}
    (booted : order.Perm (bootedTerminals mask)) (member : t ∈ order)
    (accepted : frequency ∈ Rtc.acceptedFrequencies)
    (tuned : start.rtc.rtcFreq t = frequency)
    (run : Run (TurnStep mask order t) start history c)
    (window : ClockWindow history (first :: rest))
    (handled : ∀ record ∈ interruptsOf history, record.Handled mask) :
    NearRate frequency (clearsOf mask t (first :: rest)) ↔
      WindowFits mask t frequency first := by
  obtain ⟨earlier, part, after, toFirst, through, isWindow, ⟨curProcess, isEvent⟩, turn⟩ :=
    window.part run
  have full : (first :: rest).length = 1024 := window.2
  have length : order.length = (processesActive mask).toNat := by
    rw [booted.length_eq, bootedTerminals_length]
  have nodup : order.Nodup := booted.nodup_iff.mpr (bootedTerminals_nodup mask)
  obtain ⟨place, inside, isPlace⟩ := List.getElem_of_mem member
  have here : order[place]? = some t := by
    rw [List.getElem?_eq_getElem inside, isPlace]
  have partHandled : ∀ record ∈ interruptsOf part, record.Handled mask := by
    rw [isWindow]
    intro record inWindow
    exact handled record (window.1.subset inWindow)
  have counts := Counts.of_run nodup here through partHandled
  rw [isWindow] at counts
  have isFreq : first.before.rtc.rtcFreq t = frequency := (freq_of_run toFirst).trans tuned
  have leads : first.event = .interrupt t ↔
      first.before.interrupts % order.length = place := by
    simp only [InTurn, isEvent] at turn
    rw [← interrupt_iff_place nodup here turn, isEvent, ClockEvent.interrupt.injEq]
  have counted : order.length = 1 ∨ order.length = 2 ∨ order.length = 3 := by
    have several := Rtc.processesActive_mem mask
    simp only [List.mem_cons, List.not_mem_nil, or_false] at several
    rw [length]
    rcases several with one | two | three
    · exact .inl (by rw [one]; rfl)
    · exact .inr (.inl (by rw [two]; rfl))
    · exact .inr (.inr (by rw [three]; rfl))
  have ticks := counts.ticks
  rw [full, ticks_of_turns counted inside] at ticks
  have allowed : frequency.toNat * order.length ≤ 1024 := by
    have someTick : 0 < ticksOf t (first :: rest) := by
      rw [ticks]
      split
      · exact Nat.succ_pos _
      · apply Nat.div_pos <;> omega
    have atMost := counts.allowed someTick
    obtain ⟨_, noOverflow, _⟩ := divisor_of_frequency (List.mem_cons_of_mem _ accepted)
      (Rtc.processesActive_mem mask)
    rw [Rtc.product, isFreq, BitVec.le_def, noOverflow, ← length] at atMost
    exact atMost
  rw [counts.clears, Rtc.divisor_toNat (isFreq ▸ accepted), isFreq, ← length, ticks,
    nearRate_count_iff accepted counted allowed (first.before.rtc.rtcCounter t).isLt,
    WindowFits, ← length]
  simp only [leads]

theorem ClockRecord.handled_iff {record : ClockRecord} {mask : Byte} :
    record.Handled mask ↔ record.RateAllowed mask := by
  constructor
  · intro handled curProcess isEvent
    exact Rtc.rtcHandler_isSome.mp (handled curProcess isEvent)
  · intro allowed curProcess isEvent
    exact Rtc.rtcHandler_isSome.mpr (allowed curProcess isEvent)

theorem virtual_rate {mask : Byte} {order : List Int} {t : Int} {frequency : Word}
    {start c : Clock} {history : List ClockRecord}
    (booted : order.Perm (bootedTerminals mask)) (member : t ∈ order)
    (wrote : WroteRate t frequency start)
    (run : Run (TurnStep mask order t) start history c) :
    ((∀ record ∈ interruptsOf history, record.Handled mask) ∧
        (∀ window, ClockWindow history window →
          NearRate frequency (clearsOf mask t window)) ∧
        ReadsWait mask t history) ↔
      (∀ record ∈ interruptsOf history, record.RateAllowed mask) ∧
        ∀ first rest, ClockWindow history (first :: rest) →
          WindowFits mask t frequency first := by
  obtain ⟨r, result, isRtc⟩ := wrote.accepted
  obtain ⟨accepted, written⟩ := Rtc.rtcWrite_accepts result
  have tuned : start.rtc.rtcFreq t = frequency := by
    rw [isRtc]
    exact written
  constructor
  · rintro ⟨handled, near, _⟩
    constructor
    · intro record inHistory
      exact ClockRecord.handled_iff.mp (handled record inHistory)
    · intro first rest window
      have iff := nearRate_iff_of_window booted member accepted tuned run window handled
      exact iff.mp (near _ window)
  · rintro ⟨allowed, fits⟩
    have handled : ∀ record ∈ interruptsOf history, record.Handled mask := by
      intro record inHistory
      exact ClockRecord.handled_iff.mpr (allowed record inHistory)
    refine ⟨handled, ?_, (Clock.readsWait run.unguarded wrote.returned).2⟩
    intro window inRun
    cases window with
    | nil =>
        have full := inRun.2
        simp at full
    | cons first rest =>
        have iff := nearRate_iff_of_window booted member accepted tuned run inRun handled
        exact iff.mpr (fits first rest inRun)

/-- As long as the frequencies allow it, any number of interrupts can come in turn. -/
theorem exists_interrupts {mask : Byte} {order : List Int} {t : Int} {start : Clock}
    (executes : start.spinning = false) (nonempty : 0 < order.length)
    (allowed : ∀ curProcess ∈ order, start.rtc.product curProcess mask ≠ 0 ∧
      start.rtc.product curProcess mask ≤ maxFreq) (count : Nat) :
    ∃ history c, Run (TurnStep mask order t) start history c ∧
      (interruptsOf history).length = count ∧
      (∀ record ∈ interruptsOf history, record.Handled mask) ∧
      c.spinning = false ∧ c.rtc.rtcFreq = start.rtc.rtcFreq := by
  induction count with
  | zero => exact ⟨[], start, .nil, rfl, by simp [interruptsOf], executes, rfl⟩
  | succ count induction =>
      obtain ⟨history, c, run, length, handled, running, sameFreq⟩ := induction
      have inside : c.interrupts % order.length < order.length := Nat.mod_lt _ nonempty
      obtain ⟨curProcess, isProcess⟩ : ∃ u, order[c.interrupts % order.length] = u := ⟨_, rfl⟩
      have turn : order[c.interrupts % order.length]? = some curProcess := by
        rw [List.getElem?_eq_getElem inside, isProcess]
      have product : c.rtc.product curProcess mask = start.rtc.product curProcess mask := by
        rw [Rtc.product, Rtc.product, sameFreq]
      have some : (c.rtc.rtcHandler curProcess mask).isSome := by
        apply Rtc.rtcHandler_isSome.mpr
        rw [product]
        exact allowed curProcess (List.mem_of_getElem? turn)
      obtain ⟨rtc, handles⟩ := Option.isSome_iff_exists.mp some
      have taken : c.step mask (.interrupt curProcess) =
          Option.some { c with rtc := rtc, interrupts := c.interrupts + 1 } := by
        simp only [Clock.step, running, handles]
        rfl
      have interrupt : ClockRecord.IsInterrupt ⟨c, .interrupt curProcess⟩ := ⟨curProcess, rfl⟩
      have stepped : TurnStep mask order t c ⟨c, .interrupt curProcess⟩
          { c with rtc := rtc, interrupts := c.interrupts + 1 } := ⟨turn, rfl, taken⟩
      refine ⟨_, _, run.snoc stepped, ?_, ?_, running, ?_⟩
      · rw [interruptsOf_concat interrupt, List.length_append, length]
        rfl
      · rw [interruptsOf_concat interrupt]
        intro record member
        rcases List.mem_append.mp member with earlier | isLast
        · exact handled record earlier
        · rw [List.mem_singleton.mp isLast]
          rintro _ ⟨⟩
          exact some
      · rw [Rtc.rtcHandler_eq handles]
        exact sameFreq

/-- The clock after a write by the first terminal. -/
def sampleClock (frequency : Word) : Clock :=
  { rtc := (rtcInit.rtcWrite 0 frequency).1
    interrupts := 0
    waiting := fun _ => false
    spinning := false }

theorem virtual_rate_four :
    ∃ history c, Run (TurnStep 7 [0, 1, 2] 0) (sampleClock 4) history c ∧
      (interruptsOf history).length = 2048 ∧
      (((∀ record ∈ interruptsOf history, record.Handled 7) ∧
          (∀ window, ClockWindow history window → NearRate 4 (clearsOf 7 0 window)) ∧
          ReadsWait 7 0 history) ↔
        (∀ record ∈ interruptsOf history, record.RateAllowed 7) ∧
          ∀ first rest, ClockWindow history (first :: rest) → WindowFits 7 0 4 first) := by
  obtain ⟨history, c, run, length, _⟩ :=
    @exists_interrupts 7 [0, 1, 2] 0 (sampleClock 4) rfl (by decide) (by decide) 2048
  have booted : [0, 1, 2].Perm (bootedTerminals 7) := by decide
  have wrote : WroteRate 0 4 (sampleClock 4) := ⟨⟨rtcInit, by decide, rfl⟩, rfl, rfl⟩
  exact ⟨history, c, run, length, virtual_rate booted (by decide) wrote run⟩

theorem virtual_rate_256 :
    ¬∀ mask order t frequency start c history, order.Perm (bootedTerminals mask) →
      t ∈ order → WroteRate t frequency start →
      Run (TurnStep mask order t) start history c →
      (∀ window, ClockWindow history window →
        NearRate frequency (clearsOf mask t window)) ∧ ReadsWait mask t history := by
  intro always
  obtain ⟨history, c, run, length, handled, _⟩ :=
    @exists_interrupts 7 [0, 1, 2] 0 (sampleClock 256) rfl (by decide) (by decide) 1024
  have booted : [0, 1, 2].Perm (bootedTerminals 7) := by decide
  have wrote : WroteRate 0 256 (sampleClock 256) := ⟨⟨rtcInit, by decide, rfl⟩, rfl, rfl⟩
  obtain ⟨near, _⟩ := always _ _ _ _ _ c history booted (by decide) wrote run
  obtain ⟨first, rest, isWindow⟩ := List.exists_cons_of_length_eq_add_one length
  have window : ClockWindow history (first :: rest) := by
    rw [← isWindow]
    exact ⟨List.infix_rfl, length⟩
  have fits := (nearRate_iff_of_window booted (by decide) (by decide) rfl run window
    handled).mp (near _ window)
  rcases fits with few | ⟨low, _⟩
  · revert few
    decide
  · revert low
    decide

end LightweightOs
