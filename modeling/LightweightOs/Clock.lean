import LightweightOs.RtcDivisor

/-!
# The clock and its readers

The part of the kernel that RTC.c is about: its globals, the interrupt, and the
calls on the descriptors it serves.  `rtc_read` waits with the interrupts on,
so that its call and its return are two events.  When the arithmetic of the
handler ends in a division error, `exc_handler` masks the interrupts and spins,
and there is no event any more.
-/

namespace LightweightOs

open Transition

namespace Rtc

/-- `RTC_handler` gets to the assignment that clears `rtc_flag[curProcess]`. -/
def Clears (r : Rtc) (curProcess : Int) (mask : Byte) : Prop :=
  (r.rtcHandler curProcess mask).isSome ∧
    r.rtcCounter curProcess % r.divisor curProcess mask = 0

instance (r : Rtc) (curProcess : Int) (mask : Byte) :
    Decidable (r.Clears curProcess mask) := by
  unfold Clears
  infer_instance

theorem rtcHandler_eq {r next : Rtc} {curProcess : Int} {mask : Byte}
    (handles : r.rtcHandler curProcess mask = some next) :
    next =
      { r with
        rtcFlag :=
          if r.Clears curProcess mask then assign r.rtcFlag curProcess false else r.rtcFlag
        rtcCounter := assign r.rtcCounter curProcess (r.rtcCounter curProcess + 1) } := by
  have clears : r.Clears curProcess mask ↔
      r.rtcCounter curProcess % r.divisor curProcess mask = 0 := by
    simp [Clears, handles]
  simp only [rtcHandler] at handles
  split at handles
  · cases handles
  · split at handles
    · cases handles
    · cases handles
      simp only [clears]

end Rtc

inductive ClockEvent where
  | interrupt (curProcess : Int)
  | readStart (curProcess : Int)
  | readEnd (curProcess : Int)
  | rtcOpen (curProcess : Int)
  | rtcWrite (curProcess : Int) (frequency : Word)
  deriving DecidableEq

/-- The globals of RTC.c, the number of interrupts so far, and the terminals
whose process is in `rtc_read`. -/
structure Clock where
  rtc : Rtc
  interrupts : Nat
  waiting : Int → Bool
  spinning : Bool

namespace Clock

/-- The effect of an event while `mask` tells the booted terminals; `none` when it cannot
happen. -/
def step (mask : Byte) (c : Clock) (event : ClockEvent) : Option Clock :=
  if c.spinning then none
  else
    match event with
    | .interrupt curProcess =>
        match c.rtc.rtcHandler curProcess mask with
        | some rtc => some { c with rtc := rtc, interrupts := c.interrupts + 1 }
        | none => some { c with interrupts := c.interrupts + 1, spinning := true }
    | .readStart curProcess =>
        if c.waiting curProcess then none
        else
          some
            { c with
              rtc := c.rtc.rtcReadStart curProcess
              waiting := assign c.waiting curProcess true }
    | .readEnd curProcess =>
        if c.waiting curProcess ∧ c.rtc.ticked curProcess then
          some
            { c with
              rtc := c.rtc.rtcReadEnd curProcess
              waiting := assign c.waiting curProcess false }
        else none
    | .rtcOpen curProcess =>
        if c.waiting curProcess then none
        else some { c with rtc := c.rtc.rtcOpen curProcess }
    | .rtcWrite curProcess frequency =>
        if c.waiting curProcess then none
        else some { c with rtc := (c.rtc.rtcWrite curProcess frequency).1 }

end Clock

structure ClockRecord where
  before : Clock
  event : ClockEvent

structure ClockStep (mask : Byte) (c : Clock) (record : ClockRecord) (next : Clock) :
    Prop where
  before : record.before = c
  taken : c.step mask record.event = some next

/-- The record of an interrupt on which the handler clears `rtc_flag[t]`. -/
def ClockRecord.ClearsFlag (record : ClockRecord) (mask : Byte) (t : Int) : Prop :=
  record.event = .interrupt t ∧ record.before.rtc.Clears t mask

instance (record : ClockRecord) (mask : Byte) (t : Int) :
    Decidable (record.ClearsFlag mask t) := by
  unfold ClockRecord.ClearsFlag
  infer_instance

/-- The clock of a kernel, when no process is in `rtc_read`. -/
def Kernel.clock (s : Kernel) (interrupts : Nat) : Clock :=
  { rtc := s.rtc, interrupts := interrupts, waiting := fun _ => false, spinning := false }

/-- The kernel's events leave the clock alone or are events of the clock on the terminal
that is scheduled. -/
theorem Step.clock {s next : Kernel} {record : Record} (step : Step s record next)
    (interrupts : Nat) :
    next.rtc = s.rtc ∨
      ∃ event, (event = .interrupt (s.curProcess - 1) ∨
          ∃ frequency, event = .rtcWrite (s.curProcess - 1) frequency) ∧
        ∃ later, (s.clock interrupts).step s.table.baseShellBootedBitmask event =
          some (next.clock later) := by
  rcases step.rtc_cases with same | ⟨frequency, written⟩ | handles
  · exact .inl same
  · refine .inr ⟨_, .inr ⟨frequency, rfl⟩, interrupts, ?_⟩
    simp only [Kernel.clock, Clock.step, written]
    rfl
  · refine .inr ⟨_, .inl rfl, interrupts + 1, ?_⟩
    simp only [Kernel.clock, Clock.step, handles]
    rfl

theorem ClockStep.reader_cases {mask : Byte} {c next : Clock} {record : ClockRecord}
    (step : ClockStep mask c record next) (t : Int) :
    (record.event ≠ .readStart t ∧ next.waiting t = c.waiting t ∧
        (next.rtc.rtcFlag t = c.rtc.rtcFlag t ∨ record.ClearsFlag mask t)) ∨
      (record.event = .readStart t ∧ next.rtc.rtcFlag t = true) ∨
      next.waiting t = false := by
  obtain ⟨before, event⟩ := record
  obtain ⟨rfl, taken⟩ := step
  simp only [Clock.step] at taken
  split at taken
  · cases taken
  · cases event with
    | interrupt curProcess =>
        left
        dsimp only at taken
        split at taken
        case h_1 rtc handles =>
          cases taken
          refine ⟨by simp, rfl, ?_⟩
          rw [Rtc.rtcHandler_eq handles]
          by_cases clears : before.rtc.Clears curProcess mask
          · by_cases here : t = curProcess
            · subst here
              exact .inr ⟨rfl, clears⟩
            · left
              dsimp only
              rw [if_pos clears, assign_of_ne here]
          · left
            dsimp only
            rw [if_neg clears]
        case h_2 fault =>
          cases taken
          exact ⟨by simp, rfl, .inl rfl⟩
    | readStart curProcess =>
        dsimp only at taken
        split at taken
        · cases taken
        · cases taken
          by_cases here : t = curProcess
          · subst here
            exact .inr (.inl ⟨rfl, assign_self _ _ _⟩)
          · refine .inl ⟨by simpa using Ne.symm here, assign_of_ne here _ _, .inl ?_⟩
            exact assign_of_ne here _ _
    | readEnd curProcess =>
        dsimp only at taken
        split at taken
        · cases taken
          by_cases here : t = curProcess
          · subst here
            exact .inr (.inr (assign_self _ _ _))
          · refine .inl ⟨by simp, assign_of_ne here _ _, .inl ?_⟩
            exact assign_of_ne here _ _
        · cases taken
    | rtcOpen curProcess =>
        dsimp only at taken
        split at taken
        · cases taken
        case isFalse idle =>
          cases taken
          by_cases here : t = curProcess
          · subst here
            exact .inr (.inr (by simpa using idle))
          · exact .inl ⟨by simp, rfl, .inl (assign_of_ne here _ _)⟩
    | rtcWrite curProcess frequency =>
        dsimp only at taken
        split at taken
        · cases taken
        · cases taken
          refine .inl ⟨by simp, rfl, .inl ?_⟩
          rcases before.rtc.rtcWrite_cases curProcess frequency with same | ⟨_, written⟩
          · dsimp only
            rw [same]
          · dsimp only
            rw [written]

/-- The last call of `rtc_read` on the terminal came before `during`. -/
def CalledSince (t : Int) (history during : List ClockRecord) : Prop :=
  ∃ earlier start, history = earlier ++ start :: during ∧ start.event = .readStart t ∧
    ∀ other ∈ during, other.event ≠ .readStart t

theorem CalledSince.concat {t : Int} {history during : List ClockRecord}
    {record : ClockRecord} (called : CalledSince t history during)
    (other : record.event ≠ .readStart t) :
    CalledSince t (history ++ [record]) (during ++ [record]) := by
  obtain ⟨earlier, start, rfl, isStart, none⟩ := called
  refine ⟨earlier, start, by simp, isStart, ?_⟩
  intro later member
  rcases List.mem_append.mp member with inDuring | isLast
  · exact none later inDuring
  · rw [List.mem_singleton.mp isLast]
    exact other

/-- The handler has cleared the flag since the last call of `rtc_read`. -/
def ClearedSinceCall (mask : Byte) (t : Int) (history : List ClockRecord) : Prop :=
  ∃ during, CalledSince t history during ∧ ∃ tick ∈ during, tick.ClearsFlag mask t

/-- No `rtc_read` on the terminal returns before the handler has cleared the flag. -/
def ReadsWait (mask : Byte) (t : Int) (history : List ClockRecord) : Prop :=
  ∀ earlier record later, history = earlier ++ record :: later →
    record.event = .readEnd t → ClearedSinceCall mask t earlier

/-- A process in `rtc_read` called it, and its flag is down only after a tick. -/
def Pending (mask : Byte) (t : Int) (history : List ClockRecord) (c : Clock) : Prop :=
  c.waiting t = true →
    ∃ during, CalledSince t history during ∧
      (c.rtc.rtcFlag t = false → ∃ tick ∈ during, tick.ClearsFlag mask t)

theorem Pending.step {mask : Byte} {t : Int} {history : List ClockRecord}
    {c next : Clock} {record : ClockRecord} (pending : Pending mask t history c)
    (step : ClockStep mask c record next) : Pending mask t (history ++ [record]) next := by
  intro waits
  rcases step.reader_cases t with ⟨other, same, flag⟩ | ⟨called, raised⟩ | idle
  · obtain ⟨during, since, down⟩ := pending (same ▸ waits)
    refine ⟨during ++ [record], since.concat other, ?_⟩
    intro lowered
    rcases flag with kept | clears
    · obtain ⟨tick, member, cleared⟩ := down (kept ▸ lowered)
      exact ⟨tick, List.mem_append_left _ member, cleared⟩
    · exact ⟨record, by simp, clears⟩
  · refine ⟨[], ⟨history, record, rfl, called, by simp⟩, ?_⟩
    intro lowered
    rw [raised] at lowered
    cases lowered
  · rw [idle] at waits
    cases waits

theorem ClockStep.of_readEnd {mask : Byte} {t : Int} {c next : Clock}
    {record : ClockRecord} (step : ClockStep mask c record next)
    (returns : record.event = .readEnd t) :
    c.waiting t = true ∧ c.rtc.rtcFlag t = false := by
  have taken := step.taken
  rw [returns] at taken
  simp only [Clock.step] at taken
  split at taken
  · cases taken
  · split at taken
    case isTrue both => simpa [Rtc.ticked] using both
    case isFalse => cases taken

theorem Clock.readsWait {mask : Byte} {t : Int} {start c : Clock}
    {history : List ClockRecord} (run : Run (ClockStep mask) start history c)
    (idle : start.waiting t = false) :
    Pending mask t history c ∧ ReadsWait mask t history := by
  induction run with
  | nil =>
      constructor
      · intro waits
        rw [idle] at waits
        cases waits
      · intro earlier record later isHistory
        simp at isHistory
  | snoc _ taken earlier =>
      obtain ⟨pending, reads⟩ := earlier
      refine ⟨pending.step taken, ?_⟩
      refine (@forall_history_concat ClockRecord (fun before record =>
        record.event = .readEnd t → ClearedSinceCall mask t before) _ _).mpr ⟨reads, ?_⟩
      intro returns
      obtain ⟨waits, down⟩ := taken.of_readEnd returns
      obtain ⟨during, since, cleared⟩ := pending waits
      exact ⟨during, since, cleared down⟩

end LightweightOs
