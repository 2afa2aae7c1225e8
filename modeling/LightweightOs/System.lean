import LightweightOs.Library.Transition
import LightweightOs.Simulation

/-!
# The kernel as a transition system

An event is a system call of the running process or an interrupt, and each
event is one step.  The handlers run behind interrupt gates, and `halt`,
`execute`, `terminal_write` and `rtc_write` begin with `cli`; `vidmap` and the
copy loop of `terminal_read` run with interrupts on and are treated as one step
all the same.  The wait of `terminal_read` separates two events.  A run also goes
on where a store of a system call would end it with a page fault.  A record keeps
an event with the state it was taken in and its outcome, so that the history of a
run can be read back from the records.
-/

namespace LightweightOs

open Transition

inductive Event where
  | execute (frame : Frame) (locals : Locals) (commandUser : Nat → Byte)
  | halt (frame inner : Frame) (locals : Locals) (status : Word)
      (after : Nat → Byte)
  | pit (frame : Frame) (locals : Locals)
  | key (frame inner : Frame) (locals : Locals) (scanCode : Byte)
      (after : Nat → Byte)
  | vidmap (frame : Frame) (locals : Locals) (screenStart : Word)
  | terminalWrite (frame : Frame) (input : List Byte)
  | readStart (bytes : Int)
  | readLine (bytes : Int)
  | rtcWrite (frequency : Word)
  | rtc

/-- How control goes on after an event. -/
inductive Outcome where
  | continues
  | starts (started : Started)
  | resumes (parentEbp : Word)
  | switches (schedEbp : Word)

namespace Kernel

/-- The effect of an event; `none` when the kernel does not come through it. -/
def step (s : Kernel) : Event → Option (Outcome × Kernel)
  | .execute frame locals commandUser =>
      (s.execute frame locals commandUser).map fun
        | .returns _ next => (.continues, next)
        | .starts started next => (.starts started, next)
  | .halt frame inner locals status after =>
      (s.halt frame inner locals status after).map fun
        | .resumes parentEbp _ next => (.resumes parentEbp, next)
        | .restarts started next => (.starts started, next)
  | .pit frame locals =>
      (s.pitHandler frame locals).map fun
        | .continues next => (.continues, next)
        | .switches schedEbp next => (.switches schedEbp, next)
  | .key frame inner locals scanCode after =>
      (s.keyboardHandler frame inner locals scanCode after).map fun
        | .handled next => (.continues, next)
        | .boots started next => (.starts started, next)
  | .vidmap frame locals screenStart =>
      (s.vidmap frame locals screenStart).map fun (next, _, _) => (.continues, next)
  | .terminalWrite frame input =>
      (s.terminalWrite (currentPcb frame.esp) input).map fun next =>
        (.continues, next)
  | .readStart bytes =>
      if bytes = 0 then some (.continues, s)
      else some (.continues, { s with tty := s.tty.terminalReadStart s.curProcess })
  | .readLine bytes =>
      some (.continues, { s with tty := (s.tty.terminalReadLine bytes).1 })
  | .rtcWrite frequency =>
      some (.continues,
        { s with rtc := (s.rtc.rtcWrite (s.curProcess - 1) frequency).1 })
  | .rtc =>
      (s.rtc.rtcHandler (s.curProcess - 1) s.table.baseShellBootedBitmask).map
        fun rtc => (.continues, { s with rtc := rtc })

/-- Frames lie on the stack in use, commands fit the buffers of `execute`, and
a line is read after the wait for it has ended. -/
def Legal (s : Kernel) : Event → Prop
  | .execute frame _ commandUser => frame.On s ∧ FitsBuffers commandUser
  | .halt frame inner _ _ _ => frame.On s ∧ inner.On s
  | .pit frame _ => frame.On s
  | .key frame inner _ _ _ => frame.On s ∧ inner.On s
  | .vidmap frame _ _ => frame.On s
  | .terminalWrite frame _ => frame.On s
  | .readLine bytes => bytes ≠ 0 ∧ s.tty.lineReady s.curProcess
  | .readStart _ | .rtcWrite _ | .rtc => True

/-- The identifier in the block the running process finds from its stack. -/
def runningPid (s : Kernel) : Int := (s.pcb (currentPcb s.esp)).processId

end Kernel

structure Record where
  before : Kernel
  event : Event
  outcome : Outcome

structure Step (s : Kernel) (record : Record) (next : Kernel) : Prop where
  before : record.before = s
  legal : s.Legal record.event
  taken : s.step record.event = some (record.outcome, next)

namespace Kernel

instance (s : Kernel) (frame : Frame) : Decidable (frame.On s) :=
  decidable_of_iff
    (currentPcb frame.esp = currentPcb s.esp ∧ currentPcb frame.ebp = currentPcb s.esp)
    ⟨fun both => ⟨both.1, both.2⟩, fun on => ⟨on.esp, on.ebp⟩⟩

instance (commandUser : Nat → Byte) : Decidable (FitsBuffers commandUser) :=
  inferInstanceAs (Decidable (_ ∧ _))

instance (s : Kernel) (event : Event) : Decidable (s.Legal event) :=
  match event with
  | .execute _ _ _ => inferInstanceAs (Decidable (_ ∧ _))
  | .halt _ _ _ _ _ => inferInstanceAs (Decidable (_ ∧ _))
  | .pit frame _ => inferInstanceAs (Decidable (frame.On s))
  | .key _ _ _ _ _ => inferInstanceAs (Decidable (_ ∧ _))
  | .vidmap frame _ _ => inferInstanceAs (Decidable (frame.On s))
  | .terminalWrite frame _ => inferInstanceAs (Decidable (frame.On s))
  | .readLine _ => inferInstanceAs (Decidable (_ ∧ _))
  | .readStart _ => isTrue trivial
  | .rtcWrite _ => isTrue trivial
  | .rtc => isTrue trivial

/-- The records of a list of events and the state they lead to, if every event
is legal when its turn comes. -/
def replay (s : Kernel) : List Event → Option (List Record × Kernel)
  | [] => some ([], s)
  | event :: rest =>
      if s.Legal event then
        match s.step event with
        | none => none
        | some (outcome, next) =>
            (next.replay rest).map fun (records, final) =>
              (⟨s, event, outcome⟩ :: records, final)
      else none

theorem replay_run {s final : Kernel} {events : List Event} {records : List Record}
    (replays : s.replay events = some (records, final)) :
    Run Step s records final := by
  induction events generalizing s records with
  | nil =>
      cases replays
      exact .nil
  | cons event rest induction =>
      simp only [replay] at replays
      split at replays
      case isTrue legal =>
        cases taken : s.step event with
        | none => simp [taken] at replays
        | some result =>
            obtain ⟨outcome, next⟩ := result
            simp only [taken] at replays
            obtain ⟨⟨later, last⟩, continued, isResult⟩ :=
              Option.map_eq_some_iff.mp replays
            cases isResult
            have first : Run Step s [⟨s, event, outcome⟩] next :=
              @Run.snoc _ _ _ _ [] _ _ _ .nil ⟨rfl, legal, taken⟩
            exact first.trans (induction continued)
      case isFalse => cases replays

theorem run_of_replay {s : Kernel} {events : List Event}
    {test : List Record → Kernel → Prop} [∀ records final, Decidable (test records final)]
    (passes : (s.replay events).any (fun (records, final) => test records final)) :
    ∃ records final, Run Step s records final ∧ test records final := by
  obtain ⟨⟨records, final⟩, replays, holds⟩ := (Option.any_eq_true _ _).mp passes
  exact ⟨records, final, replay_run replays, of_decide_eq_true holds⟩

end Kernel

theorem Step.guarded {allowed : Kernel → Record → Prop} {s final : Kernel}
    {history : List Record} (run : Run Step s history final)
    (permitted : ∀ record ∈ history, allowed record.before record) :
    Run (Guarded allowed Step) s history final := by
  induction run with
  | nil => exact .nil
  | @snoc earlier middle last record _ step induction =>
      have before := induction fun other member => permitted other (by simp [member])
      have here := permitted record (by simp)
      rw [step.before] at here
      exact before.snoc ⟨here, step⟩

/-- The state in which the kernel's `entry` calls `execute`, on the boot
stack. -/
structure PreBoot (s : Kernel) : Prop where
  table : s.table = ProcessTable.initial
  curProcess : s.curProcess = 1
  onStack : currentPcb s.esp = pcbAddr 0
  tty : ∃ t : Tty, s.tty = t.keyboardInit
  rtc : s.rtc = rtcInit
  shell : ValidShell s.fs

/-- The state just after the boot-time `execute`. -/
def Booted (s : Kernel) : Prop :=
  ∃ pre frame locals after started, PreBoot pre ∧ frame.On pre ∧
    pre.execute frame locals (shellCommand after) = some (.starts started s)

namespace Record

/-- The step takes the processor from a process whose frame is `frameEbp`. -/
def Suspends (record : Record) (frameEbp : Word) : Prop :=
  (∃ frame locals schedEbp, record.event = .pit frame locals ∧
    record.outcome = .switches schedEbp ∧ frame.ebp = frameEbp) ∨
  ∃ frame inner locals scanCode after started,
    record.event = .key frame inner locals scanCode after ∧
      record.outcome = .starts started ∧ frame.ebp = frameEbp

/-- The step starts `child` from an `execute` call whose frame is `frameEbp`. -/
def Calls (record : Record) (child : Int) (frameEbp : Word) : Prop :=
  ∃ frame locals commandUser started,
    record.event = .execute frame locals commandUser ∧
      record.outcome = .starts started ∧ started.pid = child ∧ frame.ebp = frameEbp

/-- The process that runs when the step is taken. -/
def running (record : Record) : Int := record.before.runningPid

/-- The step enters a new program. -/
def Starts (record : Record) (started : Started) : Prop :=
  record.outcome = .starts started

def Halts (record : Record) : Prop :=
  match record.event with
  | .halt _ _ _ _ _ => True
  | _ => False

instance (record : Record) : Decidable record.Halts :=
  match record with
  | ⟨_, .halt _ _ _ _ _, _⟩ => isTrue trivial
  | ⟨_, .execute _ _ _, _⟩ | ⟨_, .pit _ _, _⟩ | ⟨_, .key _ _ _ _ _, _⟩
  | ⟨_, .vidmap _ _ _, _⟩ | ⟨_, .terminalWrite _ _, _⟩ | ⟨_, .readStart _, _⟩
  | ⟨_, .readLine _, _⟩ | ⟨_, .rtcWrite _, _⟩ | ⟨_, .rtc, _⟩ => isFalse id

def Matches (record : Record) : Sessions.Action Int Int Word → Prop
  | .idle => True
  | .finish => True
  | .start child frame => record.Calls child frame
  | .boot _ _ frame => record.Suspends frame
  | .switch _ frame => record.Suspends frame

end Record

/-- The session changes by the action a record stands for. -/
structure Performs (a : Session) (record : Record) (b : Session) : Prop where
  wellFormed : a.WellFormed
  running : a.running = some record.running
  action : ∃ action, Sessions.Step a action b ∧ record.Matches action

/-- How a step of the process `running` changes the processes that are live. -/
inductive Lives (a : Session) (halts : Prop) (starts : Started → Prop) (running : Int)
    (b : Session) : Prop where
  | starts (started : Started) (isStart : starts started) (continues : ¬halts)
      (fresh : ¬a.Live started.pid) (enters : b.running = some started.pid)
      (live : ∀ p, b.Live p ↔ p = started.pid ∨ a.Live p)
  | restarts (started : Started) (isStart : starts started) (halts : halts)
      (own : started.pid = running) (enters : b.running = some started.pid)
      (live : ∀ p, b.Live p ↔ a.Live p)
  | ends (noStart : ∀ started, ¬starts started) (halts : halts)
      (live : ∀ p, b.Live p ↔ a.Live p ∧ p ≠ running)
  | stays (noStart : ∀ started, ¬starts started) (continues : ¬halts)
      (live : ∀ p, b.Live p ↔ a.Live p)

namespace Represents

variable {a : Session} {s : Kernel}

theorem runningPid (represents : Represents s a) : a.running = some s.runningPid := by
  obtain ⟨p, rest, stacked, runs⟩ := represents.stacked
  have name := represents.links.named p ⟨a.current, by simp [stacked]⟩
  simp [Sessions.running, stacked, Kernel.runningPid, runs.onStack, name]

theorem unmoved (represents : Represents s a) {next : Kernel}
    (table : next.table = s.table) (curProcess : next.curProcess = s.curProcess)
    (pcb : next.pcb = s.pcb) (pdt : next.pdt 32 = s.pdt 32)
    (tssEsp0 : next.tssEsp0 = s.tssEsp0) (esp : next.esp = s.esp)
    (shown : next.tty.curTerminal = s.tty.curTerminal) (fs : next.fs = s.fs) :
    Represents next a where
  wellFormed := represents.wellFormed
  numbered := represents.numbered
  accounts := table ▸ represents.accounts
  links := pcb ▸ represents.links
  frames := pcb ▸ represents.frames
  runs := fun p running =>
    ⟨esp ▸ (represents.runs p running).onStack,
      pdt ▸ (represents.runs p running).mapped,
      tssEsp0 ▸ (represents.runs p running).stackTop⟩
  current := curProcess.trans represents.current
  displayed := shown ▸ represents.displayed
  shell := fs ▸ represents.shell

theorem step (represents : Represents s a) {record : Record} {next : Kernel}
    (step : Step s record next) :
    ∃ b, Performs a record b ∧
      Lives a record.Halts record.Starts record.running b ∧ Represents next b := by
  obtain ⟨before, event, outcome⟩ := record
  obtain ⟨rfl, legal, taken⟩ := step
  have performs : ∀ {b : Session} {action : Sessions.Action Int Int Word},
      Sessions.Step a action b →
      (⟨before, event, outcome⟩ : Record).Matches action →
      Performs a ⟨before, event, outcome⟩ b := by
    intro b action acts matched
    exact ⟨represents.wellFormed, represents.runningPid, action, acts, matched⟩
  have running : ∀ {p : Int} {rest : List Int}, a.stack a.current = p :: rest →
      p = before.runningPid := by
    intro p rest stacked
    simpa [Sessions.running, stacked] using represents.runningPid
  -- an event that changes no session leaves the same one represented
  let record : Record := ⟨before, event, outcome⟩
  have idle : (∀ started, ¬record.Starts started) → ¬record.Halts →
      Represents next a →
      ∃ b, Performs a record b ∧ Lives a record.Halts record.Starts record.running b ∧
        Represents next b := by
    intro noStart continues same
    exact ⟨a, performs .idle trivial, .stays noStart continues fun _ => .rfl, same⟩
  cases event with
  | execute frame locals commandUser =>
      rcases represents.execute legal.1 locals commandUser with
        ⟨value, after, executes, _, _, same⟩ |
        ⟨started, after, top, rest, executes, stacked, fresh, _, _, _, _, pushed⟩
      · simp only [Kernel.step, executes, Option.map_some, Option.some.injEq,
          Prod.mk.injEq] at taken
        exact idle (by simp [record, Record.Starts, ← taken.1]) id (taken.2 ▸ same)
      · simp only [Kernel.step, executes, Option.map_some, Option.some.injEq,
          Prod.mk.injEq] at taken
        refine ⟨_, performs (.start stacked fresh) ?_, ?_, taken.2 ▸ pushed⟩
        · exact ⟨frame, locals, commandUser, started, rfl, taken.1.symm, rfl, rfl⟩
        · exact .starts started taken.1.symm id fresh
            (by simp [Sessions.running, Sessions.push]) (Sessions.live_push stacked)
  | halt frame inner locals status memory =>
      rcases represents.halt legal.1 legal.2 locals status memory with
        ⟨started, after, t, halts, stacked, pid, _, _, _, same⟩ |
        ⟨parentEbp, after, top, under, rest, halts, stacked, _, _, _, popped⟩
      · simp only [Kernel.step, halts, Option.map_some, Option.some.injEq,
          Prod.mk.injEq] at taken
        refine ⟨a, performs .idle trivial, ?_, taken.2 ▸ same⟩
        exact .restarts started taken.1.symm trivial (pid.trans (running stacked))
          (by simp [Sessions.running, stacked, pid]) fun _ => .rfl
      · simp only [Kernel.step, halts, Option.map_some, Option.some.injEq,
          Prod.mk.injEq] at taken
        refine ⟨_, performs (.finish stacked) trivial, ?_, taken.2 ▸ popped⟩
        refine .ends (by simp [Record.Starts, ← taken.1]) trivial ?_
        intro p
        rw [represents.wellFormed.live_pop stacked p, running stacked]
        exact and_comm
  | pit frame locals =>
      rcases represents.pit legal locals with stays |
        ⟨schedEbp, after, top, rest, t, resumed, others, switches, stacked, waiting,
          different, _, _, _, changed⟩
      · simp only [Kernel.step, stays, Option.map_some, Option.some.injEq,
          Prod.mk.injEq] at taken
        exact idle (by simp [record, Record.Starts, ← taken.1]) id (taken.2 ▸ represents)
      · simp only [Kernel.step, switches, Option.map_some, Option.some.injEq,
          Prod.mk.injEq] at taken
        refine ⟨_, performs (.switch stacked waiting different) ?_, ?_,
          taken.2 ▸ changed⟩
        · exact .inl ⟨frame, locals, schedEbp, rfl, taken.1.symm, rfl⟩
        · exact .stays (by simp [Record.Starts, ← taken.1]) id fun _ => .rfl
  | key frame inner locals scanCode memory =>
      rcases represents.key legal.1 legal.2 locals scanCode memory with
        ⟨tty, handled, _, _, same⟩ |
        ⟨started, after, top, rest, t, boots, stacked, low, high, unused, _, pid, _, _,
          entered⟩
      · simp only [Kernel.step, handled, Option.map_some, Option.some.injEq,
          Prod.mk.injEq] at taken
        exact idle (by simp [record, Record.Starts, ← taken.1]) id (taken.2 ▸ same)
      · simp only [Kernel.step, boots, Option.map_some, Option.some.injEq,
          Prod.mk.injEq] at taken
        have fresh : ¬a.Live t := by
          rw [represents.numbered.live_base low high]
          exact fun nonempty => nonempty unused
        refine ⟨_, performs (.boot stacked unused fresh) ?_, ?_, taken.2 ▸ entered⟩
        · exact .inr ⟨frame, inner, locals, scanCode, memory, started, rfl,
            taken.1.symm, rfl⟩
        · subst pid
          exact .starts started taken.1.symm id fresh
            (by simp [Sessions.running, Sessions.enter]) (Sessions.live_enter unused)
  | vidmap frame locals screenStart =>
      obtain ⟨⟨mapped, value, store⟩, vidmaps, isNext⟩ :=
        Option.map_eq_some_iff.mp taken
      simp only [Prod.mk.injEq] at isNext
      apply idle (by simp [record, Record.Starts, ← isNext.1]) id
      rw [← isNext.2]
      rcases Kernel.vidmap_cases vidmaps with ⟨rfl, _⟩ | ⟨base, _, rfl, _⟩
      · exact represents
      · exact represents.unmoved rfl rfl rfl (by simp [Kernel.mapVideo, vidPdtIdx]) rfl
          rfl rfl rfl
  | terminalWrite frame input =>
      simp only [Kernel.step, represents.terminalWrite legal.esp, Option.map_some,
        Option.some.injEq, Prod.mk.injEq] at taken
      apply idle (by simp [record, Record.Starts, ← taken.1]) id
      exact taken.2 ▸ represents.display _ represents.displayed
  | readStart bytes =>
      simp only [Kernel.step] at taken
      split at taken
      · simp only [Option.some.injEq, Prod.mk.injEq] at taken
        exact idle (by simp [record, Record.Starts, ← taken.1]) id (taken.2 ▸ represents)
      · simp only [Option.some.injEq, Prod.mk.injEq] at taken
        apply idle (by simp [record, Record.Starts, ← taken.1]) id
        exact taken.2 ▸ represents.display _ represents.displayed
  | readLine bytes =>
      simp only [Kernel.step, Option.some.injEq, Prod.mk.injEq] at taken
      apply idle (by simp [record, Record.Starts, ← taken.1]) id
      have shown := (Tty.SameControls.terminalReadLine before.tty bytes).curTerminal
      exact taken.2 ▸ represents.display _ (shown ▸ represents.displayed)
  | rtcWrite frequency =>
      simp only [Kernel.step, Option.some.injEq, Prod.mk.injEq] at taken
      apply idle (by simp [record, Record.Starts, ← taken.1]) id
      exact taken.2 ▸ represents.unmoved rfl rfl rfl rfl rfl rfl rfl rfl
  | rtc =>
      simp only [Kernel.step] at taken
      obtain ⟨rtc, _, isNext⟩ := Option.map_eq_some_iff.mp taken
      simp only [Prod.mk.injEq] at isNext
      apply idle (by simp [record, Record.Starts, ← isNext.1]) id
      exact isNext.2 ▸ represents.unmoved rfl rfl rfl rfl rfl rfl rfl rfl

end Represents

/-- The session of the first shell. -/
def firstSession : Session where
  stack := fun t => if t = 1 then [1] else []
  current := 1
  suspended := fun _ => none
  calling := fun _ => none

theorem mem_firstSession {t p : Int} :
    p ∈ firstSession.stack t ↔ t = 1 ∧ p = 1 := by
  by_cases first : t = 1 <;> simp [firstSession, first]

theorem firstSession_wellFormed : firstSession.WellFormed where
  nodup := by
    intro t
    by_cases first : t = 1 <;> simp [firstSession, first]
  disjoint := by
    intro p t u inFirst inSecond
    rw [mem_firstSession] at inFirst inSecond
    rw [inFirst.1, inSecond.1]
  nonempty := by simp [firstSession]
  suspended_iff := by
    intro p
    constructor
    · intro saved
      exact (saved rfl).elim
    · intro ⟨t, different, member⟩
      have inside := mem_firstSession.mp (List.mem_of_mem_head? member)
      exact (different inside.1).elim
  calling_iff := by
    intro p
    constructor
    · intro waits
      exact (waits rfl).elim
    · intro ⟨t, member⟩
      by_cases first : t = 1 <;> simp [firstSession, first] at member
  pending := by
    intro t
    by_cases first : t = 1 <;> simp [firstSession, first]

theorem firstSession_numbered : Numbered firstSession where
  terminal := by
    intro t nonempty
    by_cases first : t = 1
    · omega
    · simp [firstSession, first] at nonempty
  base := by
    intro t nonempty
    by_cases first : t = 1 <;> simp_all [firstSession]
  aux := by
    intro t p member
    have inside := mem_firstSession.mp member
    omega
  first := by simp [firstSession]

theorem live_firstSession {p : Int} : firstSession.Live p ↔ p = 1 := by
  simp [Sessions.Live, mem_firstSession]

theorem PreBoot.executes {pre : Kernel} (preBoot : PreBoot pre) (frame : Frame)
    (locals : Locals) (after : Nat → Byte) :
    ∃ started, started.pid = 1 ∧ pre.execute frame locals (shellCommand after) =
      some (.starts started (pre.install frame locals ProcessTable.initial.bootBase
        (localCommand (shellCommand after)))) := by
  obtain ⟨program, runs⟩ := Kernel.execute_shellCommand preBoot.shell frame locals after
  have chosen : pre.table.choosePid
      (isShell ((localCommand (shellCommand after)).take
        (nameEnd (localCommand (shellCommand after))))) locals.nextPid =
      ProcessTable.initial.bootBase := by
    rw [fileName_shellCommand, isShell_shellName, preBoot.table]
    rfl
  have starts := @Kernel.runProgram_starts pre frame locals _ program _ chosen
    (by decide)
  exact ⟨_, rfl, runs.trans starts⟩

theorem PreBoot.install {pre s : Kernel} {frame : Frame} {locals : Locals}
    {after : Nat → Byte} {started : Started} (preBoot : PreBoot pre)
    (executes : pre.execute frame locals (shellCommand after) =
      some (.starts started s)) :
    started.pid = 1 ∧
      s = pre.install frame locals ProcessTable.initial.bootBase
        (localCommand (shellCommand after)) := by
  obtain ⟨first, isFirst, starts⟩ := preBoot.executes frame locals after
  rw [starts] at executes
  cases executes
  exact ⟨isFirst, rfl⟩

theorem Booted.represents {s : Kernel} (booted : Booted s) :
    Represents s firstSession := by
  obtain ⟨pre, frame, locals, after, started, preBoot, on, executes⟩ := booted
  obtain ⟨_, rfl⟩ := preBoot.install executes
  constructor
  case wellFormed => exact firstSession_wellFormed
  case numbered => exact firstSession_numbered
  case accounts =>
    constructor
    case booted =>
      intro t low high
      have only : firstSession.stack t ≠ [] ↔ t = 1 := by
        by_cases first : t = 1 <;> simp [firstSession, first]
      rw [only]
      change (1#8 &&& terminalBit t ≠ 0 ↔ _)
      interval_cases t <;> decide
    case liveMask => rfl
    case initBoot => rfl
    case slots =>
      intro p low high
      rw [live_firstSession]
      have other : p - 1 = 0 ↔ p = 1 := by omega
      simp [ProcessTable.live, Kernel.install, ProcessTable.bootBase,
        ProcessTable.initial, Function.update_apply, other]
    case counted =>
      change ProcessTable.initial.bootBase.table.auxProcesses =
        ProcessTable.auxSlots ProcessTable.initial.bootBase.table.activeProcesses
      decide
  case links =>
    have separate : true = false → currentPcb frame.esp ≠ pcbAddr 1 := by simp
    constructor
    · intro t
      by_cases first : t = 1
      · have stack : firstSession.stack t = [1] := by simp [firstSession, first]
        rw [stack]
        apply Chain.Linked.singleton
        · decide
        · exact (installPcb_parentPcb _ _ _ _ _ _ _ separate).trans (if_pos rfl)
        · exact (installPcb_childPcb _ _ _ _ _ _ _ separate).trans (if_pos rfl)
      · have stack : firstSession.stack t = [] := by simp [firstSession, first]
        rw [stack]
        exact ⟨.nil, by simp, by simp, by simp⟩
    · intro p live
      rw [live_firstSession.mp live]
      exact (installPcb_processId _ _ _ _ _ _ _).trans (if_pos rfl)
  case frames =>
    constructor
    · intro p frame saved
      cases saved
    · intro p child frame waits
      cases waits
  case runs =>
    intro p running
    have first : 1 = p := by simpa [Sessions.running, firstSession] using running
    rw [← first]
    exact Runs.install (by decide) (by decide)
  case current => exact preBoot.curProcess
  case displayed =>
    obtain ⟨t, isInit⟩ := preBoot.tty
    have shown : pre.tty.curTerminal = 1 := by rw [isInit]; rfl
    change firstSession.stack pre.tty.curTerminal ≠ []
    rw [shown]
    exact firstSession_wellFormed.nonempty
  case shell => exact preBoot.shell

/-- Every run from the first shell performs a run of sessions, and the state it
ends in represents the session that run ends in. -/
theorem Booted.run {start s : Kernel} {history : List Record}
    (booted : Booted start) (run : Run Step start history s) :
    ∃ a, Run Performs firstSession history a ∧ Represents s a := by
  apply run.simulate _ booted.represents
  intro state record next a represents step
  obtain ⟨b, performs, _, after⟩ := represents.step step
  exact ⟨b, performs, after⟩

/-- The nonzero bytes of an image that holds one file, the executable "shell". -/
def sampleImage : List (Nat × Byte) :=
  [(0, 1#8), (4, 1#8), (8, 1#8),
    (64, 0x73#8), (65, 0x68#8), (66, 0x65#8), (67, 0x6C#8), (68, 0x6C#8), (96, 2#8),
    (4096, 28#8),
    (8192, 0x7F#8), (8193, 0x45#8), (8194, 0x4C#8), (8195, 0x46#8),
    (8216, 0x18#8), (8217, 0x80#8), (8218, 0x04#8), (8219, 0x08#8)]

def sampleFs : FileSystem where
  image := fun offset => (sampleImage.lookup offset.toNat).getD 0

theorem sampleFs_validShell : ValidShell sampleFs := by
  refine ⟨0, sampleFs.dirEntry 0, sampleFs.copyData 0 28 0 28, ?_, ?_, ?_⟩
  · rfl
  · rfl
  · decide

theorem sampleFs_onlyEntry {index : Word} (inside : index < sampleFs.numDirEntries) :
    index = 0 := by
  have only : sampleFs.numDirEntries.toNat = 1 := by decide
  rw [BitVec.lt_def, only] at inside
  apply BitVec.eq_of_toNat_eq
  exact Nat.lt_one_iff.mp inside

def sampleTty : Tty where
  vram := fun _ => 0
  screenX := fun _ => 0
  screenY := fun _ => 0
  cursor := 0
  keyboardIndex := fun _ => 0
  shiftFlag := false
  capsLockFlag := false
  ctrlFlag := false
  enterFlag := fun _ => false
  newlineFlag := false
  altFlag := false
  curTerminal := 1
  keyboardBuffer := fun _ => 0
  accesses := []

def samplePcb : ProcessControlBlock where
  processId := 0
  exitStatus := 0
  files := fun _ => stdinFd
  args := fun _ => 0
  name := fun _ => 0
  childPcb := 0
  parentPcb := 0
  ebp := 0
  schedEbp := 0

/-- The machine before its first `execute`. -/
def samplePre : Kernel where
  table := ProcessTable.initial
  curProcess := 1
  pcb := fun _ => samplePcb
  pdt := fun _ => 0
  ptVidmap := fun _ => 0
  ptVidmapFrame := 0x400
  tssEsp0 := 0x800000
  tssSs0 := kernelDs
  esp := 0x7FFFF0
  tty := sampleTty.keyboardInit
  rtc := rtcInit
  fs := sampleFs

/-- A frame on the kernel stack of a process. -/
def sampleFrame (pid : Int) : Frame where
  esp := kernelStackTop pid - 0x100
  ebp := kernelStackTop pid - 0x80

def sampleLocals : Locals where
  fileMetadata := fun _ => 0
  nextPid := 0
  newPage := 0
  vidmem := 0
  vidmemPt := 0

def sampleCommand : Nat → Byte := shellCommand fun _ => 0

/-- The machine after its first `execute`. -/
def sampleStart : Kernel :=
  samplePre.install (sampleFrame 0) sampleLocals ProcessTable.initial.bootBase
    (localCommand sampleCommand)

theorem samplePre_onStack : currentPcb samplePre.esp = pcbAddr 0 := by decide

theorem sampleFrame_onStack :
    currentPcb (sampleFrame 0).esp = currentPcb samplePre.esp ∧
      currentPcb (sampleFrame 0).ebp = currentPcb samplePre.esp := by
  decide

theorem preBoot_of_validShell {fs : FileSystem} (shell : ValidShell fs) :
    PreBoot { samplePre with fs := fs } where
  table := rfl
  curProcess := rfl
  onStack := samplePre_onStack
  tty := ⟨sampleTty, rfl⟩
  rtc := rfl
  shell := shell

theorem executes_of_validShell {fs : FileSystem} (shell : ValidShell fs) :
    ∃ started, ({ samplePre with fs := fs } : Kernel).execute (sampleFrame 0) sampleLocals
      sampleCommand = some (.starts started { sampleStart with fs := fs }) := by
  obtain ⟨started, _, executes⟩ := (preBoot_of_validShell shell).executes (sampleFrame 0)
    sampleLocals fun _ => 0
  exact ⟨started, executes⟩

theorem booted_of_validShell {fs : FileSystem} (shell : ValidShell fs) :
    Booted { sampleStart with fs := fs } := by
  obtain ⟨esp, ebp⟩ := sampleFrame_onStack
  obtain ⟨started, executes⟩ := executes_of_validShell shell
  exact ⟨_, _, _, fun _ => 0, started, preBoot_of_validShell shell, ⟨esp, ebp⟩, executes⟩

theorem samplePre_preBoot : PreBoot samplePre :=
  preBoot_of_validShell sampleFs_validShell

theorem sampleStart_executes :
    ∃ started, samplePre.execute (sampleFrame 0) sampleLocals sampleCommand =
      some (.starts started sampleStart) :=
  executes_of_validShell sampleFs_validShell

theorem sampleStart_booted : Booted sampleStart :=
  booted_of_validShell sampleFs_validShell

def sampleKey (pid : Int) (scanCode : Byte) : Event :=
  .key (sampleFrame pid) (sampleFrame pid) sampleLocals scanCode fun _ => 0

/-- The first shell runs a second one, terminal 2 is booted, the scheduler comes
back to terminal 1, and both of its processes halt. -/
def sampleTour : List Event :=
  [.execute (sampleFrame 1) sampleLocals sampleCommand,
    sampleKey 4 ScanCode.alt, sampleKey 4 ScanCode.f2,
    .pit (sampleFrame 2) sampleLocals,
    .halt (sampleFrame 4) (sampleFrame 4) sampleLocals 0 fun _ => 0,
    .halt (sampleFrame 1) (sampleFrame 1) sampleLocals 0 fun _ => 0]

theorem sampleTour_run :
    ∃ history final, Run Step sampleStart history final ∧ history.length = 6 := by
  obtain ⟨history, final, run, length⟩ :=
    @Kernel.run_of_replay sampleStart sampleTour
      (fun history _ => history.length = 6) _ (by decide +kernel)
  exact ⟨history, final, run, length⟩

end LightweightOs
