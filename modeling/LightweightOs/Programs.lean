import LightweightOs.FileCalls
import LightweightOs.Lifetimes

/-!
# Programs and their open files

The events of the kernel together with the calls that open, read, write and
close files.  A call is treated as one step, though interrupts are on in parts of
it; a call that waits and the end of its wait are two.  None of the calls moves a
process, so the session a state represents is still there after them; what a
program can see of another one's descriptors is settled by how each step changes
the descriptors of every block.
-/

namespace LightweightOs

open Transition

inductive Call where
  | openFile (filename : Option (List Byte))
  | close (fd : Int)
  | read (fd : Int) (buf nbytes : Word) (stack : Nat → Byte)
  | write (fd : Int) (buf nbytes : Word) (input : Nat → Byte)

inductive Action where
  | event (event : Event)
  | call (frame : Frame) (call : Call)
  | rtcReadEnd

inductive Reply where
  | event (outcome : Outcome)
  | returned (value : Int) (stored : List Byte)
  | waiting
  | null

/-- What a call returned and stored. -/
def Reply.result : Reply → Option (Int × List Byte)
  | .returned value stored => some (value, stored)
  | .event _ | .waiting | .null => none

theorem Reply.eq_of_result {reply : Reply} {value : Int} {stored : List Byte}
    (result : reply.result = some (value, stored)) : reply = .returned value stored := by
  cases reply with
  | returned =>
      simp only [Reply.result, Option.some.injEq, Prod.mk.injEq] at result
      rw [result.1, result.2]
  | event | waiting | null => cases result

namespace Kernel

def call (s : Kernel) (current : Word) : Call → Option CallResult
  | .openFile filename => some (s.open current filename)
  | .close fd => some (s.close current fd)
  | .read fd buf nbytes stack => some (s.read current fd buf nbytes stack)
  | .write fd buf nbytes input => s.write current fd buf nbytes input

end Kernel

/-- What a call does to descriptors: nothing, or one change to one entry of the
caller. -/
inductive CallEffect (s : Kernel) (current : Word) : Call → CallResult → Prop where
  | returns {call : Call} {value : Int} {stored : List Byte} {next : Kernel}
      (keeps : s.CallKeeps next current) (pcb : next.pcb = s.pcb) :
      CallEffect s current call (.returns value stored next)
  | waits {call : Call} {next : Kernel} (keeps : s.CallKeeps next current)
      (pcb : next.pcb = s.pcb) : CallEffect s current call (.waits next)
  | null {call : Call} : CallEffect s current call .null
  | opens {filename : Option (List Byte)} {fd : Nat} {index : Word} {dentry : DirEntry}
      {file : FileDescriptor} {next : Kernel}
      (unused : unusedDescriptor (s.pcb current).files = some fd)
      (found : s.fs.readDentryByName filename = some (index, dentry))
      (opened : openedFile ((s.pcb current).files fd) dentry = some file)
      (keeps : s.CallKeeps next current)
      (pcb : next.pcb = (s.setFile current fd file).pcb) :
      CallEffect s current (.openFile filename) (.returns fd [] next)
  | closes {fd : Int} {next : Kernel} (range : 2 ≤ fd ∧ fd ≤ 7)
      (used : ((s.pcb current).files fd.toNat).flags ≠ 0)
      (keeps : s.CallKeeps next current)
      (pcb : next.pcb = (s.setFile current fd.toNat
        { (s.pcb current).files fd.toNat with flags := 0 }).pcb) :
      CallEffect s current (.close fd) (.returns 0 [] next)
  | reads {fd : Int} {buf nbytes : Word} {stack : Nat → Byte} {value : Int}
      {stored : List Byte} {position : Word} {next : Kernel}
      (range : 0 ≤ fd ∧ fd ≤ 7)
      (used : ((s.pcb current).files fd.toNat).flags ≠ 0)
      (operation : ((s.pcb current).files fd.toNat).operationsTable.read = .dirRead ∨
        ((s.pcb current).files fd.toNat).operationsTable.read = .fileRead)
      (keeps : s.CallKeeps next current)
      (pcb : next.pcb = (s.setFile current fd.toNat
        { (s.pcb current).files fd.toNat with filePosition := position }).pcb) :
      CallEffect s current (.read fd buf nbytes stack) (.returns value stored next)

namespace Kernel

theorem open_effect (s : Kernel) (current : Word) (filename : Option (List Byte)) :
    CallEffect s current (.openFile filename) (s.open current filename) := by
  have idle : s.CallKeeps s current := .of_pcb s.tty s.rtc rfl
  rw [Kernel.open]
  cases unused : unusedDescriptor (s.pcb current).files with
  | none => exact .returns idle rfl
  | some fd =>
      cases found : s.fs.readDentryByName filename with
      | none => exact .returns idle rfl
      | some entry =>
          obtain ⟨index, dentry⟩ := entry
          simp only
          cases opened : openedFile ((s.pcb current).files fd) dentry with
          | none => exact .returns idle rfl
          | some file =>
              simp only
              split
              · exact .opens unused found opened (.setFile _ _ _ _ _) rfl
              · exact .opens unused found opened (.setFile _ _ _ _ s.rtc) rfl

theorem close_effect (s : Kernel) (current : Word) (fd : Int) :
    CallEffect s current (.close fd) (s.close current fd) := by
  have idle : s.CallKeeps s current := .of_pcb s.tty s.rtc rfl
  rw [Kernel.close]
  split
  · exact .returns idle rfl
  case isFalse range =>
    simp only
    split
    · exact .returns idle rfl
    case isFalse used =>
      cases ((s.pcb current).files fd.toNat).operationsTable.close with
      | null => exact .null
      | terminalClose | rtcClose | dirClose | fileClose =>
          exact .closes (by omega) used (.setFile _ _ _ _ s.rtc) rfl

theorem read_effect (s : Kernel) (current : Word) (fd : Int) (buf nbytes : Word)
    (stack : Nat → Byte) :
    CallEffect s current (.read fd buf nbytes stack)
      (s.read current fd buf nbytes stack) := by
  have idle : s.CallKeeps s current := .of_pcb s.tty s.rtc rfl
  rw [Kernel.read]
  split
  · exact .returns idle rfl
  case isFalse valid =>
    split
    · exact .returns idle rfl
    · simp only
      split
      · exact .returns idle rfl
      case isFalse used =>
        have range : 0 ≤ fd ∧ fd ≤ 7 := by
          constructor <;> by_contra outside <;> exact valid (by omega)
        cases operation : ((s.pcb current).files fd.toNat).operationsTable.read with
        | null => exact .null
        | terminalRead =>
            simp only
            split
            · exact .returns idle rfl
            · exact .waits (.of_pcb _ s.rtc rfl) rfl
        | rtcRead => exact .waits (.of_pcb s.tty _ rfl) rfl
        | dirRead =>
            obtain ⟨position, advanced⟩ :=
              dirRead_file s.fs ((s.pcb current).files fd.toNat) nbytes stack
            simp only [advanced]
            exact .reads range used (.inl operation) (.setFile _ _ _ _ s.rtc) rfl
        | fileRead =>
            obtain ⟨position, advanced⟩ :=
              fileRead_file s.fs ((s.pcb current).files fd.toNat) nbytes
            simp only [advanced]
            exact .reads range used (.inr operation) (.setFile _ _ _ _ s.rtc) rfl

theorem write_effect {s : Kernel} {current : Word} {fd : Int} {buf nbytes : Word}
    {input : Nat → Byte} {result : CallResult}
    (writes : s.write current fd buf nbytes input = some result) :
    CallEffect s current (.write fd buf nbytes input) result := by
  have idle : s.CallKeeps s current := .of_pcb s.tty s.rtc rfl
  simp only [Kernel.write] at writes
  split at writes
  · cases writes
    exact .returns idle rfl
  · split at writes
    · cases writes
      exact .returns idle rfl
    · split at writes
      · cases writes
        exact .returns idle rfl
      · cases operation : ((s.pcb current).files fd.toNat).operationsTable.write with
        | null =>
            simp only [operation] at writes
            cases writes
            exact .null
        | terminalWrite =>
            simp only [operation] at writes
            split at writes
            · cases writes
              exact .returns idle rfl
            · obtain ⟨next, prints, rfl⟩ := Option.map_eq_some_iff.mp writes
              obtain ⟨_, _, rfl⟩ := Option.map_eq_some_iff.mp prints
              exact .returns (.of_pcb _ s.rtc rfl) rfl
        | rtcWrite =>
            simp only [operation] at writes
            cases writes
            exact .returns (.of_pcb s.tty _ rfl) rfl
        | dirWrite | fileWrite =>
            simp only [operation] at writes
            cases writes
            exact .returns idle rfl

theorem call_effect {s : Kernel} {current : Word} {call : Call} {result : CallResult}
    (calls : s.call current call = some result) : CallEffect s current call result := by
  cases call with
  | openFile filename =>
      obtain rfl := Option.some.inj calls
      exact open_effect s current filename
  | close fd =>
      obtain rfl := Option.some.inj calls
      exact close_effect s current fd
  | read fd buf nbytes stack =>
      obtain rfl := Option.some.inj calls
      exact read_effect s current fd buf nbytes stack
  | write fd buf nbytes input => exact write_effect calls

/-- The effect of an action; `none` when the kernel does not come through it. -/
def act (s : Kernel) : Action → Option (Reply × Kernel)
  | .event event => (s.step event).map fun (outcome, next) => (.event outcome, next)
  | .call frame call =>
      (s.call (currentPcb frame.esp) call).map fun
        | .returns value stored next => (.returned value stored, next)
        | .waits next => (.waiting, next)
        | .null => (.null, s)
  | .rtcReadEnd =>
      some (.returned 0 [], { s with rtc := s.rtc.rtcReadEnd (s.curProcess - 1) })

/-- Frames lie on the stack in use, and a wait has ended before its reader goes
on. -/
def Permits (s : Kernel) : Action → Prop
  | .event event => s.Legal event
  | .call frame _ => frame.On s
  | .rtcReadEnd => s.rtc.ticked (s.curProcess - 1)

instance (s : Kernel) (action : Action) : Decidable (s.Permits action) :=
  match action with
  | .event event => inferInstanceAs (Decidable (s.Legal event))
  | .call frame _ => inferInstanceAs (Decidable (frame.On s))
  | .rtcReadEnd => inferInstanceAs (Decidable (_ = true))

end Kernel

structure Entry where
  before : Kernel
  action : Action
  reply : Reply

structure Acts (s : Kernel) (entry : Entry) (next : Kernel) : Prop where
  before : entry.before = s
  permitted : s.Permits entry.action
  taken : s.act entry.action = some (entry.reply, next)

namespace Entry

/-- The process that runs when the step is taken. -/
def running (entry : Entry) : Int := entry.before.runningPid

def Halts (entry : Entry) : Prop :=
  match entry.action with
  | .event (.halt _ _ _ _ _) => True
  | _ => False

/-- The step enters a new program. -/
def Starts (entry : Entry) (started : Started) : Prop :=
  entry.reply = .event (.starts started)

end Entry

/-- Take the step an action asks for, if it is permitted. -/
def Kernel.advance (s : Kernel) (action : Action) : Option (Entry × Kernel) :=
  if s.Permits action then
    (s.act action).map fun (reply, next) => (⟨s, action, reply⟩, next)
  else none

theorem Kernel.advance_acts (s : Kernel) (action : Action) (entry : Entry)
    (next : Kernel) (advances : s.advance action = some (entry, next)) :
    Acts s entry next := by
  rw [Kernel.advance] at advances
  split at advances
  case isTrue permitted =>
    obtain ⟨⟨reply, after⟩, taken, isNext⟩ := Option.map_eq_some_iff.mp advances
    cases isNext
    exact ⟨rfl, permitted, taken⟩
  case isFalse => cases advances

/-- A test that a replay of actions passes holds at the end of a run of them. -/
theorem exists_programs {start : Kernel} {actions : List Action}
    {test : List Entry → Kernel → Prop} [∀ history final, Decidable (test history final)]
    (passes : (replay Kernel.advance start actions).any
      fun (history, final) => test history final) :
    ∃ history final, Run Acts start history final ∧
      history.map (·.action) = actions ∧ test history final := by
  obtain ⟨⟨history, final⟩, replays, holds⟩ := (Option.any_eq_true _ _).mp passes
  refine ⟨history, final, replay_run Kernel.advance_acts replays, ?_,
    of_decide_eq_true holds⟩
  clear passes holds
  induction actions generalizing start history with
  | nil =>
      cases replays
      rfl
  | cons action rest induction =>
      simp only [replay] at replays
      cases advanced : start.advance action with
      | none => simp [advanced] at replays
      | some result =>
          obtain ⟨entry, next⟩ := result
          simp only [advanced] at replays
          obtain ⟨⟨later, last⟩, continued, isResult⟩ := Option.map_eq_some_iff.mp replays
          cases isResult
          rw [List.map_cons, induction later continued]
          rw [Kernel.advance] at advanced
          split at advanced
          · obtain ⟨_, _, isEntry⟩ := Option.map_eq_some_iff.mp advanced
            cases isEntry
            rfl
          · cases advanced

theorem Acts.of_event {s next : Kernel} {entry : Entry} {event : Event}
    (acts : Acts s entry next) (isEvent : entry.action = .event event) :
    ∃ outcome, entry.reply = .event outcome ∧ Step s ⟨s, event, outcome⟩ next := by
  obtain ⟨_, permitted, taken⟩ := acts
  rw [isEvent] at permitted taken
  obtain ⟨⟨outcome, after⟩, steps, isReply⟩ := Option.map_eq_some_iff.mp taken
  simp only [Prod.mk.injEq] at isReply
  obtain ⟨isOutcome, rfl⟩ := isReply
  exact ⟨outcome, isOutcome.symm, rfl, permitted, steps⟩

/-- A call or the end of a wait leaves everything but descriptors, the display
and the clock alone, and starts nothing. -/
theorem Acts.of_call {s next : Kernel} {entry : Entry} (acts : Acts s entry next)
    (noEvent : ∀ event, entry.action ≠ .event event) :
    s.CallKeeps next (currentPcb s.esp) ∧ ∀ started, ¬entry.Starts started := by
  obtain ⟨before, action, reply⟩ := entry
  obtain ⟨_, permitted, taken⟩ := acts
  cases action with
  | event event => exact (noEvent event rfl).elim
  | call frame call =>
      obtain ⟨result, calls, isNext⟩ := Option.map_eq_some_iff.mp taken
      rw [permitted.esp] at calls
      cases Kernel.call_effect calls <;> simp only [Prod.mk.injEq] at isNext <;>
        obtain ⟨rfl, rfl⟩ := isNext
      case null => exact ⟨.of_pcb s.tty s.rtc rfl, by simp [Entry.Starts]⟩
      all_goals exact ⟨by assumption, by simp [Entry.Starts]⟩
  | rtcReadEnd =>
      cases taken
      exact ⟨.of_pcb s.tty _ rfl, by simp [Entry.Starts]⟩

theorem Step.acts {s next : Kernel} {record : Record} (step : Step s record next) :
    Acts s ⟨s, .event record.event, .event record.outcome⟩ next where
  before := rfl
  permitted := step.legal
  taken := by simp [Kernel.act, step.taken]

namespace Represents

variable {a : Session} {s next : Kernel}

theorem call (represents : Represents s a) {current : Word}
    (keeps : s.CallKeeps next current) : Represents next a := by
  obtain ⟨files, own⟩ := keeps.own
  have linkage : ∀ address, ∃ files, next.pcb address =
      { s.pcb address with files := files } := by
    intro address
    by_cases here : address = current
    · exact here ▸ ⟨files, own⟩
    · exact ⟨_, keeps.others address here⟩
  constructor
  case wellFormed => exact represents.wellFormed
  case numbered => exact represents.numbered
  case accounts => exact keeps.table ▸ represents.accounts
  case links =>
    apply represents.links.congr <;> intro address <;>
      obtain ⟨_, same⟩ := linkage address <;> rw [same]
  case frames =>
    apply represents.frames.congr <;> intro p _ <;>
      obtain ⟨_, same⟩ := linkage (pcbAddr p) <;> rw [same]
  case runs =>
    intro p running
    have runs := represents.runs p running
    exact ⟨keeps.esp ▸ runs.onStack, keeps.pdt ▸ runs.mapped, keeps.tssEsp0 ▸ runs.stackTop⟩
  case current => exact keeps.curProcess.trans represents.current
  case displayed => exact keeps.curTerminal ▸ represents.displayed
  case shell => exact keeps.fs ▸ represents.shell

end Represents

namespace Entry

variable (entry : Entry) (p : Int)

def Opens (fd : Nat) : Prop :=
  entry.running = p ∧ ∃ frame filename,
    entry.action = .call frame (.openFile filename) ∧ entry.reply = .returned fd []

def Closes (fd : Nat) : Prop :=
  entry.running = p ∧ ∃ frame,
    entry.action = .call frame (.close fd) ∧ entry.reply = .returned 0 []

/-- A read that comes through to the end of the call. -/
def Reads (fd : Nat) (nbytes : Word) (value : Int) (stored : List Byte) : Prop :=
  entry.running = p ∧ ∃ frame buf stack,
    entry.action = .call frame (.read fd buf nbytes stack) ∧
      entry.reply = .returned value stored

def Ends : Prop := entry.Halts ∧ entry.running = p

end Entry

/-- The ways a process can change its own descriptors by a call. -/
inductive CallStep (s : Kernel) (entry : Entry) (p : Int)
    (old new : Nat → FileDescriptor) : Prop where
  | keeps (files : new = old)
  | opens {fd : Nat} {filename : Option (List Byte)} {index : Word} {dentry : DirEntry}
      {file : FileDescriptor} (opens : entry.Opens p fd)
      (unused : unusedDescriptor old = some fd)
      (found : s.fs.readDentryByName filename = some (index, dentry))
      (opened : openedFile (old fd) dentry = some file) (files : new = assign old fd file)
  | closes {fd : Nat} (closes : entry.Closes p fd) (range : 2 ≤ fd ∧ fd ≤ 7)
      (used : (old fd).flags ≠ 0) (files : new = assign old fd { old fd with flags := 0 })
  | reads {fd : Nat} {nbytes : Word} {value : Int} {stored : List Byte} {position : Word}
      (reads : entry.Reads p fd nbytes value stored) (range : fd ≤ 7)
      (used : (old fd).flags ≠ 0)
      (operation : (old fd).operationsTable.read = .dirRead ∨
        (old fd).operationsTable.read = .fileRead)
      (files : new = assign old fd { old fd with filePosition := position })

theorem CallStep.eq_of_ne {s : Kernel} {entry : Entry} {p : Int}
    {old new : Nat → FileDescriptor} (call : CallStep s entry p old new)
    (other : entry.running ≠ p) : new = old := by
  cases call with
  | keeps files => exact files
  | opens opens => exact (other opens.1).elim
  | closes closes => exact (other closes.1).elim
  | reads reads => exact (other reads.1).elim

/-- What a step does to the descriptors of the block of `p`. -/
inductive ProgramStep (s : Kernel) (entry : Entry) (a b : Session) (p : Int)
    (old new : Nat → FileDescriptor) : Prop where
  | enters (started : Started) (isStart : entry.Starts started) (isPid : started.pid = p)
      (fresh : ¬a.Live p) (files : new = standardFiles old)
  | restarts (started : Started) (isStart : entry.Starts started)
      (isPid : started.pid = p) (ends : entry.Ends p)
      (files : new = standardFiles (closeFiles old))
  | ends (ends : entry.Ends p) (dead : ¬b.Live p) (files : new = closeFiles old)
  | stays (stays : ¬entry.Ends p) (live : b.Live p ↔ a.Live p)
      (call : CallStep s entry p old new)

theorem Acts.callStep {s next : Kernel} {entry : Entry} {frame : Frame} {call : Call}
    (acts : Acts s entry next) (isCall : entry.action = .call frame call) :
    CallStep s entry entry.running (s.pcb (currentPcb s.esp)).files
      (next.pcb (currentPcb s.esp)).files := by
  obtain ⟨before, action, reply⟩ := entry
  obtain ⟨rfl, permitted, taken⟩ := acts
  simp only at isCall
  subst isCall
  obtain ⟨result, calls, isNext⟩ := Option.map_eq_some_iff.mp taken
  rw [permitted.esp] at calls
  cases Kernel.call_effect calls with
  | returns _ same | waits _ same =>
      simp only [Prod.mk.injEq] at isNext
      obtain ⟨_, rfl⟩ := isNext
      exact .keeps (by rw [same])
  | null =>
      simp only [Prod.mk.injEq] at isNext
      obtain ⟨_, rfl⟩ := isNext
      exact .keeps rfl
  | @opens filename fd index dentry file after unused found opened _ written =>
      simp only [Prod.mk.injEq] at isNext
      obtain ⟨rfl, rfl⟩ := isNext
      exact .opens ⟨rfl, frame, filename, rfl, rfl⟩ unused found opened
        (by simp [written, Kernel.setFile])
  | @closes fd after range used _ written =>
      simp only [Prod.mk.injEq] at isNext
      obtain ⟨rfl, rfl⟩ := isNext
      have isFd : (fd.toNat : Int) = fd := Int.toNat_of_nonneg (by omega)
      exact .closes ⟨rfl, frame, by rw [isFd], rfl⟩ (by omega) used
        (by simp [written, Kernel.setFile])
  | @reads fd buf nbytes stack value stored position after range used operation _ written =>
      simp only [Prod.mk.injEq] at isNext
      obtain ⟨rfl, rfl⟩ := isNext
      have isFd : (fd.toNat : Int) = fd := Int.toNat_of_nonneg (by omega)
      have reads : Entry.Reads
          ⟨before, .call frame (.read fd buf nbytes stack), .returned value stored⟩
          before.runningPid fd.toNat nbytes value stored :=
        ⟨rfl, frame, buf, stack, by rw [isFd], rfl⟩
      have files : (after.pcb (currentPcb before.esp)).files =
          assign (before.pcb (currentPcb before.esp)).files fd.toNat
            { (before.pcb (currentPcb before.esp)).files fd.toNat with
              filePosition := position } := by
        simp [written, Kernel.setFile]
      exact .reads reads (by omega) used operation files

namespace Represents

variable {a : Session} {s next : Kernel} {entry : Entry}

/-- Every step keeps a session, and what it does to descriptors is known. -/
theorem programStep (represents : Represents s a) (acts : Acts s entry next) :
    ∃ b, Represents next b ∧ Lives a entry.Halts entry.Starts entry.running b ∧
      ∀ p, 1 ≤ p ∧ p ≤ 6 → ProgramStep s entry a b p (s.pcb (pcbAddr p)).files
        (next.pcb (pcbAddr p)).files := by
  obtain ⟨before, action, reply⟩ := entry
  have isBefore : before = s := acts.before
  subst isBefore
  by_cases isEvent : ∃ event, action = .event event
  · obtain ⟨event, rfl⟩ := isEvent
    obtain ⟨outcome, isReply, step⟩ := acts.of_event rfl
    simp only at isReply
    subst isReply
    obtain ⟨b, _, lives, after⟩ := represents.step step
    have sameHalts : (⟨before, .event event, .event outcome⟩ : Entry).Halts ↔
        (⟨before, event, outcome⟩ : Record).Halts := by
      cases event <;> rfl
    have sameStarts : (⟨before, .event event, .event outcome⟩ : Entry).Starts =
        (⟨before, event, outcome⟩ : Record).Starts := by
      funext started
      simp [Entry.Starts, Record.Starts]
    refine ⟨b, after, ?_, ?_⟩
    · rw [propext sameHalts, sameStarts]
      exact lives
    · intro p range
      have sameEnds : (⟨before, .event event, .event outcome⟩ : Entry).Ends p ↔
          (⟨before, event, outcome⟩ : Record).Halts ∧
            (⟨before, event, outcome⟩ : Record).running = p := by
        rw [Entry.Ends, sameHalts]
        rfl
      cases represents.tableStep after lives step range with
      | enters started isStart isPid fresh files =>
          exact .enters started (sameStarts ▸ isStart) isPid fresh files
      | restarts started isStart isPid ends files =>
          exact .restarts started (sameStarts ▸ isStart) isPid (sameEnds.mpr ends) files
      | ends ends dead files => exact .ends (sameEnds.mpr ends) dead files
      | keeps stays live files =>
          exact .stays (fun ends => stays (sameEnds.mp ends)) live (.keeps files)
  · have noEvent : ∀ event, action ≠ .event event := fun event same =>
      isEvent ⟨event, same⟩
    obtain ⟨keeps, noStart⟩ := acts.of_call noEvent
    have continues : ¬(⟨before, action, reply⟩ : Entry).Halts := by
      cases action with
      | event event => exact (noEvent event rfl).elim
      | call | rtcReadEnd => exact id
    refine ⟨a, represents.call keeps, .stays noStart continues fun _ => .rfl, ?_⟩
    intro p range
    refine .stays (fun ends => continues ends.1) .rfl ?_
    by_cases own : p = before.runningPid
    · have block := (represents.pcbAddr_eq_iff range).mpr own
      cases action with
      | event event => exact (noEvent event rfl).elim
      | call frame call =>
          rw [block, own]
          exact acts.callStep rfl
      | rtcReadEnd =>
          cases acts.taken
          exact .keeps rfl
    · have elsewhere : pcbAddr p ≠ currentPcb before.esp :=
        fun same => own ((represents.pcbAddr_eq_iff range).mp same)
      exact .keeps (by rw [keeps.others _ elsewhere])

end Represents

theorem Acts.fs {s next : Kernel} {entry : Entry} (acts : Acts s entry next) :
    next.fs = s.fs := by
  by_cases isEvent : ∃ event, entry.action = .event event
  · obtain ⟨event, isEvent⟩ := isEvent
    obtain ⟨_, _, step⟩ := acts.of_event isEvent
    exact step.fs
  · exact (acts.of_call fun event same => isEvent ⟨event, same⟩).1.fs

theorem Acts.run_fs {start s : Kernel} {history : List Entry}
    (run : Run Acts start history s) : s.fs = start.fs := by
  induction run with
  | nil => rfl
  | snoc _ acts same => exact acts.fs.trans same

theorem Booted.programs {start s : Kernel} {history : List Entry}
    (booted : Booted start) (run : Run Acts start history s) : ∃ a, Represents s a := by
  have preserved : ∀ state entry next, (∃ a, Represents state a) →
      Acts state entry next → ∃ b, Represents next b := by
    intro state entry next ⟨a, represents⟩ acts
    obtain ⟨b, after, _⟩ := represents.programStep acts
    exact ⟨b, after⟩
  exact run.invariant preserved ⟨_, booted.represents⟩

theorem unusedDescriptor_eq {files : Nat → FileDescriptor} {fd : Nat}
    (unused : unusedDescriptor files = some fd) :
    2 ≤ fd ∧ fd ≤ 7 ∧ (files fd).flags = 0 := by
  have member := List.mem_of_find?_eq_some unused
  have free := List.find?_some unused
  simp only [List.mem_cons, List.not_mem_nil, or_false] at member
  simp only [decide_eq_true_eq] at free
  exact ⟨by omega, by omega, free⟩

end LightweightOs
