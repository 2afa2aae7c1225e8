import LightweightOs.Exceptions
import LightweightOs.SavedFrames

/-!
# Exit status

The halt of a process that `execute` started answers the call that started it,
with the low byte of its status.  Two things do not follow the protocol: the
status 256, which `halt` takes for an exception, and exceptions, which `halt`
never hears of.
-/

namespace LightweightOs

open Transition

/-- What the shell says about a value returned by `execute`. -/
def shellReport (rval : Word) : Option String :=
  if rval = -1 then some "no such command\n"
  else if rval = 256 then some "program terminated by exception\n"
  else if rval ≠ 0 then some "program terminated abnormally\n"
  else none

/-- The shell reports an exception for one value only. -/
theorem shellReport_exception (rval : Word) :
    shellReport rval = some "program terminated by exception\n" ↔ rval = 256 := by
  unfold shellReport
  constructor
  · intro reported
    split at reported
    · exact absurd reported (by decide)
    · split at reported
      case isTrue isException => exact isException
      case isFalse => split at reported <;> exact absurd reported (by decide)
  · rintro rfl
    decide

/-- The value `halt` leaves is the low byte of the status, but for one status. -/
theorem returnValue_eq_iff (status : Word) :
    returnValue status = status &&& 0xFF ↔ status ≠ 256 := by
  unfold returnValue
  constructor
  · rintro same rfl
    exact absurd same (by decide)
  · intro ordinary
    rw [if_neg ordinary]

theorem lowByte_ne (status : Word) : status &&& 0xFF ≠ 256 := by
  intro same
  have bit := congrArg (fun w : Word => w.getLsbD 8) same
  simp at bit

/-- The call that started `child` was made by the given history; its caller has not
run since, and nothing has returned to its stack. -/
def UnansweredCall (history : List Record) (p child : Int) (frameEbp : Word) : Prop :=
  LastWrite (fun record => record.running = p ∧ record.Calls child frameEbp)
    (fun record => record.running ≠ p ∧
      ∀ parentEbp, record.outcome = .resumes parentEbp →
        currentPcb parentEbp ≠ pcbAddr p)
    history

namespace Record

/-- The event is a `halt` with this status. -/
def HaltsWith (record : Record) (status : Word) : Prop :=
  ∃ frame inner locals after, record.event = .halt frame inner locals status after

/-- `halt` loads the value and returns to the frame. -/
def Returns (record : Record) (parentEbp value : Word) : Prop :=
  ∃ frame inner locals status after next,
    record.event = .halt frame inner locals status after ∧
      record.before.halt frame inner locals status after =
        some (.resumes parentEbp value next)

/-- The step answers, with the value, the call that started the running process. -/
def Answers (earlier : List Record) (record : Record) (value : Word) : Prop :=
  ∃ parent parentEbp, record.outcome = .resumes parentEbp ∧
    record.Returns parentEbp value ∧ currentPcb parentEbp = pcbAddr parent ∧
      UnansweredCall earlier parent record.running parentEbp

end Record

/-- A step of the kernel and what it does to the session. -/
structure PairedStep (x : Kernel × Session) (record : Record) (y : Kernel × Session) :
    Prop where
  before : Represents x.1 x.2
  step : Step x.1 record y.1
  performs : Performs x.2 record y.2
  after : Represents y.1 y.2

theorem Booted.tracks {start s : Kernel} {history : List Record} (booted : Booted start)
    (run : Run Step start history s) :
    ∃ a, Run PairedStep (start, firstSession) history (s, a) ∧ Represents s a := by
  obtain ⟨⟨_, a⟩, tracked, rfl, represents⟩ :=
    @Run.simulate _ _ _ Step PairedStep (fun s x => x.1 = s ∧ Represents s x.2)
      (by
        rintro s record next ⟨_, a⟩ ⟨rfl, represents⟩ step
        obtain ⟨b, performs, _, after⟩ := represents.step step
        exact ⟨(next, b), ⟨represents, step, performs, after⟩, rfl, after⟩)
      _ _ _ (start, firstSession) run ⟨rfl, booted.represents⟩
  exact ⟨a, tracked, represents⟩

/-- Only the halt of an auxiliary process returns to a frame. -/
theorem Step.event_of_resumes {s next : Kernel} {record : Record} {parentEbp : Word}
    (step : Step s record next) (resumes : record.outcome = .resumes parentEbp) :
    ∃ status, record.HaltsWith status := by
  have source := step.outcome_source
  rw [resumes] at source
  obtain ⟨frame, inner, locals, status, after, isHalt⟩ := source
  exact ⟨status, frame, inner, locals, after, isHalt⟩

/-- What the halt of an auxiliary process does. -/
structure Resumes (s next : Kernel) (a : Session) (record : Record) (status : Word)
    (parent : Int) (parentEbp : Word) : Prop where
  outcome : record.outcome = .resumes parentEbp
  returns : record.Returns parentEbp (returnValue status)
  calling : a.calling parent = some (s.runningPid, parentEbp)
  own : currentPcb parentEbp = pcbAddr parent
  auxiliary : 4 ≤ s.runningPid
  resumed : next.runningPid = parent

theorem Represents.haltsWith {s next : Kernel} {a : Session} (represents : Represents s a)
    {record : Record} (step : Step s record next) {status : Word}
    (halts : record.HaltsWith status) :
    (∃ started, record.outcome = .starts started ∧ s.runningPid ≤ 3) ∨
      ∃ parent parentEbp, Resumes s next a record status parent parentEbp := by
  obtain ⟨frame, inner, locals, after, isHalt⟩ := halts
  have legal := step.legal
  have taken := step.taken
  have runs := represents.runningPid
  rw [isHalt] at taken legal
  rcases represents.halt legal.1 legal.2 locals status after with
    ⟨started, later, t, restarts, stacked, _⟩ |
    ⟨parentEbp, later, top, under, rest, resumes, stacked, isAux, waits, _, popped⟩
  · left
    have own : t = s.runningPid := by simpa [Sessions.running, stacked] using runs
    have terminal := represents.terminal
    have isBase := represents.numbered.base a.current (by simp [stacked])
    have isCurrent : t = a.current := by simpa [stacked] using isBase
    simp only [Kernel.step, restarts, Option.map_some, Option.some.injEq,
      Prod.mk.injEq] at taken
    exact ⟨started, taken.1.symm, by omega⟩
  · right
    have own : top = s.runningPid := by simpa [Sessions.running, stacked] using runs
    simp only [Kernel.step, resumes, Option.map_some, Option.some.injEq,
      Prod.mk.injEq] at taken
    obtain ⟨outcome, rfl⟩ := taken
    obtain ⟨_, ownFrame⟩ := represents.frames.calling under top parentEbp waits
    have running : under = later.runningPid := by
      simpa [Sessions.running, Sessions.pop] using popped.runningPid
    refine ⟨under, parentEbp, outcome.symm, ?_, own ▸ waits, ownFrame, own ▸ isAux,
      running.symm⟩
    refine ⟨frame, inner, locals, status, after, later, isHalt, ?_⟩
    rw [step.before]
    exact resumes

theorem unansweredCall_of_run {start : Kernel} {history : List Record}
    {x : Kernel × Session} (run : Run PairedStep (start, firstSession) history x)
    {p child : Int} {frame : Word} (waits : x.2.calling p = some (child, frame)) :
    UnansweredCall history p child frame := by
  refine @Run.lastWrite _ _ _ (fun x => x.2.calling p = some (child, frame)) _ _ ?_ _ _
    _ run (by simp [firstSession]) waits
  intro before record after tracks held
  obtain ⟨represents, step, performs, represented⟩ := tracks
  rcases performs.calling held with ⟨older, idle⟩ | called
  · left
    refine ⟨older, idle, ?_⟩
    -- whatever is returned to runs, and does not wait any more
    intro parentEbp resumes onStack
    obtain ⟨status, halts⟩ := step.event_of_resumes resumes
    rcases represents.haltsWith step halts with ⟨started, starts, _⟩ |
      ⟨parent, ebp, answer⟩
    · rw [resumes] at starts
      cases starts
    · have same := resumes.symm.trans answer.outcome
      cases same
      have runs := represented.runningPid
      rw [answer.resumed] at runs
      obtain ⟨rest, stacked⟩ := List.head?_eq_some_iff.mp runs
      have waiting : after.2.calling p ≠ none := by
        rw [held]
        exact Option.some_ne_none _
      obtain ⟨terminal, member⟩ := (represented.wellFormed.calling_iff p).mp waiting
      have isParent : p = parent := by
        apply represented.numbered.pcbAddr_inj
          ⟨terminal, List.mem_of_mem_tail member⟩ ⟨_, by rw [stacked]; simp⟩
        exact onStack.symm.trans answer.own
      rw [isParent, represented.wellFormed.calling_top stacked] at waiting
      exact waiting rfl
  · exact .inr called

/-- The halt of a started process answers its own call with the low byte of its status,
which the shell does not take for an exception, and nothing else returns to a call. -/
structure Record.FollowsProtocol (earlier : List Record) (record : Record) : Prop where
  answers : ∀ status, record.HaltsWith status → 4 ≤ record.running →
    ∃ value, record.Answers earlier value ∧ value = status &&& 0xFF ∧
      shellReport value ≠ some "program terminated by exception\n"
  only : ∀ parentEbp, record.outcome = .resumes parentEbp →
    (∃ status, record.HaltsWith status) ∧ 4 ≤ record.running

namespace MachineRecord

/-- An exception of a started process answers its call, and its parent goes on. -/
def FollowsProtocol (earlier : List MachineRecord) : MachineRecord → Prop
  | .kernel record => record.FollowsProtocol (kernelRecords earlier)
  | .exception before _ _ _ after =>
      4 ≤ before.runningPid → ∃ parent parentEbp next, after = .running next ∧
        next.esp = parentEbp ∧ currentPcb parentEbp = pcbAddr parent ∧
        UnansweredCall (kernelRecords earlier) parent before.runningPid parentEbp

/-- A started process does not halt with the status 256 and raises no exception. -/
def Careful : MachineRecord → Prop
  | .kernel record => 4 ≤ record.running → ¬record.HaltsWith 256
  | .exception before _ _ _ _ => before.runningPid ≤ 3

end MachineRecord

theorem Record.Returns.unique {record : Record} {parentEbp otherEbp value other : Word}
    (first : record.Returns parentEbp value) (second : record.Returns otherEbp other) :
    value = other := by
  obtain ⟨frame, inner, locals, status, after, next, isHalt, halts⟩ := first
  obtain ⟨_, _, _, _, _, _, isHaltToo, haltsToo⟩ := second
  rw [isHalt] at isHaltToo
  cases isHaltToo
  rw [halts] at haltsToo
  cases haltsToo
  rfl

/-- A step of the kernel follows the protocol exactly if it is careful. -/
theorem PairedStep.follows_iff {start : Kernel} {history : List Record}
    {x y : Kernel × Session} {record : Record} (tracks : PairedStep x record y)
    (run : Run PairedStep (start, firstSession) history x) :
    record.FollowsProtocol history ↔ (4 ≤ record.running → ¬record.HaltsWith 256) := by
  obtain ⟨represents, step, _, _⟩ := tracks
  have isRunning : record.running = x.1.runningPid := by
    rw [Record.running, step.before]
  constructor
  · rintro ⟨answers, _⟩ aux halts
    obtain ⟨value, ⟨_, _, _, returned, _⟩, isLow, _⟩ := answers 256 halts aux
    rcases represents.haltsWith step halts with ⟨_, _, base⟩ | ⟨_, _, answer⟩
    · omega
    · have same := returned.unique answer.returns
      rw [isLow] at same
      exact (returnValue_eq_iff 256).mp same.symm rfl
  · intro careful
    constructor
    case answers =>
      intro status halts aux
      have ordinary : status ≠ 256 := by
        rintro rfl
        exact careful aux halts
      rcases represents.haltsWith step halts with ⟨_, _, base⟩ | ⟨parent, ebp, answer⟩
      · omega
      · have isLow := (returnValue_eq_iff status).mpr ordinary
        refine ⟨returnValue status, ⟨parent, ebp, answer.outcome, answer.returns,
          answer.own, ?_⟩, isLow, ?_⟩
        · rw [isRunning]
          exact unansweredCall_of_run run answer.calling
        · rw [isLow, ne_eq, shellReport_exception]
          exact lowByte_ne status
    case only =>
      intro parentEbp resumes
      obtain ⟨status, halts⟩ := step.event_of_resumes resumes
      rcases represents.haltsWith step halts with ⟨_, starts, _⟩ | ⟨_, _, answer⟩
      · rw [resumes] at starts
        cases starts
      · exact ⟨⟨status, halts⟩, isRunning ▸ answer.auxiliary⟩

/-- In a run every `execute` call that started a program is answered once, by its child
and with the low byte of its status, exactly as long as no child halts with 256 and none
raises an exception. -/
theorem exit_status {start : Kernel} {m : Machine} {history : List MachineRecord}
    (booted : Booted start) (run : Run MachineStep (.running start) history m) :
    (∀ earlier record later, history = earlier ++ record :: later →
        record.FollowsProtocol earlier) ↔
      ∀ record ∈ history, record.Careful := by
  induction run with
  | nil => simp
  | @snoc history middle _ record earlier taken induction =>
      rw [forall_history_concat, List.forall_mem_append, List.forall_mem_singleton,
        induction]
      apply and_congr_right
      intro _
      cases taken with
      | @kernel s next record step =>
          have ran := MachineStep.run earlier rfl
          obtain ⟨a, tracked, represents⟩ := booted.tracks ran
          obtain ⟨b, performs, _, after⟩ := represents.step step
          have tracks : PairedStep (s, a) record (next, b) :=
            ⟨represents, step, performs, after⟩
          exact tracks.follows_iff tracked
      | exception _ _ handles =>
          obtain ⟨next, isSpinning⟩ := Kernel.excHandler_spins handles
          simp only [MachineRecord.FollowsProtocol, MachineRecord.Careful, isSpinning]
          constructor
          · intro answers
            by_contra aux
            obtain ⟨_, _, _, goesOn, _⟩ := answers (by omega)
            cases goesOn
          · intro base aux
            omega

instance (record : Record) (status : Word) : Decidable (record.HaltsWith status) :=
  match record with
  | ⟨_, .halt frame inner locals other after, _⟩ =>
      decidable_of_iff (other = status)
        ⟨fun same => ⟨frame, inner, locals, after, by rw [same]⟩, by
          rintro ⟨_, _, _, _, isHalt⟩
          cases isHalt
          rfl⟩
  | ⟨_, .execute _ _ _, _⟩ | ⟨_, .pit _ _, _⟩ | ⟨_, .key _ _ _ _ _, _⟩
  | ⟨_, .vidmap _ _ _, _⟩ | ⟨_, .terminalWrite _ _, _⟩ | ⟨_, .readStart _, _⟩
  | ⟨_, .readLine _, _⟩ | ⟨_, .rtcWrite _, _⟩ | ⟨_, .rtc, _⟩ =>
      isFalse fun ⟨_, _, _, _, isHalt⟩ => by cases isHalt

theorem MachineStep.of_run {start s : Kernel} {history : List Record}
    (run : Run Step start history s) :
    Run MachineStep (.running start) (history.map .kernel) (.running s) := by
  induction run with
  | nil => exact .nil
  | snoc _ taken earlier =>
      rw [List.map_append]
      exact earlier.snoc (.kernel taken)

theorem exit_status_sampleTour :
    ∃ history m, Run MachineStep (.running sampleStart) history m ∧ history.length = 6 ∧
      ∀ earlier record later, history = earlier ++ record :: later →
        record.FollowsProtocol earlier := by
  obtain ⟨history, final, run, length, ordinary⟩ :=
    @Kernel.run_of_replay sampleStart sampleTour
      (fun history _ => history.length = 6 ∧ ∀ record ∈ history, ¬record.HaltsWith 256) _
      (by decide +kernel)
  have careful : ∀ record ∈ history.map MachineRecord.kernel, record.Careful := by
    rw [List.forall_mem_map]
    exact fun record member _ => ordinary record member
  have ran := MachineStep.of_run run
  exact ⟨_, _, ran, by rw [List.length_map, length],
    (exit_status sampleStart_booted ran).mpr careful⟩

/-- The first shell runs a second one, which ends with the status 256. -/
def sampleExit : List Event :=
  [.execute (sampleFrame 1) sampleLocals sampleCommand,
    .halt (sampleFrame 4) (sampleFrame 4) sampleLocals 256 fun _ => 0]

/-- The status 256 comes back as 256 and is reported as an exception. -/
theorem exit_status_256 :
    ¬∀ start history m, Booted start → Run MachineStep (.running start) history m →
      ∀ earlier record later, history = earlier ++ record :: later →
        record.FollowsProtocol earlier := by
  intro follows
  obtain ⟨history, final, run, record, member, aux, halts⟩ :=
    @Kernel.run_of_replay sampleStart sampleExit
      (fun history _ => ∃ record ∈ history, 4 ≤ record.running ∧ record.HaltsWith 256) _
      (by decide +kernel)
  obtain ⟨earlier, later, rfl⟩ := List.append_of_mem member
  obtain ⟨middle, toMiddle, onward⟩ := run.split
  obtain ⟨next, step, _⟩ := onward.head
  obtain ⟨a, tracked, represents⟩ := sampleStart_booted.tracks toMiddle
  obtain ⟨b, performs, _, after⟩ := represents.step step
  have tracks : PairedStep (middle, a) record (next, b) := ⟨represents, step, performs, after⟩
  have protocol := follows _ _ _ sampleStart_booted (MachineStep.of_run run)
    (earlier.map .kernel) (.kernel record) (later.map .kernel) (by rw [List.map_append]; rfl)
  have same : kernelRecords (earlier.map .kernel) = earlier := by
    rw [kernelRecords, List.filterMap_map]
    exact List.filterMap_some
  rw [MachineRecord.FollowsProtocol, same] at protocol
  exact (tracks.follows_iff tracked).mp protocol aux halts

end LightweightOs
