import LightweightOs.System

/-!
# Starting and ending processes

What each event does to the set of live processes and to the descriptors of
every block.  `halt` clears the flags of the block it runs for, a started
program gets its two standard descriptors, and nothing else in the system
writes a descriptor.
-/

namespace LightweightOs

/-- The command of the program that an event may start. -/
def Event.command : Event → List Byte
  | .execute _ _ commandUser => localCommand commandUser
  | .halt _ _ _ _ after | .key _ _ _ _ after => localCommand (shellCommand after)
  | _ => []

namespace Record

/-- The descriptors of a block after the step. -/
def filesAfter (record : Record) (address : Word) (files : Nat → FileDescriptor) :
    Nat → FileDescriptor :=
  let closed :=
    if record.Halts ∧ address = currentPcb record.before.esp then closeFiles files
    else files
  match record.outcome with
  | .starts started =>
      if address = pcbAddr started.pid then standardFiles closed else closed
  | _ => closed

end Record

theorem saveSched_files (pcb : PcbMemory) (current frameEbp address : Word) :
    (saveSched pcb current frameEbp address).files = (pcb address).files := by
  by_cases same : address = current <;> simp [saveSched, same]

theorem closeProcess_files (pcb : PcbMemory) (current status address : Word) :
    (closeProcess pcb current status address).files =
      if address = current then closeFiles (pcb address).files
      else (pcb address).files := by
  by_cases same : address = current <;> simp [closeProcess, same]

theorem Kernel.haltAux_files (s : Kernel) (current : Word) (locals : Locals)
    (address : Word) :
    ((s.haltAux current locals).pcb address).files = (s.pcb address).files := by
  by_cases parent : address = (s.pcb current).parentPcb <;>
    simp [Kernel.haltAux, parent]

theorem Kernel.execute_fs {s : Kernel} {frame : Frame} {locals : Locals}
    {commandUser : Nat → Byte} {result : ExecuteResult}
    (executes : s.execute frame locals commandUser = some result) :
    result.next.fs = s.fs := by
  rcases Kernel.execute_cases executes with
    rfl | ⟨choice, _, ⟨_, next, writes, rfl⟩ | ⟨program, rfl⟩⟩
  · rfl
  · obtain ⟨_, _, rfl⟩ := Option.map_eq_some_iff.mp writes
    rfl
  · rfl

theorem Kernel.keyboardHandler_fs {s : Kernel} {frame inner : Frame} {locals : Locals}
    {scanCode : Byte} {after : Nat → Byte} {result : KeyResult}
    (handles : s.keyboardHandler frame inner locals scanCode after = some result) :
    result.next.fs = s.fs := by
  simp only [Kernel.keyboardHandler] at handles
  split at handles
  · cases handles
  · split at handles
    · cases handles
      rfl
    · split at handles
      · cases handles
        rfl
      · simp only [Kernel.bootTerminal] at handles
        split at handles
        case h_1 executes =>
          cases handles
          exact Kernel.execute_fs executes
        case h_2 => cases handles

theorem Step.files {s next : Kernel} {record : Record} (step : Step s record next)
    (address : Word) :
    (next.pcb address).files = record.filesAfter address (s.pcb address).files := by
  obtain ⟨before, event, outcome⟩ := record
  obtain ⟨rfl, legal, taken⟩ := step
  cases event with
  | execute frame locals commandUser =>
      obtain ⟨result, executes, isNext⟩ := Option.map_eq_some_iff.mp taken
      have written := Kernel.execute_pcb executes
      cases result with
      | returns value after =>
          simp only [Prod.mk.injEq] at isNext
          obtain ⟨rfl, rfl⟩ := isNext
          simp [Record.filesAfter, Record.Halts, written]
      | starts started after =>
          simp only [Prod.mk.injEq] at isNext
          obtain ⟨rfl, rfl⟩ := isNext
          simp [Record.filesAfter, Record.Halts, written, installPcb_files]
  | halt frame inner locals status after =>
      obtain ⟨result, halts, isNext⟩ := Option.map_eq_some_iff.mp taken
      have block := legal.1.esp
      simp only [Kernel.halt] at halts
      split at halts
      · split at halts
        case h_1 started next' executes =>
          cases halts
          simp only [Prod.mk.injEq] at isNext
          obtain ⟨rfl, rfl⟩ := isNext
          have written := Kernel.execute_pcb executes
          simp only at written
          simp [Record.filesAfter, Record.Halts, written, installPcb_files,
            Kernel.prepareRestart, closeProcess_files, block]
        case h_2 => cases halts
      · cases halts
        simp only [Prod.mk.injEq] at isNext
        obtain ⟨rfl, rfl⟩ := isNext
        simp [Record.filesAfter, Record.Halts, Kernel.haltAux_files, closeProcess_files,
          block]
  | pit frame locals =>
      obtain ⟨result, ticks, isNext⟩ := Option.map_eq_some_iff.mp taken
      rcases Kernel.pitHandler_cases ticks with ⟨_, rfl⟩ | ⟨t, top, _, _, _, rfl⟩
      · simp only [Prod.mk.injEq] at isNext
        obtain ⟨rfl, rfl⟩ := isNext
        simp [Record.filesAfter, Record.Halts]
      · simp only [Prod.mk.injEq] at isNext
        obtain ⟨rfl, rfl⟩ := isNext
        simp [Record.filesAfter, Record.Halts, Kernel.switchTo, saveSched_files]
  | key frame inner locals scanCode after =>
      obtain ⟨result, handles, isNext⟩ := Option.map_eq_some_iff.mp taken
      rcases Kernel.keyboardHandler_pcb handles with ⟨next', rfl, written⟩ |
        ⟨started, next', rfl, written⟩
      · simp only [Prod.mk.injEq] at isNext
        obtain ⟨rfl, rfl⟩ := isNext
        simp [Record.filesAfter, Record.Halts, written]
      · simp only [Prod.mk.injEq] at isNext
        obtain ⟨rfl, rfl⟩ := isNext
        simp [Record.filesAfter, Record.Halts, written, installPcb_files, saveSched_files]
  | vidmap frame locals screenStart =>
      obtain ⟨⟨mapped, value, store⟩, vidmaps, isNext⟩ := Option.map_eq_some_iff.mp taken
      simp only [Prod.mk.injEq] at isNext
      obtain ⟨rfl, rfl⟩ := isNext
      rcases Kernel.vidmap_cases vidmaps with ⟨rfl, _⟩ | ⟨base, _, rfl, _⟩ <;>
        simp [Record.filesAfter, Record.Halts, Kernel.mapVideo]
  | terminalWrite frame input =>
      obtain ⟨after, writes, isNext⟩ := Option.map_eq_some_iff.mp taken
      obtain ⟨_, _, rfl⟩ := Option.map_eq_some_iff.mp writes
      simp only [Prod.mk.injEq] at isNext
      obtain ⟨rfl, rfl⟩ := isNext
      simp [Record.filesAfter, Record.Halts]
  | readStart bytes =>
      simp only [Kernel.step] at taken
      split at taken <;> cases taken <;> simp [Record.filesAfter, Record.Halts]
  | readLine bytes =>
      cases taken
      simp [Record.filesAfter, Record.Halts]
  | rtcWrite frequency =>
      cases taken
      simp [Record.filesAfter, Record.Halts]
  | rtc =>
      obtain ⟨rtc, _, isNext⟩ := Option.map_eq_some_iff.mp taken
      simp only [Prod.mk.injEq] at isNext
      obtain ⟨rfl, rfl⟩ := isNext
      simp [Record.filesAfter, Record.Halts]

theorem Step.fs {s next : Kernel} {record : Record} (step : Step s record next) :
    next.fs = s.fs := by
  obtain ⟨before, event, outcome⟩ := record
  obtain ⟨rfl, _, taken⟩ := step
  cases event with
  | execute frame locals commandUser =>
      obtain ⟨result, executes, isNext⟩ := Option.map_eq_some_iff.mp taken
      have kept := Kernel.execute_fs executes
      cases result <;> cases isNext <;> exact kept
  | halt frame inner locals status after =>
      obtain ⟨result, halts, isNext⟩ := Option.map_eq_some_iff.mp taken
      simp only [Kernel.halt] at halts
      split at halts
      · split at halts
        case h_1 executes =>
          have kept := Kernel.execute_fs executes
          cases halts
          cases isNext
          exact kept
        case h_2 => cases halts
      · cases halts
        cases isNext
        rfl
  | pit frame locals =>
      obtain ⟨result, ticks, isNext⟩ := Option.map_eq_some_iff.mp taken
      rcases Kernel.pitHandler_cases ticks with ⟨_, rfl⟩ | ⟨t, top, _, _, _, rfl⟩ <;>
        simp only [Prod.mk.injEq] at isNext <;> obtain ⟨_, rfl⟩ := isNext <;> rfl
  | key frame inner locals scanCode after =>
      obtain ⟨result, handles, isNext⟩ := Option.map_eq_some_iff.mp taken
      have kept := Kernel.keyboardHandler_fs handles
      cases result <;> cases isNext <;> exact kept
  | vidmap frame locals screenStart =>
      obtain ⟨⟨mapped, value, store⟩, vidmaps, isNext⟩ := Option.map_eq_some_iff.mp taken
      cases isNext
      rcases Kernel.vidmap_cases vidmaps with ⟨rfl, _⟩ | ⟨base, _, rfl, _⟩ <;> rfl
  | terminalWrite frame input =>
      obtain ⟨after, writes, isNext⟩ := Option.map_eq_some_iff.mp taken
      obtain ⟨_, _, rfl⟩ := Option.map_eq_some_iff.mp writes
      cases isNext
      rfl
  | readStart bytes =>
      simp only [Kernel.step] at taken
      split at taken <;> cases taken <;> rfl
  | readLine | rtcWrite =>
      cases taken
      rfl
  | rtc =>
      obtain ⟨rtc, _, isNext⟩ := Option.map_eq_some_iff.mp taken
      cases isNext
      rfl

/-- The arguments a started program finds are copied from its command. -/
theorem Step.args {s next : Kernel} {record : Record} {started : Started}
    (step : Step s record next) (starts : record.Starts started) :
    ∃ old, (next.pcb (pcbAddr started.pid)).args =
      copyArgs record.event.command (clearArgs old) 0
        (skipSpaces record.event.command (nameEnd record.event.command) 128)
        argsBufferSize := by
  obtain ⟨before, event, outcome⟩ := record
  obtain ⟨rfl, legal, taken⟩ := step
  have isStart : outcome = .starts started := starts
  subst isStart
  cases event with
  | execute frame locals commandUser =>
      obtain ⟨result, executes, isNext⟩ := Option.map_eq_some_iff.mp taken
      have written := Kernel.execute_pcb executes
      cases result with
      | returns => simp at isNext
      | starts started' after =>
          simp only [Prod.mk.injEq, Outcome.starts.injEq] at isNext
          obtain ⟨rfl, rfl⟩ := isNext
          exact ⟨_, by rw [written, installPcb_args, if_pos rfl]; rfl⟩
  | halt frame inner locals status after =>
      obtain ⟨result, halts, isNext⟩ := Option.map_eq_some_iff.mp taken
      simp only [Kernel.halt] at halts
      split at halts
      · split at halts
        case h_1 started' next' executes =>
          cases halts
          simp only [Prod.mk.injEq, Outcome.starts.injEq] at isNext
          obtain ⟨rfl, rfl⟩ := isNext
          have written := Kernel.execute_pcb executes
          exact ⟨_, by rw [written, installPcb_args, if_pos rfl]; rfl⟩
        case h_2 => cases halts
      · cases halts
        simp at isNext
  | key frame inner locals scanCode after =>
      obtain ⟨result, handles, isNext⟩ := Option.map_eq_some_iff.mp taken
      rcases Kernel.keyboardHandler_pcb handles with ⟨next', rfl, written⟩ |
        ⟨started', next', rfl, written⟩
      · simp at isNext
      · simp only [Prod.mk.injEq, Outcome.starts.injEq] at isNext
        obtain ⟨rfl, rfl⟩ := isNext
        exact ⟨_, by rw [written, installPcb_args, if_pos rfl]; rfl⟩
  | pit frame locals =>
      obtain ⟨result, ticks, isNext⟩ := Option.map_eq_some_iff.mp taken
      rcases Kernel.pitHandler_cases ticks with ⟨_, rfl⟩ | ⟨t, top, _, _, _, rfl⟩ <;>
        simp at isNext
  | readStart bytes =>
      simp only [Kernel.step] at taken
      split at taken <;> simp at taken
  | readLine | rtcWrite => simp [Kernel.step] at taken
  | vidmap | terminalWrite | rtc =>
      obtain ⟨_, _, isNext⟩ := Option.map_eq_some_iff.mp taken
      simp at isNext

namespace Represents

variable {a : Session} {s next : Kernel} {record : Record} {p : Int}

theorem running_childPcb (represents : Represents s a) (running : a.running = some p) :
    (s.pcb (pcbAddr p)).childPcb = 0 := by
  apply (represents.links.linked a.current).outermost
  rw [List.head?_map]
  rw [Sessions.running] at running
  rw [running]
  rfl

theorem runsPid (represents : Represents s a) :
    a.Live s.runningPid ∧ currentPcb s.esp = pcbAddr s.runningPid := by
  obtain ⟨top, rest, stacked, runs⟩ := represents.stacked
  have isTop : s.runningPid = top := by
    simpa [Sessions.running, stacked] using represents.runningPid.symm
  rw [isTop]
  exact ⟨⟨a.current, by simp [stacked]⟩, runs.onStack⟩

theorem pcbAddr_eq_iff (represents : Represents s a) (range : 1 ≤ p ∧ p ≤ 6) :
    pcbAddr p = currentPcb s.esp ↔ p = s.runningPid := by
  obtain ⟨live, block⟩ := represents.runsPid
  have running := represents.numbered.range live
  rw [block]
  constructor
  · intro same
    by_contra different
    exact pcbAddr_ne (by omega) (by omega) (by omega) (by omega) different same
  · rintro rfl
    rfl

theorem started_range {b : Session} (represents : Represents next b) {started : Started}
    (enters : b.running = some started.pid) : 1 ≤ started.pid ∧ started.pid ≤ 6 := by
  apply represents.numbered.range
  refine ⟨b.current, ?_⟩
  rw [Sessions.running] at enters
  exact List.mem_of_mem_head? enters

end Represents

/-- What a step does to the descriptors of the block of `p`, in or out of use. -/
inductive TableStep (a b : Session) (ends : Prop) (starts : Started → Prop) (p : Int)
    (old new : Nat → FileDescriptor) : Prop where
  | enters (started : Started) (isStart : starts started) (isPid : started.pid = p)
      (fresh : ¬a.Live p) (files : new = standardFiles old)
  | restarts (started : Started) (isStart : starts started) (isPid : started.pid = p)
      (ends : ends) (files : new = standardFiles (closeFiles old))
  | ends (ends : ends) (dead : ¬b.Live p) (files : new = closeFiles old)
  | keeps (stays : ¬ends) (live : b.Live p ↔ a.Live p) (files : new = old)

namespace Represents

variable {a b : Session} {s next : Kernel} {record : Record}

theorem tableStep (represents : Represents s a) (after : Represents next b)
    (lives : Lives a record.Halts record.Starts record.running b)
    (step : Step s record next) {p : Int} (range : 1 ≤ p ∧ p ≤ 6) :
    TableStep a b (record.Halts ∧ record.running = p) record.Starts p
      (s.pcb (pcbAddr p)).files (next.pcb (pcbAddr p)).files := by
  have isBefore : record.before = s := step.before
  have files := step.files (pcbAddr p)
  have here : pcbAddr p = currentPcb s.esp ↔ record.running = p := by
    rw [represents.pcbAddr_eq_iff range, Record.running, isBefore, eq_comm]
  have sameBlock : ∀ {started : Started}, b.running = some started.pid →
      (pcbAddr p = pcbAddr started.pid ↔ started.pid = p) := by
    intro started enters
    have inRange := after.started_range enters
    constructor
    · intro same
      by_contra different
      exact pcbAddr_ne (by omega) (by omega) (by omega) (by omega) (Ne.symm different) same
    · rintro rfl
      rfl
  simp only [Record.filesAfter, isBefore, here] at files
  cases lives with
  | starts started isStart continues fresh enters live =>
      have isOutcome : record.outcome = .starts started := isStart
      simp only [isOutcome, continues, false_and, if_false, sameBlock enters] at files
      by_cases isPid : started.pid = p
      · rw [if_pos isPid] at files
        exact .enters started isStart isPid (isPid ▸ fresh) files
      · rw [if_neg isPid] at files
        refine .keeps (fun both => continues both.1) ?_ files
        rw [live, or_iff_right (Ne.symm isPid)]
  | restarts started isStart halts own enters live =>
      have isOutcome : record.outcome = .starts started := isStart
      simp only [isOutcome, halts, true_and, sameBlock enters] at files
      by_cases isPid : started.pid = p
      · rw [if_pos isPid, if_pos (own ▸ isPid)] at files
        exact .restarts started isStart isPid ⟨halts, own ▸ isPid⟩ files
      · rw [if_neg isPid, if_neg (own ▸ isPid)] at files
        exact .keeps (fun both => isPid (own.trans both.2)) (live p) files
  | ends noStart halts live =>
      have noOutcome : ∀ started, record.outcome ≠ .starts started := noStart
      by_cases isRunning : record.running = p
      · refine .ends ⟨halts, isRunning⟩ ?_ ?_
        · rw [live]
          exact fun both => both.2 isRunning.symm
        · cases isOutcome : record.outcome with
          | starts started => exact (noOutcome started isOutcome).elim
          | continues | resumes | switches => simp [files, isOutcome, halts, isRunning]
      · refine .keeps (fun both => isRunning both.2) ?_ ?_
        · rw [live]
          exact and_iff_left (Ne.symm isRunning)
        · cases isOutcome : record.outcome with
          | starts started => exact (noOutcome started isOutcome).elim
          | continues | resumes | switches => simp [files, isOutcome, isRunning]
  | stays noStart continues live =>
      have noOutcome : ∀ started, record.outcome ≠ .starts started := noStart
      refine .keeps (fun both => continues both.1) (live p) ?_
      cases isOutcome : record.outcome with
      | starts started => exact (noOutcome started isOutcome).elim
      | continues | resumes | switches => simp [files, isOutcome, continues]

end Represents

end LightweightOs
