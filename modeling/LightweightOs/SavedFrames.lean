import LightweightOs.System

/-!
# Saved frames

A block has two fields for saved frames.  The scheduler resumes a process from
the frame of its own last suspension, and the halt of a child returns to the
frame of the call that started it, although the boot of a terminal also writes
the second field of whichever process it interrupts.
-/

namespace LightweightOs

open Transition

/-- The frame a process lost the processor with was saved by the given history,
and the process has not run since. -/
def LastSuspension (history : List Record) (p : Int) (frameEbp : Word) : Prop :=
  LastWrite (fun record => record.running = p ∧ record.Suspends frameEbp)
    (fun record => record.running ≠ p) history

/-- The call that started `child` was made by the given history, and its caller
has not run since. -/
def PendingCall (history : List Record) (p child : Int) (frameEbp : Word) : Prop :=
  LastWrite (fun record => record.running = p ∧ record.Calls child frameEbp)
    (fun record => record.running ≠ p) history

/-- What the scheduler loads when it switches to a terminal. -/
structure LoadsSuspended (history : List Record) (s next : Kernel)
    (schedEbp : Word) (top : Int) : Prop where
  booted : s.table.booted next.curProcess
  found : getTopProcessPcb s.pcb (pcbAddr next.curProcess) = some (pcbAddr top)
  loaded : (s.pcb (pcbAddr top)).schedEbp = schedEbp ∧ next.esp = schedEbp
  resumed : next.runningPid = top
  nonzero : schedEbp ≠ 0
  own : currentPcb schedEbp = pcbAddr top
  waiting : s.runningPid ≠ top
  saved : LastSuspension history top schedEbp

/-- What the halt of an auxiliary process loads from its parent's block. -/
structure LoadsPending (history : List Record) (s next : Kernel)
    (parentEbp : Word) (parent : Int) : Prop where
  link : (s.pcb (pcbAddr s.runningPid)).parentPcb = pcbAddr parent
  loaded : (s.pcb (pcbAddr parent)).ebp = parentEbp ∧ next.esp = parentEbp
  resumed : next.runningPid = parent
  own : currentPcb parentEbp = pcbAddr parent
  waiting : s.runningPid ≠ parent
  pending : PendingCall history parent s.runningPid parentEbp

structure SavedFramesCorrect (history : List Record) (s : Kernel) : Prop where
  pit : ∀ record next schedEbp, Step s record next →
    record.outcome = .switches schedEbp →
      ∃ top, LoadsSuspended history s next schedEbp top
  halt : ∀ record next frame inner locals status after, Step s record next →
    record.event = .halt frame inner locals status after → 4 ≤ s.runningPid →
      ∃ parentEbp parent, record.outcome = .resumes parentEbp ∧
        LoadsPending history s next parentEbp parent

/-- Only the timer interrupt switches, and only `halt` returns to a frame. -/
theorem Step.outcome_source {s next : Kernel} {record : Record} (step : Step s record next) :
    match record.outcome with
    | .switches _ => ∃ frame locals, record.event = .pit frame locals
    | .resumes _ => ∃ frame inner locals status after,
        record.event = .halt frame inner locals status after
    | .continues | .starts _ => True := by
  obtain ⟨before, event, outcome⟩ := record
  obtain ⟨_, _, taken⟩ := step
  dsimp only at taken ⊢
  cases event with
  | execute frame locals commandUser =>
      obtain ⟨result, _, isNext⟩ := Option.map_eq_some_iff.mp taken
      cases result <;> cases isNext <;> trivial
  | halt frame inner locals status after =>
      obtain ⟨result, _, isNext⟩ := Option.map_eq_some_iff.mp taken
      cases result with
      | resumes =>
          cases isNext
          exact ⟨frame, inner, locals, status, after, rfl⟩
      | restarts =>
          cases isNext
          trivial
  | pit frame locals =>
      obtain ⟨result, _, isNext⟩ := Option.map_eq_some_iff.mp taken
      cases result with
      | continues =>
          cases isNext
          trivial
      | switches =>
          cases isNext
          exact ⟨frame, locals, rfl⟩
  | key frame inner locals scanCode after =>
      obtain ⟨result, _, isNext⟩ := Option.map_eq_some_iff.mp taken
      cases result <;> cases isNext <;> trivial
  | vidmap frame locals screenStart =>
      obtain ⟨result, _, isNext⟩ := Option.map_eq_some_iff.mp taken
      cases isNext
      trivial
  | terminalWrite frame input =>
      obtain ⟨result, _, isNext⟩ := Option.map_eq_some_iff.mp taken
      cases isNext
      trivial
  | readStart bytes =>
      simp only [Kernel.step] at taken
      split at taken <;> cases taken <;> trivial
  | readLine bytes =>
      cases taken
      trivial
  | rtcWrite frequency =>
      cases taken
      trivial
  | rtc =>
      obtain ⟨result, _, isNext⟩ := Option.map_eq_some_iff.mp taken
      cases isNext
      trivial

theorem Step.event_of_switches {s next : Kernel} {record : Record} {schedEbp : Word}
    (step : Step s record next) (switches : record.outcome = .switches schedEbp) :
    ∃ frame locals, record.event = .pit frame locals := by
  have source := step.outcome_source
  rw [switches] at source
  exact source

section History

variable {history : List Record} {a : Session} {p : Int}

/-- A suspended process has been suspended by the step or does not run in it. -/
theorem Performs.suspended {b : Session} {record : Record} {frame : Word}
    (performs : Performs a record b) (saved : b.suspended p = some frame) :
    a.suspended p = some frame ∧ record.running ≠ p ∨
      record.running = p ∧ record.Suspends frame := by
  obtain ⟨action, acts, matched⟩ := performs.action
  rcases acts.suspended performs.wellFormed saved with ⟨older, idle⟩ | ⟨ran, saves⟩
  · left
    refine ⟨older, ?_⟩
    intro same
    exact idle (same ▸ performs.running)
  · right
    refine ⟨Option.some.inj (performs.running.symm.trans ran), ?_⟩
    cases action with
    | boot terminal base frame => cases saves; exact matched
    | switch terminal frame => cases saves; exact matched
    | idle => cases saves
    | start => cases saves
    | finish => cases saves

/-- A process that waits for a child has called it in the step or does not run in it. -/
theorem Performs.calling {b : Session} {record : Record} {child : Int} {frame : Word}
    (performs : Performs a record b) (waits : b.calling p = some (child, frame)) :
    a.calling p = some (child, frame) ∧ record.running ≠ p ∨
      record.running = p ∧ record.Calls child frame := by
  obtain ⟨action, acts, matched⟩ := performs.action
  rcases acts.calling performs.wellFormed waits with ⟨older, idle⟩ | ⟨ran, calls⟩
  · left
    refine ⟨older, ?_⟩
    intro same
    exact idle (same ▸ performs.running)
  · right
    refine ⟨Option.some.inj (performs.running.symm.trans ran), ?_⟩
    cases action with
    | start => cases calls; exact matched
    | idle => cases calls
    | finish => cases calls
    | boot => cases calls
    | switch => cases calls

/-- A suspended process was suspended by the history, with the frame it still
has. -/
theorem lastSuspension_of_run {frame : Word}
    (run : Run Performs firstSession history a)
    (saved : a.suspended p = some frame) : LastSuspension history p frame := by
  apply @Run.lastWrite _ _ _ (fun a => a.suspended p = some frame) _ _ _ _ _ _ run
    (by simp [firstSession]) saved
  exact fun before record after performs held => performs.suspended held

theorem pendingCall_of_run {child : Int} {frame : Word}
    (run : Run Performs firstSession history a)
    (waits : a.calling p = some (child, frame)) :
    PendingCall history p child frame := by
  apply @Run.lastWrite _ _ _ (fun a => a.calling p = some (child, frame)) _ _ _ _ _ _ run
    (by simp [firstSession]) waits
  exact fun before record after performs held => performs.calling held

end History

section Loads

variable {history : List Record} {s next : Kernel} {a : Session}

theorem Represents.loadsSuspended (represents : Represents s a)
    (performed : Run Performs firstSession history a) {record : Record}
    {schedEbp : Word} (step : Step s record next)
    (switches : record.outcome = .switches schedEbp) :
    ∃ top, LoadsSuspended history s next schedEbp top := by
  obtain ⟨frame, locals, isPit⟩ := step.event_of_switches switches
  have legal := step.legal
  have taken := step.taken
  rw [isPit, switches] at taken
  rw [isPit] at legal
  rcases represents.pit legal locals with stays |
    ⟨loaded, after, top, rest, t, resumed, others, changes, stacked, waiting,
      different, saved, table, current, changed⟩
  · simp [Kernel.step, stays] at taken
  · simp only [Kernel.step, changes, Option.map_some, Option.some.injEq,
      Prod.mk.injEq, Outcome.switches.injEq] at taken
    obtain ⟨rfl, rfl⟩ := taken
    obtain ⟨stored, own⟩ := represents.frames.suspended resumed loaded saved
    have terminal := represents.numbered.terminal t (by simp [waiting])
    have resumedLive : a.Live resumed := ⟨t, by simp [waiting]⟩
    have range := represents.numbered.range resumedLive
    have base : t ∈ a.stack t :=
      List.mem_of_getLast? (represents.numbered.base t (by simp [waiting]))
    have running : resumed = after.runningPid := by
      simpa [Sessions.running, Sessions.change, waiting] using changed.runningPid
    have esp : after.esp = loaded := by
      simp only [Kernel.pitHandler] at changes
      split at changes
      · obtain ⟨block, _, isSwitch⟩ := Option.map_eq_some_iff.mp changes
        simp only [PitResult.switches.injEq] at isSwitch
        rw [← isSwitch.2, isSwitch.1]
      · simp at changes
    refine ⟨resumed, ?_⟩
    constructor
    case booted =>
      rw [current]
      exact (represents.accounts.booted t terminal.1 terminal.2).mpr (by simp [waiting])
    case found =>
      rw [current]
      exact represents.getTopProcessPcb base waiting
    case loaded => exact ⟨stored, esp⟩
    case resumed => exact running.symm
    case nonzero => exact ne_zero_of_currentPcb (by omega) range.2 own
    case own => exact own
    case waiting =>
      intro same
      have runs := represents.runningPid
      rw [same] at runs
      exact different (represents.wellFormed.disjoint resumed t a.current
        (by simp [waiting]) (List.mem_of_mem_head? runs))
    case saved => exact lastSuspension_of_run performed saved

theorem Represents.loadsPending (represents : Represents s a)
    (performed : Run Performs firstSession history a) {record : Record}
    {frame inner : Frame} {locals : Locals} {status : Word} {memory : Nat → Byte}
    (step : Step s record next)
    (isHalt : record.event = .halt frame inner locals status memory)
    (aux : 4 ≤ s.runningPid) :
    ∃ parentEbp parent, record.outcome = .resumes parentEbp ∧
      LoadsPending history s next parentEbp parent := by
  have legal := step.legal
  have taken := step.taken
  have runs := represents.runningPid
  rw [isHalt] at taken legal
  rcases represents.halt legal.1 legal.2 locals status memory with
    ⟨started, after, t, halts, stacked, _⟩ |
    ⟨parentEbp, after, top, under, rest, halts, stacked, _, waits, _, popped⟩
  · have own : t = s.runningPid := by simpa [Sessions.running, stacked] using runs
    have terminal := represents.terminal
    have isBase := represents.numbered.base a.current (by simp [stacked])
    have isCurrent : t = a.current := by simpa [stacked] using isBase
    omega
  · simp only [Kernel.step, halts, Option.map_some, Option.some.injEq,
      Prod.mk.injEq] at taken
    obtain ⟨resumes, rfl⟩ := taken
    have own : top = s.runningPid := by simpa [Sessions.running, stacked] using runs
    obtain ⟨stored, ownFrame⟩ := represents.frames.calling under top parentEbp waits
    have linked := represents.links.linked a.current
    rw [stacked, List.map_cons, List.map_cons] at linked
    have running : under = after.runningPid := by
      simpa [Sessions.running, Sessions.pop] using popped.runningPid
    have esp : after.esp = parentEbp := by
      simp only [Kernel.halt] at halts
      split at halts
      · split at halts <;> simp at halts
      · simp only [Option.some.injEq, HaltResult.resumes.injEq] at halts
        rw [← halts.2.2, halts.1]
    refine ⟨parentEbp, under, resumes.symm, ?_⟩
    constructor
    case link =>
      rw [← own]
      exact linked.up_top
    case loaded => exact ⟨stored, esp⟩
    case resumed => exact running.symm
    case own => exact ownFrame
    case waiting =>
      intro same
      have once := represents.wellFormed.nodup a.current
      rw [stacked] at once
      exact (List.nodup_cons.mp once).1 (by simp [own, same])
    case pending =>
      rw [← own]
      exact pendingCall_of_run performed waits

end Loads

theorem saved_frames {start s : Kernel} {history : List Record}
    (booted : Booted start) (run : Run Step start history s) :
    SavedFramesCorrect history s := by
  obtain ⟨a, performed, represents⟩ := booted.run run
  constructor
  · intro record next schedEbp step switches
    exact represents.loadsSuspended performed step switches
  · intro record next frame inner locals status after step isHalt aux
    exact represents.loadsPending performed step isHalt aux

theorem saved_frames_sampleTour :
    ∃ history final, Run Step sampleStart history final ∧ history.length = 6 ∧
      SavedFramesCorrect history final := by
  obtain ⟨history, final, run, length⟩ := sampleTour_run
  exact ⟨history, final, run, length, saved_frames sampleStart_booted run⟩

end LightweightOs
