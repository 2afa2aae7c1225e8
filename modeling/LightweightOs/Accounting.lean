import LightweightOs.System

/-!
# Process accounting

In every state of a run from the first shell the counter, the slots, the two
bitmasks and the one-shot boot flag agree, and the identifiers `execute` gives
out are in range and unused.
-/

namespace LightweightOs

open Transition

/-- What `execute` may assign, by the event that called it: a user's call an
unused auxiliary identifier, a halt the identifier of the base shell that
halts, and an Alt+Fn press the unused identifier of a base shell. -/
def AssignsPid (s : Kernel) (started : Started) : Event → Prop
  | .execute _ _ _ =>
      4 ≤ started.pid ∧ started.pid ≤ 6 ∧ ¬s.table.live started.pid ∧
        started.baseBoot = false
  | .halt _ _ _ _ _ =>
      1 ≤ started.pid ∧ started.pid ≤ 3 ∧ started.pid = s.runningPid ∧
        started.baseBoot = true
  | .key _ _ _ _ _ =>
      1 ≤ started.pid ∧ started.pid ≤ 3 ∧ ¬s.table.live started.pid ∧
        started.baseBoot = true
  | _ => False

/-- An Alt+Fn press that selects terminal `t`. -/
structure Selects (s : Kernel) (scanCode : Byte) (t : Int) : Prop where
  alt : s.tty.altFlag = true
  key : scanCode = ScanCode.f1 ∧ t = 1 ∨ scanCode = ScanCode.f2 ∧ t = 2 ∨
    scanCode = ScanCode.f3 ∧ t = 3

structure Accounted (s : Kernel) : Prop where
  counted : s.table.auxProcesses = ProcessTable.auxSlots s.table.activeProcesses
  limit : s.table.auxProcesses ≤ 3
  liveMask : s.table.baseShellLiveBitmask = s.table.baseShellBootedBitmask
  initBoot : s.table.shellInitBoot = 0
  assigns : ∀ record next started, Step s record next →
    record.outcome = .starts started → AssignsPid s started record.event
  userExecute : ∀ isShell nextPid,
    (s.table.choosePid isShell nextPid).baseBoot = false
  restarts : ∀ frame inner locals status after, frame.On s → inner.On s →
    1 ≤ s.runningPid → s.runningPid ≤ 3 → ∃ started next,
      Step s ⟨s, .halt frame inner locals status after, .starts started⟩ next ∧
        started.pid = s.runningPid
  boots : ∀ frame inner locals scanCode after t, frame.On s → inner.On s →
    Selects s scanCode t → ¬s.table.booted t → ∃ started next,
      Step s ⟨s, .key frame inner locals scanCode after, .starts started⟩ next ∧
        started.pid = t ∧ next.table.booted t

namespace Represents

variable {a : Session} {s : Kernel}

theorem assignsPid (represents : Represents s a) {record : Record} {next : Kernel}
    {started : Started} (step : Step s record next)
    (starts : record.outcome = .starts started) :
    AssignsPid s started record.event := by
  obtain ⟨before, event, outcome⟩ := record
  obtain ⟨rfl, legal, taken⟩ := step
  have running := represents.runningPid
  cases event with
  | execute frame locals commandUser =>
      rcases represents.execute legal.1 locals commandUser with
        ⟨value, after, executes, _⟩ |
        ⟨process, after, top, rest, executes, stacked, fresh, low, high, base, _⟩
      · simp_all [Kernel.step]
      · have same : process = started := by simp_all [Kernel.step]
        subst same
        refine ⟨low, high, ?_, base⟩
        exact fun live => fresh ((represents.accounts.slots _ (by omega) high).mp live)
  | halt frame inner locals status memory =>
      rcases represents.halt legal.1 legal.2 locals status memory with
        ⟨process, after, t, halts, stacked, pid, base, _⟩ |
        ⟨parentEbp, after, top, under, rest, halts, _⟩
      · have same : process = started := by simp_all [Kernel.step]
        subst same
        have terminal := represents.terminal
        have own : t = before.runningPid := by
          simpa [Sessions.running, stacked] using running
        have isBase := represents.numbered.base a.current (by simp [stacked])
        have isCurrent : t = a.current := by simpa [stacked] using isBase
        refine ⟨?_, ?_, pid.trans own, base⟩ <;> omega
      · simp_all [Kernel.step]
  | key frame inner locals scanCode memory =>
      rcases represents.key legal.1 legal.2 locals scanCode memory with
        ⟨tty, handled, _⟩ |
        ⟨process, after, top, rest, t, boots, stacked, low, high, unused, _, pid, base,
          _⟩
      · simp_all [Kernel.step]
      · have same : process = started := by simp_all [Kernel.step]
        subst same
        rw [AssignsPid, pid]
        refine ⟨low, high, ?_, base⟩
        intro live
        have isLive := (represents.accounts.slots t low (by omega)).mp live
        exact (represents.numbered.live_base low high).mp isLive unused
  | pit frame locals =>
      rcases represents.pit legal locals with stays |
        ⟨schedEbp, after, top, rest, t, resumed, others, switches, _⟩
      · simp_all [Kernel.step]
      · simp_all [Kernel.step]
  | vidmap frame locals screenStart =>
      obtain ⟨mapped, _, isNext⟩ := Option.map_eq_some_iff.mp taken
      simp_all
  | terminalWrite frame input =>
      obtain ⟨written, _, isNext⟩ := Option.map_eq_some_iff.mp taken
      simp_all
  | readStart bytes =>
      simp only [Kernel.step] at taken
      split at taken <;> simp_all
  | readLine bytes => simp_all [Kernel.step]
  | rtcWrite frequency => simp_all [Kernel.step]
  | rtc =>
      obtain ⟨ticked, _, isNext⟩ := Option.map_eq_some_iff.mp taken
      simp_all

theorem restarts (represents : Represents s a) {frame inner : Frame}
    (on : frame.On s) (innerOn : inner.On s) (locals : Locals) (status : Word)
    (after : Nat → Byte) (low : 1 ≤ s.runningPid) (high : s.runningPid ≤ 3) :
    ∃ started next,
      Step s ⟨s, .halt frame inner locals status after, .starts started⟩ next ∧
        started.pid = s.runningPid := by
  have running := represents.runningPid
  rcases represents.halt on innerOn locals status after with
    ⟨started, next, t, halts, stacked, pid, _⟩ |
    ⟨parentEbp, next, top, under, rest, halts, stacked, aux, _⟩
  · have own : t = s.runningPid := by
      simpa [Sessions.running, stacked] using running
    refine ⟨started, next, ⟨rfl, ⟨on, innerOn⟩, ?_⟩, pid.trans own⟩
    simp only [Kernel.step, halts, Option.map_some]
  · have own : top = s.runningPid := by
      simpa [Sessions.running, stacked] using running
    omega

theorem boots (represents : Represents s a) {frame inner : Frame}
    (on : frame.On s) (innerOn : inner.On s) (locals : Locals) {scanCode : Byte}
    {t : Int} (after : Nat → Byte) (selects : Selects s scanCode t)
    (unbooted : ¬s.table.booted t) :
    ∃ started next,
      Step s ⟨s, .key frame inner locals scanCode after, .starts started⟩ next ∧
        started.pid = t ∧ next.table.booted t := by
  have selected : (s.tty.modifierKeys scanCode).selectedTerminal scanCode = some t := by
    have held := selects.alt
    rcases selects.key with ⟨rfl, rfl⟩ | ⟨rfl, rfl⟩ | ⟨rfl, rfl⟩ <;>
      simp [Tty.selectedTerminal, Tty.modifierKeys, ScanCode.alt, ScanCode.altRel,
        ScanCode.f1, ScanCode.f2, ScanCode.f3, fOffset, held]
  rcases represents.key on innerOn locals scanCode after with
    ⟨tty, handled, displayed, _⟩ |
    ⟨started, next, top, rest, u, boots, stacked, low, high, unused, chosen, pid, _, _,
      entered⟩
  · exact (unbooted (displayed t selected)).elim
  · have same : u = t := Option.some.inj (chosen.symm.trans selected)
    subst same
    refine ⟨started, next, ⟨rfl, ⟨on, innerOn⟩, ?_⟩, pid, ?_⟩
    · simp only [Kernel.step, boots, Option.map_some]
    · apply (entered.accounts.booted u low high).mpr
      simp

theorem accounted (represents : Represents s a) : Accounted s where
  counted := represents.accounts.counted
  limit := by
    have counted := represents.accounts.counted
    have bound := @ProcessTable.auxSlots_le s.table.activeProcesses
    omega
  liveMask := represents.accounts.liveMask
  initBoot := represents.accounts.initBoot
  assigns := fun _ _ _ step starts => represents.assignsPid step starts
  userExecute := by
    intro isShell nextPid
    rw [represents.accounts.choosePid]
    unfold ProcessTable.startAux
    split <;> rfl
  restarts := fun _ _ locals status after on innerOn low high =>
    represents.restarts on innerOn locals status after low high
  boots := fun _ _ locals _ after _ on innerOn selects unbooted =>
    represents.boots on innerOn locals after selects unbooted

end Represents

theorem process_accounting {start s : Kernel} {history : List Record}
    (booted : Booted start) (run : Run Step start history s) : Accounted s := by
  obtain ⟨_, _, represents⟩ := booted.run run
  exact represents.accounted

theorem process_accounting_sampleTour :
    ∃ history final, Run Step sampleStart history final ∧ history.length = 6 ∧
      Accounted final := by
  obtain ⟨history, final, run, length⟩ := sampleTour_run
  exact ⟨history, final, run, length, process_accounting sampleStart_booted run⟩

end LightweightOs
