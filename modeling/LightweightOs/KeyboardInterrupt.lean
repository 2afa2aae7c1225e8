import LightweightOs.Execute

/-!
# keyboard_handler

The driver's blocks, then the Alt+Fn block that displays a terminal and boots
its shell on the first visit.
-/

namespace LightweightOs

inductive KeyResult where
  | handled (next : Kernel)
  | boots (started : Started) (next : Kernel)

def KeyResult.next : KeyResult → Kernel
  | .handled next => next
  | .boots _ next => next

namespace Kernel

/-- The state in which an Alt+Fn press calls `execute` to boot a terminal. -/
def prepareBoot (s : Kernel) (frame : Frame) (selected : Int) : Kernel :=
  { s with
    pcb := saveSched s.pcb (currentPcb frame.esp) frame.ebp
    table := { s.table with shellInitBoot := selected }
    curProcess := selected }

def bootTerminal (s : Kernel) (frame inner : Frame) (locals : Locals)
    (selected : Int) (after : Nat → Byte) : Option KeyResult :=
  match (s.prepareBoot frame selected).execute inner locals (shellCommand after) with
  | some (.starts started next) => some (.boots started next)
  | _ => none

/-- What the driver reads of the process it interrupts.  No block before the
Alt+Fn one changes a process control block, so this is computed once. -/
def interrupted (s : Kernel) (current : Word) : Option Interrupted :=
  (s.curProcessLocal current).map fun curProcessLocal =>
    ⟨curProcessLocal, (s.pcb current).processId⟩

def keyboardHandler (s : Kernel) (frame inner : Frame) (locals : Locals)
    (scanCode : Byte) (after : Nat → Byte) : Option KeyResult :=
  match s.interrupted (currentPcb frame.esp) with
  | none => none
  | some who =>
      let s := { s with tty := s.tty.keyBlocks who scanCode }
      match s.tty.selectedTerminal scanCode with
      | none => some (.handled s)
      | some selected =>
          let s := { s with tty := s.tty.switchTerminal selected }
          if s.table.booted selected then some (.handled s)
          else s.bootTerminal frame inner locals selected after

theorem bootTerminal_boots {s : Kernel} (valid : ValidShell s.fs)
    (within : s.table.auxProcesses ≤ 3) (frame inner : Frame) (locals : Locals)
    {selected : Int} (notZero : selected ≠ 0) (after : Nat → Byte) :
    ∃ program, s.bootTerminal frame inner locals selected after =
      some (.boots
        ((s.prepareBoot frame selected).startedProcess
          ({ s.table with shellInitBoot := selected } : ProcessTable).bootBase program)
        ((s.prepareBoot frame selected).install inner locals
          ({ s.table with shellInitBoot := selected } : ProcessTable).bootBase
          (localCommand (shellCommand after)))) := by
  obtain ⟨program, executes⟩ :=
    @execute_shellCommand (s.prepareBoot frame selected) valid inner locals after
  have chosen : (s.prepareBoot frame selected).table.choosePid
      (isShell ((localCommand (shellCommand after)).take
        (nameEnd (localCommand (shellCommand after))))) locals.nextPid =
      ({ s.table with shellInitBoot := selected } : ProcessTable).bootBase := by
    rw [fileName_shellCommand, isShell_shellName]
    simp [Kernel.prepareBoot, ProcessTable.choosePid, notZero]
  have starts := @runProgram_starts _ inner _ _ program _ chosen
    (by simp only [ProcessTable.bootBase]; exact within)
  refine ⟨program, ?_⟩
  simp only [Kernel.bootTerminal, executes, starts]

theorem bootTerminal_keepsDevices {s : Kernel} {frame inner : Frame}
    {locals : Locals} {selected : Int} {after : Nat → Byte} {result : KeyResult}
    (boots : s.bootTerminal frame inner locals selected after = some result) :
    s.KeepsDevices result.next := by
  simp only [bootTerminal] at boots
  split at boots
  case h_1 executes =>
    cases boots
    have kept := execute_keepsDevices executes
    exact ⟨kept.rtc, kept.ptVidmap⟩
  case h_2 => cases boots

theorem keyboardHandler_keepsDevices {s : Kernel} {frame inner : Frame}
    {locals : Locals} {scanCode : Byte} {after : Nat → Byte} {result : KeyResult}
    (handles : s.keyboardHandler frame inner locals scanCode after = some result) :
    s.KeepsDevices result.next := by
  simp only [keyboardHandler] at handles
  split at handles
  · cases handles
  · split at handles
    · cases handles
      exact ⟨rfl, rfl⟩
    · split at handles
      · cases handles
        exact ⟨rfl, rfl⟩
      · have kept := bootTerminal_keepsDevices handles
        exact ⟨kept.rtc, kept.ptVidmap⟩

/-- The driver handles the key; a boot leaves the terminal as the driver does. -/
theorem keyboardHandler_tty {s : Kernel} {frame inner : Frame} {locals : Locals}
    {scanCode : Byte} {after : Nat → Byte} {result : KeyResult}
    (handles : s.keyboardHandler frame inner locals scanCode after = some result) :
    ∃ who, s.interrupted (currentPcb frame.esp) = some who ∧
      result.next.tty = s.tty.keyPress who scanCode := by
  rw [keyboardHandler] at handles
  cases found : s.interrupted (currentPcb frame.esp) with
  | none => simp [found] at handles
  | some who =>
      refine ⟨who, rfl, ?_⟩
      simp only [found] at handles
      rw [Tty.keyPress]
      cases selects : (s.tty.keyBlocks who scanCode).selectedTerminal scanCode with
      | none =>
          simp only [selects] at handles
          cases handles
          rfl
      | some selected =>
          simp only [selects] at handles
          split at handles
          · cases handles
            rfl
          · rw [bootTerminal] at handles
            split at handles
            case h_1 executes =>
              cases handles
              exact (execute_keepsKeyboard executes).2 _ _ rfl
            case h_2 => cases handles

/-- A key writes no block, except that a boot saves the frame of the process it
interrupts and installs the new shell. -/
theorem keyboardHandler_pcb {s : Kernel} {frame inner : Frame} {locals : Locals}
    {scanCode : Byte} {after : Nat → Byte} {result : KeyResult}
    (handles : s.keyboardHandler frame inner locals scanCode after = some result) :
    (∃ next, result = .handled next ∧ next.pcb = s.pcb) ∨
      ∃ started next, result = .boots started next ∧
        next.pcb = installPcb (saveSched s.pcb (currentPcb frame.esp) frame.ebp)
          (currentPcb inner.esp) inner.ebp started.pid started.baseBoot
          (localCommand (shellCommand after)) := by
  simp only [keyboardHandler] at handles
  split at handles
  · cases handles
  · split at handles
    · cases handles
      exact .inl ⟨_, rfl, rfl⟩
    · split at handles
      · cases handles
        exact .inl ⟨_, rfl, rfl⟩
      · simp only [bootTerminal] at handles
        split at handles
        case h_1 started next executes =>
          cases handles
          exact .inr ⟨started, next, rfl, execute_pcb executes⟩
        case h_2 => cases handles

end Kernel

end LightweightOs
