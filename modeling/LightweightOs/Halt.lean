import LightweightOs.Execute

/-!
# halt

An auxiliary process returns to the frame its parent saved in `execute`; a base
shell runs `execute` again on its own kernel stack.
-/

namespace LightweightOs

/-- Every close operation returns 0 and does nothing else, so the loop only
clears the flags. -/
def closeFiles (files : Nat → FileDescriptor) : Nat → FileDescriptor :=
  fun i =>
    if i < 8 ∧ (files i).flags ≠ 0 then { files i with flags := 0 } else files i

/-- The writes of `halt` to the block of the process that ends. -/
def closeProcess (pcb : PcbMemory) (current status : Word) : PcbMemory :=
  assign pcb current
    { pcb current with
      files := closeFiles (pcb current).files
      exitStatus := status }

section CloseProcess

variable (pcb : PcbMemory) (current status address : Word)

@[simp] theorem closeProcess_processId :
    (closeProcess pcb current status address).processId = (pcb address).processId := by
  by_cases same : address = current <;> simp [closeProcess, same]

@[simp] theorem closeProcess_parentPcb :
    (closeProcess pcb current status address).parentPcb = (pcb address).parentPcb := by
  by_cases same : address = current <;> simp [closeProcess, same]

@[simp] theorem closeProcess_childPcb :
    (closeProcess pcb current status address).childPcb = (pcb address).childPcb := by
  by_cases same : address = current <;> simp [closeProcess, same]

@[simp] theorem closeProcess_ebp :
    (closeProcess pcb current status address).ebp = (pcb address).ebp := by
  by_cases same : address = current <;> simp [closeProcess, same]

@[simp] theorem closeProcess_schedEbp :
    (closeProcess pcb current status address).schedEbp = (pcb address).schedEbp := by
  by_cases same : address = current <;> simp [closeProcess, same]

end CloseProcess

/-- `return_value`: the low byte of the status, or 256 for an exception. -/
def returnValue (status : Word) : Word :=
  if status = 256 then 0x100 else status &&& 0xFF

inductive HaltResult where
  | resumes (parentEbp returnValue : Word) (next : Kernel)
  | restarts (started : Started) (next : Kernel)

def HaltResult.next : HaltResult → Kernel
  | .resumes _ _ next => next
  | .restarts _ next => next

namespace Kernel

/-- The branch of `halt` that returns to the parent of `current`. -/
def haltAux (s : Kernel) (current : Word) (locals : Locals) : Kernel :=
  let parent := (s.pcb current).parentPcb
  let parentPid := (s.pcb parent).processId
  let table :=
    { s.table with
      activeProcesses :=
        assign s.table.activeProcesses ((s.pcb current).processId - 1) 0
      auxProcesses := s.table.auxProcesses - 1 }
  let pcb := assign s.pcb parent { s.pcb parent with childPcb := 0 }
  { s with
    table := table
    pdt := assign s.pdt 32
      (pdtEntryPageSetup locals.newPage (BitVec.ofInt 32 (parentPid + 1)) 1)
    tssEsp0 := kernelStackTop parentPid
    tssSs0 := kernelDs
    pcb := pcb
    esp := (pcb (pcb current).parentPcb).ebp }

/-- The state in which `halt` restarts the base shell `pid`. -/
def prepareRestart (s : Kernel) (pid : Int) : Kernel :=
  { s with
    table :=
      { s.table with
        baseShellLiveBitmask :=
          s.table.baseShellLiveBitmask &&& ~~~(terminalBit pid) } }

/-- `halt` up to its jump: into `halt_return`, or into a restarted shell by the
`execute` it calls with frame `inner`. -/
def halt (s : Kernel) (frame inner : Frame) (locals : Locals) (status : Word)
    (after : Nat → Byte) : Option HaltResult :=
  let current := currentPcb frame.esp
  let s := { s with pcb := closeProcess s.pcb current status }
  let pid := (s.pcb current).processId
  if 1 ≤ pid ∧ pid ≤ 3 then
    match (s.prepareRestart pid).execute inner locals (shellCommand after) with
    | some (.starts started next) => some (.restarts started next)
    | _ => none
  else
    let next := s.haltAux current locals
    some (.resumes next.esp (returnValue status) next)

theorem halt_keepsDevices {s : Kernel} {frame inner : Frame} {locals : Locals}
    {status : Word} {after : Nat → Byte} {result : HaltResult}
    (halts : s.halt frame inner locals status after = some result) :
    s.KeepsDevices result.next := by
  simp only [halt] at halts
  split at halts
  · split at halts
    case h_1 executes =>
      cases halts
      have kept := execute_keepsDevices executes
      exact ⟨kept.rtc, kept.ptVidmap⟩
    case h_2 => cases halts
  · cases halts
    exact ⟨rfl, rfl⟩

theorem halt_keepsKeyboard {s : Kernel} {frame inner : Frame} {locals : Locals}
    {status : Word} {after : Nat → Byte} {result : HaltResult}
    (halts : s.halt frame inner locals status after = some result) :
    s.KeepsKeyboard result.next := by
  simp only [halt] at halts
  split at halts
  · split at halts
    case h_1 executes =>
      cases halts
      have kept := (execute_keepsKeyboard executes).1
      exact kept
    case h_2 => cases halts
  · cases halts
    rfl

end Kernel

end LightweightOs
