import LightweightOs.Kernel
import Mathlib.Tactic.IntervalCases

/-!
# pit_handler

The timer gives each booted terminal its turn and returns to the frame saved
when the terminal's outermost process last lost the processor.
-/

namespace LightweightOs

/-- The terminal the round robin comes to after `curProcess`. -/
def nextProcess (baseShellBootedBitmask : Byte) (curProcess : Int) : Int :=
  let next := curProcess + 1
  let next := if next = maxThreads then 1 else next
  let next :=
    if next = 2 ∧ baseShellBootedBitmask &&& 0x2#8 = 0 then next + 1 else next
  if next = numTerminals ∧ baseShellBootedBitmask &&& 0x4#8 = 0 then 1 else next

theorem nextProcess_cases (mask : Byte) {curProcess : Int} (low : 1 ≤ curProcess)
    (high : curProcess ≤ 3) :
    nextProcess mask curProcess = 1 ∨
      nextProcess mask curProcess = 2 ∧ mask &&& 0x2#8 ≠ 0 ∨
      nextProcess mask curProcess = 3 ∧ mask &&& 0x4#8 ≠ 0 := by
  unfold nextProcess
  interval_cases curProcess <;> by_cases second : mask &&& 0x2#8 = 0 <;>
    by_cases third : mask &&& 0x4#8 = 0 <;>
      simp_all [maxThreads, numTerminals]

inductive PitResult where
  | continues (next : Kernel)
  | switches (schedEbp : Word) (next : Kernel)

def PitResult.next : PitResult → Kernel
  | .continues next => next
  | .switches _ next => next

namespace Kernel

/-- What `pit_handler` puts in `address_31_12` when it switches to the terminal
`curProcess`. -/
def pitVideoAddress (s : Kernel) : Word :=
  if s.tty.curTerminal = s.curProcess then vidMemPhysical / 4096#32
  else vidMemPhysical + BitVec.ofInt 32 s.curProcess

/-- The part of `pit_handler` that switches to the process `top`. -/
def switchTo (s : Kernel) (frame : Frame) (locals : Locals) (top : Word) :
    Kernel :=
  let pcb := saveSched s.pcb (currentPcb frame.esp) frame.ebp
  let topPid := (pcb top).processId
  { s with
    pcb := pcb
    pdt := assign s.pdt 32
      (pdtEntryPageSetup locals.newPage (BitVec.ofInt 32 (topPid + 1)) 1)
    tssEsp0 := kernelStackTop topPid
    tssSs0 := kernelDs
    ptVidmap := assign s.ptVidmap 0
      (videoPageEntry locals.vidmemPt s.pitVideoAddress)
    esp := (pcb top).schedEbp }

def pitHandler (s : Kernel) (frame : Frame) (locals : Locals) :
    Option PitResult :=
  let savedProcess := s.curProcess
  let s :=
    { s with
      curProcess := nextProcess s.table.baseShellBootedBitmask s.curProcess }
  if savedProcess ≠ s.curProcess then
    (getTopProcessPcb s.pcb (pcbAddr s.curProcess)).map fun top =>
      let next := s.switchTo frame locals top
      .switches next.esp next
  else some (.continues s)

/-- `pit_handler` goes on in a terminal that has its turn again, or switches to
the outermost process of the next one. -/
theorem pitHandler_cases {s : Kernel} {frame : Frame} {locals : Locals}
    {result : PitResult} (ticks : s.pitHandler frame locals = some result) :
    nextProcess s.table.baseShellBootedBitmask s.curProcess = s.curProcess ∧
        result = .continues s ∨
      ∃ t top, nextProcess s.table.baseShellBootedBitmask s.curProcess = t ∧
        s.curProcess ≠ t ∧ getTopProcessPcb s.pcb (pcbAddr t) = some top ∧
        result = .switches (({ s with curProcess := t } : Kernel).switchTo frame locals
            top).esp
          (({ s with curProcess := t } : Kernel).switchTo frame locals top) := by
  simp only [pitHandler] at ticks
  split at ticks
  case isTrue different =>
    obtain ⟨top, found, rfl⟩ := Option.map_eq_some_iff.mp ticks
    exact .inr ⟨_, top, rfl, different, found, rfl⟩
  case isFalse again =>
    cases ticks
    have same : nextProcess s.table.baseShellBootedBitmask s.curProcess =
        s.curProcess := (not_not.mp again).symm
    exact .inl ⟨same, by rw [same]⟩

theorem pitHandler_rtc {s : Kernel} {frame : Frame} {locals : Locals}
    {result : PitResult} (ticks : s.pitHandler frame locals = some result) :
    result.next.rtc = s.rtc := by
  rcases pitHandler_cases ticks with ⟨_, rfl⟩ | ⟨t, top, _, _, _, rfl⟩ <;> rfl

end Kernel

end LightweightOs
