import LightweightOs.FileSystem
import LightweightOs.Paging
import LightweightOs.Keyboard
import LightweightOs.Rtc
import LightweightOs.Process

/-!
# The kernel state

One record holds every global the modelled functions use.  `esp` is the kernel
stack pointer of the context that runs: handlers are entered with their frame
in the same 8KB block, `iret` into a fresh program makes it the word the next
trap pushes first, and a return to a saved frame makes it that frame.
-/

namespace LightweightOs

structure Kernel where
  table : ProcessTable
  curProcess : Int
  pcb : PcbMemory
  pdt : Nat → Word
  ptVidmap : Nat → Word
  ptVidmapFrame : BitVec 20
  tssEsp0 : Word
  tssSs0 : BitVec 16
  esp : Word
  tty : Tty
  rtc : Rtc
  fs : FileSystem

/-- The registers of a kernel C function that the code reads directly. -/
structure Frame where
  esp : Word
  ebp : Word

/-- What the stack holds in place of the locals a handler does not initialise. -/
structure Locals where
  fileMetadata : Nat → Byte
  nextPid : Int
  newPage : Word
  vidmem : Word
  vidmemPt : Word

/-- The frame lies on the kernel stack in use. -/
structure Frame.On (frame : Frame) (s : Kernel) : Prop where
  esp : currentPcb frame.esp = currentPcb s.esp
  ebp : currentPcb frame.ebp = currentPcb s.esp

namespace Kernel

/-- The terminal `putc` prints for when it runs on the stack of `current`. -/
def curProcessLocal (s : Kernel) (current : Word) : Option Int :=
  if s.table.baseShellBootedBitmask = 0 then some 1
  else (getBaseProcessPcb s.pcb current).map fun base => (s.pcb base).processId

def terminalWrite (s : Kernel) (current : Word) (input : List Byte) :
    Option Kernel :=
  (s.curProcessLocal current).map fun curProcessLocal =>
    { s with
      tty :=
        { s.tty with
          toConsole :=
            s.tty.toConsole.terminalWrite s.tty.curTerminal curProcessLocal input } }

/-- The clock and the user's video page are as before. -/
structure KeepsDevices (s next : Kernel) : Prop where
  rtc : next.rtc = s.rtc
  ptVidmap : next.ptVidmap = s.ptVidmap

theorem KeepsDevices.trans {s middle next : Kernel} (first : s.KeepsDevices middle)
    (second : middle.KeepsDevices next) : s.KeepsDevices next :=
  ⟨second.rtc.trans first.rtc, second.ptVidmap.trans first.ptVidmap⟩

theorem terminalWrite_keepsDevices {s next : Kernel} {current : Word}
    {input : List Byte} (writes : s.terminalWrite current input = some next) :
    s.KeepsDevices next := by
  obtain ⟨_, _, rfl⟩ := Option.map_eq_some_iff.mp writes
  exact ⟨rfl, rfl⟩

/-- Of the terminal driver only the screen has changed. -/
def KeepsKeyboard (s next : Kernel) : Prop :=
  next.tty = { s.tty with toConsole := next.tty.toConsole }

theorem terminalWrite_keepsKeyboard {s next : Kernel} {current : Word}
    {input : List Byte} (writes : s.terminalWrite current input = some next) :
    s.KeepsKeyboard next := by
  obtain ⟨_, _, rfl⟩ := Option.map_eq_some_iff.mp writes
  rfl

end Kernel

end LightweightOs
