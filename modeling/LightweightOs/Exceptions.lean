import LightweightOs.System

/-!
# Exceptions

`exc_handler` reports a CPU exception, masks the interrupts and spins; its call
of `halt` stands after the loop and is never reached.  The other vectors it is
entered with are the events of the timer, the keyboard and the clock.
-/

namespace LightweightOs

open Transition

/-- `exceptions` -/
def exceptionTypes : List String :=
  ["Division Error", "Debug", "Non-maskable Interrupt", "Breakpoint", "Overflow",
    "Bound Range Exceeded", "Invalid Opcode", "Device Not Avalable", "Double Fault",
    "Coprocessor Segment Overrun", "Invalid TSS", "Segment Not Present",
    "Stack-Segment Fault", "General Protection Fault", "Page Fault", "Test Assertion",
    "x87 Floating-Point Exception", "Alignment Check", "Machine Check",
    "SIMD Floating-Point Exception"]

/-- What `exc_handler` prints; `cr2` is the address of a page fault. -/
def exceptionReport (vector : Nat) (cr2 : Word) : List Byte :=
  ascii ("Exception " ++ toString vector ++ "\n") ++
    ascii ("Type: " ++ exceptionTypes.getD vector "" ++ "\n") ++
    if vector = 0x0E then ascii ("Address: " ++ toString cr2.toInt ++ "\n") else []

/-- The processor executes, or it spins with the interrupts masked. -/
inductive Machine where
  | running (s : Kernel)
  | spinning (s : Kernel)

namespace Kernel

/-- `printf` of a text, on the kernel stack of `current`. -/
def printf (s : Kernel) (current : Word) (text : List Byte) : Option Kernel :=
  (s.curProcessLocal current).map fun curProcessLocal =>
    { s with
      tty :=
        { s.tty with
          toConsole :=
            text.foldl
              (fun con c => con.putc s.tty.curTerminal curProcessLocal c false)
              s.tty.toConsole } }

/-- `exc_handler` for the vectors `0x00` to `0x13`. -/
def excHandler (s : Kernel) (frame : Frame) (vector : Nat) (cr2 : Word) :
    Option Machine :=
  (s.printf (currentPcb frame.esp) (exceptionReport vector cr2)).map .spinning

end Kernel

inductive MachineRecord where
  | kernel (record : Record)
  | exception (before : Kernel) (frame : Frame) (vector : Nat) (cr2 : Word)
      (after : Machine)

/-- A step of the kernel, or an exception of the process that runs. -/
inductive MachineStep : Machine → MachineRecord → Machine → Prop where
  | kernel {s next : Kernel} {record : Record} (step : Step s record next) :
      MachineStep (.running s) (.kernel record) (.running next)
  | exception {s : Kernel} {after : Machine} {frame : Frame} {vector : Nat} {cr2 : Word}
      (on : frame.On s) (isException : vector ≤ 0x13)
      (handles : s.excHandler frame vector cr2 = some after) :
      MachineStep (.running s) (.exception s frame vector cr2 after) after

/-- The steps of the kernel in a history. -/
def kernelRecords (history : List MachineRecord) : List Record :=
  history.filterMap fun
    | .kernel record => some record
    | .exception _ _ _ _ _ => none

theorem kernelRecords_concat (history : List MachineRecord) (record : Record) :
    kernelRecords (history ++ [.kernel record]) = kernelRecords history ++ [record] := by
  rw [kernelRecords, List.filterMap_append]
  rfl

theorem Kernel.excHandler_spins {s : Kernel} {frame : Frame} {vector : Nat} {cr2 : Word}
    {after : Machine} (handles : s.excHandler frame vector cr2 = some after) :
    ∃ next, after = .spinning next := by
  obtain ⟨next, _, isNext⟩ := Option.map_eq_some_iff.mp handles
  exact ⟨next, isNext.symm⟩

/-- As long as the processor executes, the steps were those of the kernel. -/
theorem MachineStep.run {start s : Kernel} {m : Machine} {history : List MachineRecord}
    (run : Run MachineStep (.running start) history m) (executes : m = .running s) :
    Run Step start (kernelRecords history) s := by
  induction run generalizing s with
  | nil =>
      cases executes
      exact .nil
  | snoc _ taken earlier =>
      cases taken with
      | kernel step =>
          cases executes
          rw [kernelRecords_concat]
          exact (earlier rfl).snoc step
      | exception _ _ handles =>
          obtain ⟨next, isSpinning⟩ := Kernel.excHandler_spins handles
          rw [isSpinning] at executes
          cases executes

end LightweightOs
