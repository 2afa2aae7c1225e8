import LightweightOs.Words
import LightweightOs.Library.DownStack

/-!
# The system call linkage

The code between `int 0x80` and the C functions of the system calls, with the
registers and the kernel stack it works on.  The assembly labels are functions of
the processor state; a C function that was entered is described by what it leaves
in the registers and in memory, since it keeps `ebp` at its frame.
-/

namespace LightweightOs.Linkage

open DownStack

inductive Register where
  | eax | ebx | ecx | edx | esi | edi | ebp | esp
  deriving DecidableEq

/-- What `int 0x80` interrupts and `iret` goes back to. -/
structure Context where
  registers : Register → Word
  eflags : Word
  eip : Word
  cs : Word
  ss : Word

/-- The processor in kernel mode. -/
structure Cpu where
  registers : Register → Word
  eflags : Word
  ss : Word
  memory : Word → Byte

/-- The stack of `tss` for a switch to kernel mode. -/
structure Tss where
  esp0 : Word
  ss0 : Word

/-- Where the linker put the instruction after the call in `system_call_linkage`; the
kernel is linked to `0x400000`, so this is not the zero that a handler finds in the place of
its return address. -/
structure Layout where
  afterCall : Word
  notNull : afterCall ≠ 0

inductive Instruction where
  | pushfl
  | popfl
  | pushl (source : Register)
  | pushlValue (value : Word)
  | popl (dest : Register)
  | movl (source dest : Register)
  | movlValue (value : Word) (dest : Register)
  /-- `movl offset(%esp), dest` -/
  | movlStack (offset : Word) (dest : Register)
  | addl (value : Word) (dest : Register)
  | subl (value : Word) (dest : Register)
  | cmpl (value : Word) (operand : Register)

namespace Cpu

def get (cpu : Cpu) (register : Register) : Word := cpu.registers register

def set (cpu : Cpu) (register : Register) (value : Word) : Cpu :=
  { cpu with registers := assign cpu.registers register value }

def esp (cpu : Cpu) : Word := cpu.registers .esp

def push (cpu : Cpu) (value : Word) : Cpu :=
  { cpu.set .esp (cpu.esp - 4) with memory := write cpu.memory (cpu.esp - 4) value }

/-- The word at the top of the stack, and the processor without it. -/
def pop (cpu : Cpu) : Word × Cpu := (read cpu.memory cpu.esp, cpu.set .esp (cpu.esp + 4))

/-- One instruction; `flags` are the flags that arithmetic leaves. -/
def step (flags : Cpu → Word) (cpu : Cpu) : Instruction → Cpu
  | .pushfl => cpu.push cpu.eflags
  | .popfl => { cpu.pop.2 with eflags := cpu.pop.1 }
  | .pushl source => cpu.push (cpu.get source)
  | .pushlValue value => cpu.push value
  | .popl dest => cpu.pop.2.set dest cpu.pop.1
  | .movl source dest => cpu.set dest (cpu.get source)
  | .movlValue value dest => cpu.set dest value
  | .movlStack offset dest => cpu.set dest (read cpu.memory (cpu.esp + offset))
  | .addl value dest =>
      { cpu.set dest (cpu.get dest + value) with eflags := flags cpu }
  | .subl value dest =>
      { cpu.set dest (cpu.get dest - value) with eflags := flags cpu }
  | .cmpl _ _ => { cpu with eflags := flags cpu }

def exec (flags : Cpu → Word) (cpu : Cpu) (code : List Instruction) : Cpu :=
  code.foldl (step flags) cpu

/-- `iret`; a return to user mode takes the stack from the frame too. -/
def iret (cpu : Cpu) : Context :=
  let (eip, cpu) := cpu.pop
  let (cs, cpu) := cpu.pop
  let (eflags, cpu) := cpu.pop
  if cs &&& 3 = 0 then ⟨cpu.registers, eflags, eip, cs, cpu.ss⟩
  else
    let (esp, cpu) := cpu.pop
    let (ss, cpu) := cpu.pop
    ⟨(cpu.set .esp esp).registers, eflags, eip, cs, ss⟩

end Cpu

namespace Context

/-- The code runs in the kernel. -/
def Privileged (context : Context) : Prop := context.cs &&& 3 = 0

instance (context : Context) : Decidable context.Privileged :=
  inferInstanceAs (Decidable (_ = _))

/-- TF, NT, RF and VM, which an interrupt clears. -/
def clearedFlags : Word := 0x34100#32

/-- `int 0x80` through the trap gate of `system_call_linkage`. -/
def interrupt (context : Context) (tss : Tss) (memory : Word → Byte) : Cpu :=
  let kernelFlags := context.eflags &&& ~~~clearedFlags
  if context.Privileged then
    (((⟨context.registers, kernelFlags, context.ss, memory⟩ : Cpu).push context.eflags).push
      context.cs).push context.eip
  else
    let cpu : Cpu :=
      ⟨assign context.registers .esp tss.esp0, kernelFlags, tss.ss0, memory⟩
    ((((cpu.push context.ss).push (context.registers .esp)).push context.eflags).push
      context.cs).push context.eip

/-- The context with a result in `eax`. -/
def answered (context : Context) (value : Word) : Context :=
  { context with registers := assign context.registers .eax value }

end Context

inductive SystemCall where
  | halt | execute | read | write | open | close | getargs | vidmap | setHandler | sigreturn
  deriving DecidableEq

/-- `jump_table`; its first entry is no function. -/
def jumpTable : List (Option SystemCall) :=
  [none, some .halt, some .execute, some .read, some .write, some .open, some .close,
    some .getargs, some .vidmap, some .setHandler, some .sigreturn]

/-- Where a piece of the assembly code leaves to. -/
inductive Ending where
  /-- `iret` to the interrupted code -/
  | back (context : Context) (memory : Word → Byte)
  /-- the entry of a C function -/
  | function (call : SystemCall) (cpu : Cpu)
  /-- an address that is no label of this code -/
  | astray (address : Word) (cpu : Cpu)

section Code

variable (layout : Layout) (flags : Cpu → Word)

/-- `system_call_linkage` from the return of `sys_calls_handler` on. -/
def afterCall (cpu : Cpu) : Ending :=
  let cpu := cpu.exec flags
    [.popl .ebp, .popl .edi, .popl .esi, .popl .edx, .popl .ecx, .popl .ebx, .popfl]
  .back cpu.iret cpu.memory

def ret (cpu : Cpu) : Ending :=
  if cpu.pop.1 = layout.afterCall then afterCall flags cpu.pop.2
  else .astray cpu.pop.1 cpu.pop.2

def sysCallsHandlerEnd (cpu : Cpu) : Ending :=
  ret layout flags
    (cpu.exec flags [.addl 20 .esp, .popl .ebx, .popl .esi, .popl .edi, .popl .ebp])

def returnError (cpu : Cpu) : Ending :=
  sysCallsHandlerEnd layout flags (cpu.exec flags [.movlValue (-1) .eax, .subl 20 .esp])

def sysCallsHandler (cpu : Cpu) : Ending :=
  let cpu := cpu.exec flags
    [.pushl .ebp, .movl .esp .ebp, .pushl .ebx, .pushl .esi, .pushl .edi, .cmpl 1 .eax]
  if (cpu.get .eax).toInt < 1 then returnError layout flags cpu
  else
    let cpu := cpu.exec flags [.cmpl 10 .eax]
    if (cpu.get .eax).toInt > 10 then returnError layout flags cpu
    else
      let cpu := cpu.exec flags [.pushl .edx, .pushl .ecx, .pushl .ebx, .pushlValue 0]
      match (jumpTable[(cpu.get .eax).toNat]?).join with
      | some call => .function call cpu
      | none => .astray 1 cpu

def systemCallLinkage (cpu : Cpu) : Ending :=
  let cpu := cpu.exec flags
    [.pushfl, .pushl .ebx, .pushl .ecx, .pushl .edx, .pushl .esi, .pushl .edi, .pushl .ebp]
  sysCallsHandler layout flags (cpu.push layout.afterCall)

def haltReturn (cpu : Cpu) : Ending :=
  sysCallsHandlerEnd layout flags
    (cpu.exec flags [.movlStack 12 .eax, .movlStack 8 .ebp, .movl .ebp .esp])

/-- The start of a C function. -/
def prologue (cpu : Cpu) : Cpu := cpu.exec flags [.pushl .ebp, .movl .esp .ebp]

/-- What a C function leaves when it ends, and its result. -/
structure Work where
  registers : Register → Word
  eflags : Word
  memory : Word → Byte
  value : Word

/-- The work of a C function, which keeps `ebp` at its frame. -/
def Cpu.works (cpu : Cpu) (work : Work) : Cpu :=
  { cpu with
    registers := assign work.registers .ebp (cpu.get .ebp), eflags := work.eflags,
    memory := work.memory }

/-- `RETURN(value)` -/
def returnMacro (cpu : Cpu) (value : Word) : Ending :=
  sysCallsHandlerEnd layout flags (cpu.exec flags [.movl .ebp .esp, .movlValue value .eax])

/-- `return value;` -/
def plainReturn (cpu : Cpu) (value : Word) : Ending :=
  ret layout flags
    (cpu.exec flags [.movlValue value .eax, .movl .ebp .esp, .popl .ebp])

end Code

namespace SystemCall

/-- The result of the C function. -/
def result (work : Work) : SystemCall → Word
  | setHandler | sigreturn => 0
  | halt | execute | read | write | .open | close | getargs | vidmap => work.value

/-- A C function that ends in the process that called it: `set_handler` and `sigreturn` do
nothing but a plain return, the others end with the macro. -/
def run (layout : Layout) (flags : Cpu → Word) (cpu : Cpu) (work : Work) :
    SystemCall → Ending
  | setHandler | sigreturn => plainReturn layout flags (prologue flags cpu) 0
  | halt | execute | read | write | .open | close | getargs | vidmap =>
      returnMacro layout flags ((prologue flags cpu).works work) work.value

end SystemCall

/-- From `int 0x80` to the C function or back. -/
def int80 (layout : Layout) (flags : Cpu → Word) (tss : Tss) (context : Context)
    (memory : Word → Byte) : Ending :=
  systemCallLinkage layout flags (context.interrupt tss memory)

/-- A system call whose C function, if there is one, does this work. -/
def systemCall (layout : Layout) (flags : Cpu → Word) (tss : Tss) (context : Context)
    (memory : Word → Byte) (work : Work) : Ending :=
  match int80 layout flags tss context memory with
  | .function call cpu => call.run layout flags cpu work
  | ending => ending

end LightweightOs.Linkage
