import LightweightOs.SystemCalls

/-!
# The system call library

A program calls a wrapper of the library, which saves `ebx`, moves its arguments
from the stack to the registers and traps into the kernel.  The wrapper gives
the C function of the kernel the arguments of its own caller, and comes back to
this caller as any C function does.
-/

namespace LightweightOs.Linkage

open DownStack

/-- `ece391sysnum.h` -/
def SystemCall.number : SystemCall → Word
  | halt => 1
  | execute => 2
  | read => 3
  | write => 4
  | .open => 5
  | close => 6
  | getargs => 7
  | vidmap => 8
  | setHandler => 9
  | sigreturn => 10

section Wrapper

variable (flags : Cpu → Word)

/-- `DO_CALL` up to the trap. -/
def doCall (call : SystemCall) (cpu : Cpu) : Cpu :=
  cpu.exec flags
    [.pushl .ebx, .movlValue call.number .eax, .movlStack 8 .ebx, .movlStack 12 .ecx,
      .movlStack 16 .edx]

/-- What `int` interrupts; `eip` is the instruction behind it. -/
def Cpu.trap (cpu : Cpu) (eip cs : Word) : Context where
  registers := cpu.registers
  eflags := cpu.eflags
  eip := eip
  cs := cs
  ss := cpu.ss

/-- The processor in the program, with the memory that the kernel leaves. -/
def Context.cpu (context : Context) (memory : Word → Byte) : Cpu where
  registers := context.registers
  eflags := context.eflags
  ss := context.ss
  memory := memory

/-- `DO_CALL` behind the trap: the address of its `ret`, and the processor there. -/
def afterTrap (cpu : Cpu) : Word × Cpu := (cpu.exec flags [.popl .ebx]).pop

/-- A wrapper, with what the kernel does. -/
def libraryCall (call : SystemCall) (kernel : Context → (Word → Byte) → Ending) (eip cs : Word)
    (cpu : Cpu) : Option (Word × Cpu) :=
  match kernel ((doCall flags call cpu).trap eip cs) (doCall flags call cpu).memory with
  | .back context memory => some (afterTrap flags (context.cpu memory))
  | .function _ _ | .astray _ _ => none

/-- `_start` behind the call of `main`, up to the wrapper of `halt`. -/
def start (afterHalt : Word) (cpu : Cpu) : Cpu :=
  (cpu.exec flags [.pushlValue 0, .pushlValue 0, .pushl .eax]).push afterHalt

end Wrapper

variable {flags : Cpu → Word} {cpu : Cpu} {call : SystemCall}

/-- The caller's return address and three words behind it. -/
structure Called (cpu : Cpu) (back first second third : Word) : Prop where
  stacked : Stacked cpu.memory cpu.esp [back, first, second, third]

theorem doCall_stacked {back first second third : Word}
    (called : Called cpu back first second third) :
    (doCall flags call cpu).esp = cpu.esp - 4 ∧
      Stacked (doCall flags call cpu).memory (cpu.esp - 4)
        [cpu.get .ebx, back, first, second, third] := by
  refine ⟨rfl, ?_⟩
  exact called.stacked.push (cpu.get .ebx) (by simp)

theorem doCall_registers {back first second third : Word}
    (called : Called cpu back first second third) :
    (doCall flags call cpu).get .eax = call.number ∧
      (doCall flags call cpu).get .ebx = first ∧
      (doCall flags call cpu).get .ecx = second ∧
      (doCall flags call cpu).get .edx = third ∧
      (doCall flags call cpu).get .esi = cpu.get .esi ∧
      (doCall flags call cpu).get .edi = cpu.get .edi ∧
      (doCall flags call cpu).get .ebp = cpu.get .ebp := by
  obtain ⟨isTop, _, isBack, isFirst, isSecond, isThird, _⟩ :=
    @doCall_stacked flags _ call _ _ _ _ called
  have memory : (doCall flags call cpu).memory =
      write cpu.memory (cpu.esp - 4) (cpu.get .ebx) := rfl
  have place : ∀ top : Word, top - 4 + 8 = top - 4 + 4 + 4 ∧
      top - 4 + 12 = top - 4 + 4 + 4 + 4 ∧ top - 4 + 16 = top - 4 + 4 + 4 + 4 + 4 := by
    intro top
    refine ⟨?_, ?_, ?_⟩ <;> bv_omega
  obtain ⟨eight, twelve, sixteen⟩ := place cpu.esp
  rw [memory] at isFirst isSecond isThird
  refine ⟨rfl, ?_, ?_, ?_, rfl, rfl, rfl⟩
  · rw [← isFirst, ← eight]
    rfl
  · rw [← isSecond, ← twelve]
    rfl
  · rw [← isThird, ← sixteen]
    rfl

/-- `_start` calls the wrapper of `halt` with what `main` has returned. -/
theorem start_called (flags : Cpu → Word) (afterHalt : Word) (cpu : Cpu) :
    Called (start flags afterHalt cpu) afterHalt (cpu.get .eax) 0 0 := by
  have before : cpu.Shows ⟨cpu.registers, cpu.esp, []⟩ := ⟨fun _ _ => rfl, rfl, trivial⟩
  have pushed : (cpu.exec flags [.pushlValue 0, .pushlValue 0, .pushl .eax]).Shows
      ⟨cpu.registers, cpu.esp - 4 - 4 - 4, [cpu.get .eax, 0, 0]⟩ :=
    before.exec rfl
  have called : (start flags afterHalt cpu).Shows
      ⟨cpu.registers, cpu.esp - 4 - 4 - 4 - 4, [afterHalt, cpu.get .eax, 0, 0]⟩ :=
    pushed.push rfl
  constructor
  rw [called.sp]
  exact called.stack

/-- The memory that a piece of the code leaves. -/
def Ending.memory : Ending → Word → Byte
  | .back _ memory => memory
  | .function _ cpu | .astray _ cpu => cpu.memory

/-- The processor behind the call of a C function: the result is in `eax`, and `ecx` and `edx`
are not kept. -/
def Cpu.returned (cpu : Cpu) (value ecx edx : Word) (memory : Word → Byte) : Cpu where
  registers :=
    poppedRegisters value (cpu.get .ebx) ecx edx (cpu.get .esi) (cpu.get .edi) (cpu.get .ebp)
      (cpu.esp + 4)
  eflags := cpu.eflags
  ss := cpu.ss
  memory := memory

/-- The two words that a wrapper takes from the stack are still there. -/
def KeepsCaller (flags : Cpu → Word) (call : SystemCall) (cpu : Cpu) (memory : Word → Byte) :
    Prop :=
  ∀ i, i < 8 → memory (cpu.esp - 4 + BitVec.ofNat 32 i) =
    (doCall flags call cpu).memory (cpu.esp - 4 + BitVec.ofNat 32 i)

theorem afterTrap_eq {back first second third value eip cs : Word} {memory : Word → Byte}
    (called : Called cpu back first second third)
    (keeps : KeepsCaller flags call cpu memory) :
    afterTrap flags
        (((((doCall flags call cpu).trap eip cs).answered value)).cpu memory) =
      (back, cpu.returned value second third memory) := by
  obtain ⟨isTop, stacked⟩ := @doCall_stacked flags _ call _ _ _ _ called
  obtain ⟨_, _, isSecond, isThird, isEsi, isEdi, isEbp⟩ :=
    @doCall_registers flags _ call _ _ _ _ called
  have words : Stacked (doCall flags call cpu).memory (cpu.esp - 4) [cpu.get .ebx, back] :=
    ⟨stacked.1, stacked.2.1, trivial⟩
  have kept := words.congr keeps
  have flagsKept : (doCall flags call cpu).eflags = cpu.eflags := rfl
  have segment : (doCall flags call cpu).ss = cpu.ss := rfl
  generalize doCall flags call cpu = wrapper at *
  have shows : (((wrapper.trap eip cs).answered value).cpu memory).Shows
      ⟨((wrapper.trap eip cs).answered value).registers, cpu.esp - 4,
        [cpu.get .ebx, back]⟩ := by
    refine ⟨fun _ _ => rfl, ?_, kept⟩
    have notEax : Register.esp ≠ .eax := by decide
    exact (assign_of_ne notEax wrapper.registers value).trans isTop
  have popped : (Cpu.exec flags (((wrapper.trap eip cs).answered value).cpu memory)
      [.popl .ebx]).Shows
      ⟨assign ((wrapper.trap eip cs).answered value).registers .ebx (cpu.get .ebx),
        cpu.esp - 4 + 4, [back]⟩ :=
    shows.exec rfl
  obtain ⟨isBack, after⟩ := popped.pop rfl
  rw [afterTrap]
  apply Prod.ext
  · exact isBack
  · rw [Cpu.returned]
    have eight : cpu.esp - 4 + 4 + 4 = cpu.esp + 4 := by
      rw [BitVec.sub_add_cancel]
    have registers : (Cpu.exec flags (((wrapper.trap eip cs).answered value).cpu memory)
        [.popl .ebx]).pop.2.registers =
        poppedRegisters value (cpu.get .ebx) second third (cpu.get .esi) (cpu.get .edi)
          (cpu.get .ebp) (cpu.esp + 4) := by
      funext register
      cases register
      case esp => exact after.sp.trans eight
      case eax => exact after.registers .eax (by decide)
      case ebx => exact after.registers .ebx (by decide)
      case ecx => exact (after.registers .ecx (by decide)).trans isSecond
      case edx => exact (after.registers .edx (by decide)).trans isThird
      case esi => exact (after.registers .esi (by decide)).trans isEsi
      case edi => exact (after.registers .edi (by decide)).trans isEdi
      case ebp => exact (after.registers .ebp (by decide)).trans isEbp
    rw [← registers, ← flagsKept, ← segment]
    rfl

section Kernel

variable {layout : Layout} {tss : Tss} {context : Context}

theorem sysCallsHandlerEnd_memory :
    (sysCallsHandlerEnd layout flags cpu).memory = cpu.memory := by
  rw [sysCallsHandlerEnd, ret]
  split <;> rfl

theorem returnMacro_memory (value : Word) :
    (returnMacro layout flags cpu value).memory = cpu.memory :=
  sysCallsHandlerEnd_memory

theorem haltReturn_memory : (haltReturn layout flags cpu).memory = cpu.memory :=
  sysCallsHandlerEnd_memory

theorem Returns.eq_back {value : Word} {ending : Ending}
    (returns : Returns context value ending) :
    ending = .back (context.answered value) ending.memory := by
  obtain ⟨memory, rfl⟩ := returns
  rfl

theorem trap_call (isNumber : context.registers .eax = call.number) :
    context.Numbered ∧ context.call = some call := by
  rw [Context.Numbered, Context.call, isNumber]
  cases call <;> decide

/-- The entry of the function behind a number, with the words of its frame. -/
theorem int80_enters (layout : Layout) (flags : Cpu → Word) (tss : Tss)
    (memory : Word → Byte) (isNumber : context.registers .eax = call.number) :
    ∃ kernel, int80 layout flags tss context memory = .function call kernel ∧
      AtFunction layout tss context kernel := by
  obtain ⟨numbered, isCall⟩ := trap_call isNumber
  obtain ⟨entered, kernel, isEntered, isFunction, atFunction⟩ :=
    (int80_cases layout flags tss context memory).2 numbered
  rw [isCall] at isEntered
  cases isEntered
  exact ⟨kernel, isFunction, atFunction⟩

/-- The arguments of the function are in the registers that the wrapper has loaded. -/
theorem AtFunction.arguments {kernel : Cpu} (atFunction : AtFunction layout tss context kernel) :
    Stacked kernel.memory (kernel.esp + 4)
      [context.registers .ebx, context.registers .ecx, context.registers .edx] := by
  obtain ⟨kernelFlags, base, shows⟩ := atFunction.shows
  have stacked := shows.stack
  rw [← shows.sp] at stacked
  exact ⟨stacked.2.1, stacked.2.2.1, stacked.2.2.2.1, trivial⟩

/-- A function that ends with the macro comes back with its own memory. -/
theorem systemCall_back {work : Work} {memory : Word → Byte}
    (isNumber : context.registers .eax = call.number) (ends : ¬call.PlainReturn)
    (saved : context.Saved layout tss work.memory) :
    systemCall layout flags tss context memory work =
      .back (context.answered work.value) work.memory := by
  obtain ⟨kernel, isFunction, atFunction⟩ := int80_enters layout flags tss memory isNumber
  have runs : call.run layout flags kernel work =
      returnMacro layout flags ((prologue flags kernel).works work) work.value := by
    cases call
    case setHandler => exact (ends (.inl rfl)).elim
    case sigreturn => exact (ends (.inr rfl)).elim
    all_goals rfl
  have returns := (@AtFunction.works_returns layout flags _ _ _ atFunction work).mpr saved
  rw [systemCall, isFunction]
  dsimp only
  rw [runs, returns.eq_back, returnMacro_memory]
  rfl

theorem haltReturn_back {kernel halting : Cpu} {status : Word}
    (atFunction : AtFunction layout tss context kernel)
    (frame : read halting.memory (halting.esp + 8) = (prologue flags kernel).get .ebp)
    (isStatus : read halting.memory (halting.esp + 12) = status)
    (ss : context.Privileged → halting.ss = context.ss)
    (saved : context.Saved layout tss halting.memory) :
    haltReturn layout flags halting = .back (context.answered status) halting.memory := by
  obtain ⟨registers, base, rest, shows, isFrame⟩ :=
    @AtFunction.prologue layout flags _ _ _ atFunction
  have ebp : (prologue flags kernel).get .ebp = context.handlerEsp tss - 36 :=
    (shows.registers .ebp (by decide)).trans isFrame
  have returns := (@haltReturn_returns layout flags _ _ _ _ (frame.trans ebp) isStatus ss).mpr
    saved
  rw [returns.eq_back, haltReturn_memory]

end Kernel

/-- A call of a wrapper with three arguments: the kernel's function gets them, and its result
comes back to the caller, from the function itself or from the halt of a child. -/
structure Calls (layout : Layout) (flags : Cpu → Word) (tss : Tss) (call : SystemCall)
    (eip cs : Word) (cpu : Cpu) (back first second third : Word) : Prop where
  enters : ∃ kernel,
    int80 layout flags tss ((doCall flags call cpu).trap eip cs) (doCall flags call cpu).memory =
        .function call kernel ∧
      Stacked kernel.memory (kernel.esp + 4) [first, second, third]
  returns : ∀ work, ¬call.PlainReturn →
    ((doCall flags call cpu).trap eip cs).Saved layout tss work.memory →
    KeepsCaller flags call cpu work.memory →
    libraryCall flags call (fun context memory => systemCall layout flags tss context memory work)
        eip cs cpu = some (back, cpu.returned work.value second third work.memory)
  halts : ∀ kernel halting status,
    int80 layout flags tss ((doCall flags call cpu).trap eip cs) (doCall flags call cpu).memory =
      .function .execute kernel →
    read halting.memory (halting.esp + 8) = (prologue flags kernel).get .ebp →
    read halting.memory (halting.esp + 12) = status →
    ((doCall flags call cpu).trap eip cs).Saved layout tss halting.memory →
    KeepsCaller flags call cpu halting.memory →
    libraryCall flags call (fun _ _ => haltReturn layout flags halting) eip cs cpu =
      some (back, cpu.returned status second third halting.memory)

/-- The wrapper's trap is the call of the kernel's function with its caller's arguments. -/
theorem doCall_enters (layout : Layout) (tss : Tss) {back first second third : Word}
    (called : Called cpu back first second third) (eip cs : Word) :
    ∃ kernel,
      int80 layout flags tss ((doCall flags call cpu).trap eip cs)
          (doCall flags call cpu).memory = .function call kernel ∧
        AtFunction layout tss ((doCall flags call cpu).trap eip cs) kernel ∧
        Stacked kernel.memory (kernel.esp + 4) [first, second, third] := by
  obtain ⟨isNumber, isFirst, isSecond, isThird, _⟩ :=
    @doCall_registers flags _ call _ _ _ _ called
  generalize doCall flags call cpu = wrapper at *
  have number : (wrapper.trap eip cs).registers .eax = call.number := isNumber
  obtain ⟨kernel, isFunction, atFunction⟩ :=
    int80_enters layout flags tss wrapper.memory number
  have arguments := atFunction.arguments
  have words : [(wrapper.trap eip cs).registers .ebx, (wrapper.trap eip cs).registers .ecx,
      (wrapper.trap eip cs).registers .edx] = [first, second, third] := by
    rw [← isFirst, ← isSecond, ← isThird]
    rfl
  rw [words] at arguments
  exact ⟨kernel, isFunction, atFunction, arguments⟩

theorem calls_of_called (layout : Layout) (tss : Tss) {back first second third : Word}
    (called : Called cpu back first second third) (eip : Word) {cs : Word}
    (program : cs &&& 3 ≠ 0) :
    Calls layout flags tss call eip cs cpu back first second third := by
  obtain ⟨kernel, isFunction, atFunction, arguments⟩ :=
    @doCall_enters flags _ call layout tss _ _ _ _ called eip cs
  have isNumber : ((doCall flags call cpu).trap eip cs).registers .eax = call.number :=
    (@doCall_registers flags _ call _ _ _ _ called).1
  have outer : ¬((doCall flags call cpu).trap eip cs).Privileged := program
  constructor
  case enters => exact ⟨kernel, isFunction, arguments⟩
  case returns =>
    intro work ends saved keeps
    rw [libraryCall, systemCall_back isNumber ends saved]
    exact congrArg some (afterTrap_eq called keeps)
  case halts =>
    intro entered halting status isEntered frame isStatus saved keeps
    rw [isEntered] at isFunction
    cases isFunction
    rw [libraryCall, haltReturn_back atFunction frame isStatus (fun inner => (outer inner).elim)
      saved]
    exact congrArg some (afterTrap_eq called keeps)

/-- Every wrapper passes its caller's arguments on and returns as a C function, with the
caller's `ebx`, `esi`, `edi`, `ebp` and stack.  At the end of `main` its result reaches `halt`. -/
theorem library_calls (layout : Layout) (flags : Cpu → Word) (tss : Tss) (call : SystemCall)
    {cpu : Cpu} {back first second third : Word} (called : Called cpu back first second third)
    (eip : Word) {cs : Word} (program : cs &&& 3 ≠ 0) :
    Calls layout flags tss call eip cs cpu back first second third ∧
      ∀ main afterHalt, ∃ kernel,
        int80 layout flags tss
            ((doCall flags .halt (start flags afterHalt main)).trap eip cs)
            (doCall flags .halt (start flags afterHalt main)).memory = .function .halt kernel ∧
          Stacked kernel.memory (kernel.esp + 4) [main.get .eax, 0, 0] := by
  constructor
  case left => exact calls_of_called layout tss called eip program
  case right =>
    intro main afterHalt
    obtain ⟨kernel, isFunction, _, arguments⟩ :=
      @doCall_enters flags _ .halt layout tss _ _ _ _ (start_called flags afterHalt main) eip cs
    exact ⟨kernel, isFunction, arguments⟩

/-- A call of `read` at 128MB + 64KB, with its return address and three arguments. -/
def sampleCaller : Cpu :=
  let cpu : Cpu :=
    { registers := assign (fun _ => 0) .esp 0x8010000, eflags := 0x202, ss := 0x2B,
      memory := fun _ => 0 }
  (((cpu.push 32).push 0x8020000).push 3).push 0x8048100

theorem sampleCaller_called : Called sampleCaller 0x8048100 3 0x8020000 32 := by
  have before : Cpu.Shows
      ⟨assign (fun _ => 0) .esp 0x8010000, 0x202, 0x2B, fun _ => 0⟩
      ⟨fun _ => 0, 0x8010000, []⟩ := by
    refine ⟨?_, rfl, trivial⟩
    intro register other
    exact assign_of_ne other (fun _ => 0) 0x8010000
  have called : sampleCaller.Shows
      ⟨fun _ => 0, 0x800FFF0, [0x8048100, 3, 0x8020000, 32]⟩ :=
    (((before.push rfl).push rfl).push rfl).push rfl
  constructor
  rw [called.sp]
  exact called.stack

/-- The entry writes the kernel's stack only, so the stack of the caller is kept. -/
theorem sampleCaller_keeps {kernel : Cpu}
    (entered : int80 sampleLayout (fun _ => 0) sampleTss
        ((doCall (fun _ => 0) .read sampleCaller).trap 0x8048200 0x23)
        (doCall (fun _ => 0) .read sampleCaller).memory = .function .read kernel) :
    KeepsCaller (fun _ => 0) .read sampleCaller kernel.memory := by
  have keeps : ∀ i, i < 8 →
      (int80 sampleLayout (fun _ => 0) sampleTss
          ((doCall (fun _ => 0) .read sampleCaller).trap 0x8048200 0x23)
          (doCall (fun _ => 0) .read sampleCaller).memory).memory
            (sampleCaller.esp - 4 + BitVec.ofNat 32 i) =
        (doCall (fun _ => 0) .read sampleCaller).memory
          (sampleCaller.esp - 4 + BitVec.ofNat 32 i) := by
    decide +kernel
  rw [entered] at keeps
  exact keeps

/-- A `read` of 32 bytes comes back to the caller. -/
theorem library_calls_sampleCaller :
    ∃ work, work.value = 32 ∧
      libraryCall (fun _ => 0) .read
          (fun context memory =>
            systemCall sampleLayout (fun _ => 0) sampleTss context memory work)
          0x8048200 0x23 sampleCaller =
        some (0x8048100, sampleCaller.returned 32 0x8020000 32 work.memory) := by
  obtain ⟨kernel, entered, atFunction, _⟩ :=
    @doCall_enters (fun _ => 0) sampleCaller .read sampleLayout sampleTss _ _ _ _
      sampleCaller_called 0x8048200 0x23
  have program : (0x23 : Word) &&& 3 ≠ 0 := by decide
  have calls := (library_calls sampleLayout (fun _ => 0) sampleTss .read sampleCaller_called
    0x8048200 program).1
  refine ⟨⟨fun _ => 0, 0, kernel.memory, 32⟩, rfl, ?_⟩
  exact calls.returns ⟨fun _ => 0, 0, kernel.memory, 32⟩ (by decide) atFunction.saved
    (sampleCaller_keeps entered)

end LightweightOs.Linkage
