import LightweightOs.InterruptLinkage
import LightweightOs.SavedFrames

/-!
# Preemption

A process loses the processor in the handler of the timer or of the keyboard,
which leaves the frame pointer of the handler in the block of the process.  The
words that its interrupt has put on its kernel stack stay there while others
run, so that `return_to_parent` brings back the context that was interrupted
when the process was last suspended.
-/

namespace LightweightOs

open Transition DownStack Linkage

/-- `sizeof(ProcessControlBlock)`: the block lies below the stack. -/
def pcbBytes : Nat := 1304

/-- The place of an address in the 8KB of a process. -/
def stackOffset (pid : Int) (address : Word) : Nat := (address - pcbAddr pid).toNat

/-- The address belongs to the kernel stack of a process. -/
def InStack (pid : Int) (address : Word) : Prop :=
  pcbBytes ≤ stackOffset pid address ∧ stackOffset pid address < 0x2000

theorem stackOffset_add {pid : Int} {address : Word} {i : Nat}
    (inside : stackOffset pid address + i < 2 ^ 32) :
    stackOffset pid (address + BitVec.ofNat 32 i) = stackOffset pid address + i := by
  have moved : address + BitVec.ofNat 32 i - pcbAddr pid =
      address - pcbAddr pid + BitVec.ofNat 32 i := by
    rw [BitVec.sub_eq_add_neg, BitVec.sub_eq_add_neg, BitVec.add_assoc, BitVec.add_assoc,
      BitVec.add_comm (BitVec.ofNat 32 i)]
  rw [stackOffset] at inside
  rw [stackOffset, stackOffset, moved, BitVec.toNat_add, BitVec.toNat_ofNat]
  omega

theorem stackOffset_sub {pid : Int} {address amount : Word}
    (inside : amount.toNat ≤ stackOffset pid address) :
    stackOffset pid (address - amount) = stackOffset pid address - amount.toNat := by
  rw [stackOffset] at inside
  rw [stackOffset, stackOffset]
  generalize pcbAddr pid = base at inside
  bv_omega

/-- The words of a suspended context lie on the kernel stack of a process. -/
structure SuspendedOn (sites : Sites) (memory : Word → Byte) (pid : Int) (frame : Word)
    (context : Context) : Prop where
  /-- The kernel runs on its own segment. -/
  segment : context.Privileged → context.ss = kernelDs.setWidth 32
  low : pcbBytes ≤ stackOffset pid frame
  found : ∃ device outer label linkage,
    Stacked memory frame [outer, sites.place (.excHandler device)] ∧
      context.Interrupted sites memory (outer + 4) label linkage none ∧
      stackOffset pid frame + 8 ≤ stackOffset pid (outer + 4) ∧
      stackOffset pid (outer + 4) + context.pushedBytes none ≤ 0x2000

namespace SuspendedOn

variable {sites : Sites} {memory other : Word → Byte} {pid : Int} {frame : Word}
  {context : Context}

theorem suspended (suspendedOn : SuspendedOn sites memory pid frame context) :
    context.Suspended sites memory frame := by
  obtain ⟨device, outer, label, linkage, stacked, interrupted, _⟩ := suspendedOn.found
  exact ⟨device, outer, label, linkage, none, stacked, interrupted⟩

theorem congr (suspendedOn : SuspendedOn sites memory pid frame context)
    (same : ∀ address, stackOffset pid frame ≤ stackOffset pid address →
      InStack pid address → other address = memory address) :
    SuspendedOn sites other pid frame context := by
  obtain ⟨segment, low, device, outer, label, linkage, stacked, interrupted, above, inside⟩ :=
    suspendedOn
  refine ⟨segment, low, device, outer, label, linkage, stacked.congr ?_,
    interrupted.congr ?_, above, inside⟩
  · intro i small
    have few : i < 8 := small
    have moved := @stackOffset_add pid frame i (by omega)
    apply same
    · omega
    · exact ⟨by omega, by omega⟩
  · intro i small
    have moved := @stackOffset_add pid (outer + 4) i (by omega)
    apply same
    · omega
    · exact ⟨by omega, by omega⟩

end SuspendedOn

/-- The top of the stack that an interrupt of a context uses. -/
def Linkage.Context.stackTop (context : Context) (tss : Tss) : Word :=
  if context.Privileged then context.registers .esp else tss.esp0

theorem Linkage.Context.linkageEsp_eq (context : Context) (tss : Tss) :
    context.linkageEsp tss none - 44 =
      context.stackTop tss - BitVec.ofNat 32 (context.pushedBytes none) := by
  have outside : ¬(none : Option Word).isSome := by decide
  rw [linkageEsp, if_neg outside, kernelEsp, stackTop, pushedBytes, if_neg outside]
  by_cases privileged : context.Privileged
  · rw [if_pos privileged, if_pos privileged, if_pos privileged]
    generalize context.registers .esp = top
    bv_omega
  · rw [if_neg privileged, if_neg privileged, if_neg privileged]
    generalize tss.esp0 = top
    bv_omega

section Handler

variable {sites : Sites} {flags : Cpu → Word} {cpu : Cpu} {context : Context} {tss : Tss}
  {label : LinkageLabel} {linkage : IntLinkage} {device : Device} {body : Body} {pid : Int}

/-- The frame of `exc_handler`. -/
def excHandlerFrame (sites : Sites) (flags : Cpu → Word) (label : LinkageLabel)
    (linkage : IntLinkage) (cpu : Cpu) : Cpu :=
  prologue flags (intLinkage sites flags label linkage cpu)

theorem deviceHandler_ebp (sites : Sites) (flags : Cpu → Word) (label : LinkageLabel)
    (linkage : IntLinkage) (device : Device) (body : Body) (cpu : Cpu) :
    (deviceHandler sites flags label linkage device body cpu).get .ebp =
      (excHandlerFrame sites flags label linkage cpu).get .ebp - body.locals - 4 - 4 := rfl

theorem deviceHandler_memory (sites : Sites) (flags : Cpu → Word) (label : LinkageLabel)
    (linkage : IntLinkage) (device : Device) (body : Body) (cpu : Cpu) :
    (deviceHandler sites flags label linkage device body cpu).memory =
      write
        (write body.memory
          ((excHandlerFrame sites flags label linkage cpu).get .ebp - body.locals - 4)
          (sites.place (.excHandler device)))
        ((excHandlerFrame sites flags label linkage cpu).get .ebp - body.locals - 4 - 4)
        ((excHandlerFrame sites flags label linkage cpu).get .ebp) := rfl

theorem excHandlerFrame_interrupted
    (shows : cpu.Shows ⟨context.registers, context.linkageEsp tss none, context.frame⟩)
    (isLinkage : label.intLinkage = some linkage) (takes : Takes linkage none) :
    (excHandlerFrame sites flags label linkage cpu).get .ebp + 4 =
        context.stackTop tss - BitVec.ofNat 32 (context.pushedBytes none) ∧
      context.Interrupted sites (excHandlerFrame sites flags label linkage cpu).memory
        ((excHandlerFrame sites flags label linkage cpu).get .ebp + 4) label linkage none := by
  obtain ⟨isTop, interrupted⟩ :=
    @intLinkage_interrupted sites flags _ _ _ _ _ none shows isLinkage takes
  have isEbp : (excHandlerFrame sites flags label linkage cpu).get .ebp =
      (intLinkage sites flags label linkage cpu).esp - 4 := rfl
  have isMemory : (excHandlerFrame sites flags label linkage cpu).memory =
      write (intLinkage sites flags label linkage cpu).memory
        ((intLinkage sites flags label linkage cpu).esp - 4)
        ((intLinkage sites flags label linkage cpu).get .ebp) := rfl
  have four : ∀ top : Word, (top - (top - 4)).toNat = 4 := by
    intro top
    bv_omega
  rw [isEbp, isMemory, BitVec.sub_add_cancel, isTop]
  constructor
  · exact context.linkageEsp_eq tss
  · apply interrupted.write
    · rw [four]
    · rw [four]
      decide

/-- The frame of the device's handler, on the stack of a process with room for it. -/
theorem deviceHandler_suspendedOn
    (shows : cpu.Shows ⟨context.registers, context.linkageEsp tss none, context.frame⟩)
    (isLinkage : label.intLinkage = some linkage) (takes : Takes linkage none)
    (keeps : ∀ i, i < context.pushedBytes none →
      body.memory ((excHandlerFrame sites flags label linkage cpu).get .ebp + 4 +
          BitVec.ofNat 32 i) =
        (excHandlerFrame sites flags label linkage cpu).memory
          ((excHandlerFrame sites flags label linkage cpu).get .ebp + 4 + BitVec.ofNat 32 i))
    (segment : context.Privileged → context.ss = kernelDs.setWidth 32)
    (top : stackOffset pid (context.stackTop tss) ≤ 0x2000)
    (room : pcbBytes + context.pushedBytes none + 12 + body.locals.toNat ≤
      stackOffset pid (context.stackTop tss)) :
    SuspendedOn sites (deviceHandler sites flags label linkage device body cpu).memory pid
      ((deviceHandler sites flags label linkage device body cpu).get .ebp) context := by
  obtain ⟨isPlace, interrupted⟩ :=
    @excHandlerFrame_interrupted sites flags _ _ _ _ _ shows isLinkage takes
  rw [deviceHandler_memory, deviceHandler_ebp]
  generalize (excHandlerFrame sites flags label linkage cpu).get .ebp = outer at *
  have kept := interrupted.congr keeps
  have few := context.pushedBytes_le none
  have small : (BitVec.ofNat 32 (context.pushedBytes none)).toNat = context.pushedBytes none := by
    rw [BitVec.toNat_ofNat]
    omega
  have place : stackOffset pid (outer + 4) =
      stackOffset pid (context.stackTop tss) - context.pushedBytes none := by
    rw [isPlace, stackOffset_sub (by omega), small]
  have amount : (body.locals + 12).toNat = body.locals.toNat + 12 := by
    bv_omega
  have frame : outer - body.locals - 4 - 4 = outer + 4 - (body.locals + 12) := by
    bv_omega
  have framePlace := @stackOffset_sub pid (outer + 4) (body.locals + 12) (by omega)
  rw [← frame] at framePlace
  have first : (outer + 4 - (outer - body.locals - 4)).toNat = body.locals.toNat + 8 := by
    bv_omega
  have second : (outer + 4 - (outer - body.locals - 4 - 4)).toNat = body.locals.toNat + 12 := by
    bv_omega
  refine ⟨segment, by omega, device, outer, label, linkage, ?_, ?_, by omega, by omega⟩
  · have none : Stacked body.memory (outer - body.locals) [] := trivial
    exact (none.push _ (by decide)).push _ (by simp)
  · apply (kept.write _ _).write
    · omega
    · omega
    · omega
    · omega

end Handler

/-- The handler that `exc_handler` calls for a vector of the controllers. -/
def excHandlerDevice (vector : Word) : Option Device :=
  if vector = 0x28 then some .rtc
  else if vector = 0x21 then some .keyboard
  else if vector = 0x20 then some .pit
  else none

/-- The vector of the interrupt that an event handles. -/
def Event.vector : Event → Option Byte
  | .rtc => some 0x28
  | .key _ _ _ _ _ => some 0x21
  | .pit _ _ => some 0x20
  | .execute _ _ _ | .halt _ _ _ _ _ | .vidmap _ _ _ | .terminalWrite _ _ | .readStart _
  | .readLine _ | .rtcWrite _ => none

/-- The kernel as it is linked and loaded. -/
structure KernelCode where
  sites : Sites
  flags : Cpu → Word
  address : LinkageLabel → Word
  distinct : Function.Injective address
  /-- What the local of `setup_IDT` held. -/
  idtLocal : IdtDesc

/-- The kernel with the memory of its stacks. -/
structure StackedKernel where
  kernel : Kernel
  memory : Word → Byte

namespace StackedKernel

def tss (s : StackedKernel) : Tss := ⟨s.kernel.tssEsp0, s.kernel.tssSs0.setWidth 32⟩

end StackedKernel

/-- The interrupt of a context, from the gate to the frame of the device's handler; the stack
of the process has room for it. -/
inductive Interrupts (code : KernelCode) (s : StackedKernel) (context : Context)
    (vector : Byte) : Cpu → Prop where
  | intro {entered : Entered} {label : LinkageLabel} {linkage : IntLinkage} {device : Device}
      (body : Body)
      (delivers : context.deliver s.tss s.memory (kernelIdt code.address code.idtLocal) vector
        .device = some entered)
      (isLabel : code.address label = entered.eip)
      (isLinkage : label.intLinkage = some linkage)
      (calls : excHandlerDevice linkage.vector = some device)
      (keeps : ∀ i, i < context.pushedBytes none →
        body.memory ((excHandlerFrame code.sites code.flags label linkage entered.cpu).get .ebp +
            4 + BitVec.ofNat 32 i) =
          (excHandlerFrame code.sites code.flags label linkage entered.cpu).memory
            ((excHandlerFrame code.sites code.flags label linkage entered.cpu).get .ebp + 4 +
              BitVec.ofNat 32 i))
      (top : context.Privileged →
        stackOffset s.kernel.runningPid (context.registers .esp) ≤ 0x2000)
      (segment : context.Privileged → context.ss = kernelDs.setWidth 32)
      (room : pcbBytes + context.pushedBytes none + 12 + body.locals.toNat ≤
        stackOffset s.kernel.runningPid (context.stackTop s.tss)) :
      Interrupts code s context vector
        (deviceHandler code.sites code.flags label linkage device body entered.cpu)

/-- A record of the kernel, with the context that it took the processor from if it did. -/
structure StackRecord where
  record : Record
  context : Context

/-- A step of the kernel with its stacks: the process that runs writes to no other stack, and
when it loses the processor it was interrupted, and nothing behind the frame of the handler
is written. -/
structure StackStep (code : KernelCode) (s : StackedKernel) (record : StackRecord)
    (next : StackedKernel) : Prop where
  step : Step s.kernel record.record next.kernel
  keeps : ∀ pid, 0 ≤ pid → pid ≤ 6 → pid ≠ record.record.running → ∀ address,
    InStack pid address → next.memory address = s.memory address
  suspends : ∀ frame, record.record.Suspends frame → ∃ vector handler,
    record.record.event.vector = some vector ∧
      Interrupts code s record.context vector handler ∧ handler.get .ebp = frame ∧
      ∀ address, stackOffset s.kernel.runningPid frame ≤ stackOffset s.kernel.runningPid address →
        InStack s.kernel.runningPid address → next.memory address = handler.memory address

/-- The process lost the processor last in this context, with the handler's frame. -/
def LastInterrupted (history : List StackRecord) (p : Int) (frame : Word)
    (context : Context) : Prop :=
  LastWrite
    (fun r => r.record.running = p ∧ r.record.Suspends frame ∧ r.context = context)
    (fun r => r.record.running ≠ p) history

variable {code : KernelCode}

theorem StackStep.run {start s : StackedKernel} {history : List StackRecord}
    (run : Run (StackStep code) start history s) :
    Run Step start.kernel (history.map StackRecord.record) s.kernel := by
  induction run with
  | nil => exact .nil
  | snoc _ taken earlier =>
      rw [List.map_append]
      exact earlier.snoc taken.step

theorem stackOffset_kernelStackTop {pid : Int} (low : 0 ≤ pid) (high : pid ≤ 6) :
    stackOffset pid (kernelStackTop pid) = 0x2000 := by
  interval_cases pid <;> rfl

theorem Event.vector_genuine {event : Event} {vector : Byte}
    (isVector : event.vector = some vector) : Genuine vector .device ∧ vector ≠ 0x80 := by
  cases event <;> cases isVector <;> decide

/-- The handler of an interrupted process has its frame on the stack of the process. -/
theorem Interrupts.suspendedOn {s : StackedKernel} {context : Context} {vector : Byte}
    {handler : Cpu} (interrupts : Interrupts code s context vector handler)
    (genuine : Genuine vector .device) (notSystemCall : vector ≠ 0x80)
    (low : 0 ≤ s.kernel.runningPid) (high : s.kernel.runningPid ≤ 6)
    (stackTop : s.kernel.tssEsp0 = kernelStackTop s.kernel.runningPid) :
    SuspendedOn code.sites handler.memory s.kernel.runningPid (handler.get .ebp) context := by
  cases interrupts with
  | @intro entered label linkage device body delivers isLabel isLinkage calls keeps top segment
      room =>
      rw [deliver_kernelIdt] at delivers
      obtain ⟨gate, isGate, isEntered⟩ := Option.bind_eq_some_iff.mp delivers
      split at isEntered
      case isFalse => cases isEntered
      case isTrue =>
        cases isEntered
        cases code.distinct isLabel
        have member := mem_of_linkageOf isGate notSystemCall
        have interruptGate : decide (label = .systemCall) = false :=
          decide_eq_false (systemCall_not_mem _ member)
        rw [interruptGate] at keeps
        rw [interruptGate]
        apply @deviceHandler_suspendedOn code.sites code.flags _ _ s.tss
        · exact context.entry_shows s.tss s.memory false vector .device
        · exact isLinkage
        · exact genuine.takes member isLinkage
        · exact keeps
        · exact segment
        · by_cases privileged : context.Privileged
          · rw [Context.stackTop, if_pos privileged]
            exact top privileged
          · rw [Context.stackTop, if_neg privileged, StackedKernel.tss, stackTop,
              stackOffset_kernelStackTop low high]
        · exact room

/-- What a suspended process has on its stack is kept until it runs again. -/
theorem lastInterrupted_of_run {start s : StackedKernel} {history : List StackRecord}
    (booted : Booted start.kernel) (run : Run (StackStep code) start history s) {p : Int}
    {frame : Word}
    (suspended : LastSuspension (history.map StackRecord.record) p frame) :
    0 ≤ p ∧ p ≤ 6 ∧ ∃ context, LastInterrupted history p frame context ∧
      SuspendedOn code.sites s.memory p frame context := by
  induction run with
  | nil =>
      obtain ⟨earlier, record, later, isHistory, _⟩ := suspended
      simp at isHistory
  | @snoc events middle finish last before taken earlier =>
      rw [List.map_append, List.map_cons, List.map_nil] at suspended
      rcases LastWrite.concat_cases suspended with ⟨runs, suspends⟩ | ⟨older, idle⟩
      · obtain ⟨vector, handler, isVector, interrupts, isFrame, keeps⟩ :=
          taken.suspends frame suspends
        obtain ⟨genuine, notSystemCall⟩ := Event.vector_genuine isVector
        obtain ⟨a, _, represents⟩ := booted.run (StackStep.run before)
        have running := represents.runningPid
        have range := represents.numbered.range ⟨a.current, List.mem_of_mem_head? running⟩
        have stackTop := (represents.runs _ running).stackTop
        have own : middle.kernel.runningPid = p := by
          rw [← runs, Record.running, taken.step.before]
        have onStack := interrupts.suspendedOn genuine notSystemCall (by omega) range.2 stackTop
        rw [own, isFrame] at onStack
        rw [own] at keeps range
        refine ⟨by omega, range.2, last.context, lastWrite_concat ⟨runs, suspends, rfl⟩, ?_⟩
        exact onStack.congr keeps
      · obtain ⟨low, high, context, interrupted, onStack⟩ := earlier older
        refine ⟨low, high, context, LastWrite.concat interrupted idle, ?_⟩
        exact onStack.congr fun address _ inStack =>
          taken.keeps p low high (Ne.symm idle) address inStack

/-- The process `top` gets the processor in the context in which it lost it last. -/
structure Continues (code : KernelCode) (history : List StackRecord) (s next : StackedKernel)
    (schedEbp : Word) (top : Int) (context : Context) : Prop where
  resumed : next.kernel.runningPid = top
  waited : s.kernel.runningPid ≠ top
  interrupted : LastInterrupted history top schedEbp context
  back : ∀ cpu : Cpu, cpu.ss = kernelDs.setWidth 32 → read cpu.memory (cpu.esp + 4) = schedEbp →
    (∀ address, InStack top address → cpu.memory address = s.memory address) →
    returnToParent code.sites code.flags cpu = .back context cpu.memory

/-- A process that is given the processor again goes on with every register, its flags and
its stack as they were when the timer or the keyboard interrupted it. -/
theorem preemption {start s next : StackedKernel} {history : List StackRecord}
    {record : StackRecord} {schedEbp : Word} (booted : Booted start.kernel)
    (run : Run (StackStep code) start history s) (step : StackStep code s record next)
    (switches : record.record.outcome = .switches schedEbp) :
    ∃ top context, Continues code history s next schedEbp top context := by
  obtain ⟨a, performed, represents⟩ := booted.run (StackStep.run run)
  obtain ⟨top, loads⟩ := represents.loadsSuspended performed step.step switches
  obtain ⟨_, _, context, interrupted, onStack⟩ := lastInterrupted_of_run booted run loads.saved
  refine ⟨top, context, loads.resumed, loads.waiting, interrupted, ?_⟩
  intro cpu segment isFrame same
  have kept := onStack.congr fun address _ inStack => same address inStack
  have suspended := kept.suspended
  rw [← isFrame] at suspended
  apply suspended.returnToParent
  intro privileged
  exact segment.trans (onStack.segment privileged).symm

theorem inStack_disjoint {pid other : Int} {address : Word} (low : 0 ≤ pid) (high : pid ≤ 6)
    (otherLow : 0 ≤ other) (otherHigh : other ≤ 6) (different : pid ≠ other)
    (inStack : InStack pid address) : ¬InStack other address := by
  intro inOther
  have base := pcbAddr_toNat low high
  have otherBase := pcbAddr_toNat otherLow otherHigh
  have place := inStack.2
  have otherPlace := inOther.2
  rw [stackOffset] at place otherPlace
  generalize pcbAddr pid = block at base place
  generalize pcbAddr other = otherBlock at otherBase otherPlace
  bv_omega

theorem Event.vector_linkage {event : Event} {vector : Byte}
    (isVector : event.vector = some vector) :
    ∃ label linkage device, linkageOf vector = some label ∧ label ≠ .systemCall ∧
      label.intLinkage = some linkage ∧ excHandlerDevice linkage.vector = some device := by
  cases event <;> cases isVector
  case pit => exact ⟨.pit, _, .pit, by decide, by decide, rfl, by decide⟩
  case key => exact ⟨.keyboard, _, .keyboard, by decide, by decide, rfl, by decide⟩
  case rtc => exact ⟨.rtc, _, .rtc, by decide, by decide, rfl, by decide⟩

theorem Record.Suspends.event {record : Record} {frame : Word}
    (suspends : record.Suspends frame) :
    (∃ vector, record.event.vector = some vector) ∧
      ∀ other, record.Suspends other → other = frame := by
  rcases suspends with ⟨at', locals, schedEbp, isEvent, isOutcome, rfl⟩ |
    ⟨at', inner, locals, scanCode, after, started, isEvent, isOutcome, rfl⟩
  · refine ⟨⟨0x20, by rw [isEvent]; rfl⟩, ?_⟩
    rintro other (⟨_, _, _, same, _, rfl⟩ | ⟨_, _, _, _, _, _, same, _, rfl⟩)
    · rw [isEvent] at same
      cases same
      rfl
    · rw [isEvent] at same
      cases same
  · refine ⟨⟨0x21, by rw [isEvent]; rfl⟩, ?_⟩
    rintro other (⟨_, _, _, same, _, rfl⟩ | ⟨_, _, _, _, _, _, same, _, rfl⟩)
    · rw [isEvent] at same
      cases same
    · rw [isEvent] at same
      cases same
      rfl

/-- The program of a process can be interrupted so that the handler gets a frame for which the
stack has room. -/
theorem exists_handlerFrame (code : KernelCode) (s : StackedKernel) {vector : Byte}
    {event : Event} {frame : Word} (isVector : event.vector = some vector)
    (low : 0 ≤ s.kernel.runningPid) (high : s.kernel.runningPid ≤ 6)
    (stackTop : s.kernel.tssEsp0 = kernelStackTop s.kernel.runningPid)
    (above : pcbBytes ≤ stackOffset s.kernel.runningPid frame)
    (below : stackOffset s.kernel.runningPid frame + 76 ≤ 0x2000) :
    ∃ handler, Interrupts code s (sampleContext 0) vector handler ∧
      handler.get .ebp = frame := by
  obtain ⟨label, linkage, device, isGate, notSystemCall, isLinkage, calls⟩ :=
    Event.vector_linkage isVector
  have delivers := deliver_kernelIdt code.address code.idtLocal (sampleContext 0) s.tss
    s.memory vector .device
  have reaches : (sampleContext 0).Reaches label .device :=
    (by decide : (sampleContext 0).Interruptible)
  rw [isGate, Option.bind_some, if_pos reaches, decide_eq_false notSystemCall] at delivers
  have user : ¬(sampleContext 0).Privileged := by decide
  have bytes : (sampleContext 0).pushedBytes none = 64 := by decide
  have isTop : (sampleContext 0).stackTop s.tss = kernelStackTop s.kernel.runningPid := by
    rw [Context.stackTop, if_neg user, StackedKernel.tss, stackTop]
  have top := stackOffset_kernelStackTop low high
  have shows := (sampleContext 0).entry_shows s.tss s.memory false vector .device
  generalize (sampleContext 0).entry s.tss s.memory false vector .device = cpu at delivers shows
  have framed := (@excHandlerFrame_interrupted code.sites code.flags _ _ _ _ _ shows isLinkage
    ((Event.vector_genuine isVector).1.takes
      (mem_of_linkageOf isGate (Event.vector_genuine isVector).2) isLinkage)).1
  have path := fun body => @Interrupts.intro code s (sampleContext 0) vector _ label linkage
    device body delivers rfl isLinkage calls
  have isHandler := fun body =>
    deviceHandler_ebp code.sites code.flags label linkage device body cpu
  rw [bytes, isTop] at framed path
  generalize isFrame : excHandlerFrame code.sites code.flags label linkage cpu = framedCpu at *
  let body : Body :=
    ⟨framedCpu.registers, framedCpu.eflags, framedCpu.memory, framedCpu.get .ebp - frame - 8⟩
  refine ⟨_, path body (fun _ _ => rfl) (fun privileged => (user privileged).elim)
    (fun privileged => (user privileged).elim) ?_, (isHandler body).trans ?_⟩
  · have isEbp : framedCpu.get .ebp = kernelStackTop s.kernel.runningPid - 68 := by
      generalize kernelStackTop s.kernel.runningPid = top at framed
      bv_omega
    have locals : body.locals = kernelStackTop s.kernel.runningPid - 68 - frame - 8 := by
      rw [← isEbp]
    rw [locals, top]
    rw [stackOffset] at above below top
    generalize kernelStackTop s.kernel.runningPid = top at *
    generalize pcbAddr s.kernel.runningPid = base at *
    rw [pcbBytes] at above ⊢
    bv_omega
  · have locals : body.locals = framedCpu.get .ebp - frame - 8 := rfl
    rw [locals]
    bv_omega

/-- The stack has room for an interrupt with this frame of the handler. -/
def Roomy (pid : Int) (frame : Word) : Prop :=
  pcbBytes ≤ stackOffset pid frame ∧ stackOffset pid frame + 76 ≤ 0x2000

instance (pid : Int) (frame : Word) : Decidable (Roomy pid frame) :=
  inferInstanceAs (Decidable (_ ∧ _))

instance (pid : Int) (address : Word) : Decidable (InStack pid address) :=
  inferInstanceAs (Decidable (_ ∧ _))

theorem exists_stackStep (code : KernelCode) {s : StackedKernel} {record : Record}
    {next : Kernel} (step : Step s.kernel record next) (low : 0 ≤ s.kernel.runningPid)
    (high : s.kernel.runningPid ≤ 6)
    (stackTop : s.kernel.tssEsp0 = kernelStackTop s.kernel.runningPid)
    (roomy : ∀ frame, record.Suspends frame → Roomy record.running frame) :
    ∃ context memory, StackStep code s ⟨record, context⟩ ⟨next, memory⟩ := by
  have running : record.running = s.kernel.runningPid := by
    rw [Record.running, step.before]
  rw [running] at roomy
  by_cases any : ∃ frame, record.Suspends frame
  · obtain ⟨frame, suspends⟩ := any
    obtain ⟨⟨vector, isVector⟩, only⟩ := suspends.event
    obtain ⟨above, below⟩ := roomy frame suspends
    obtain ⟨handler, interrupts, isFrame⟩ :=
      exists_handlerFrame code s isVector low high stackTop above below
    refine ⟨sampleContext 0, fun address =>
      if InStack s.kernel.runningPid address then handler.memory address else s.memory address,
      step, ?_, ?_⟩
    · intro pid pidLow pidHigh different address inStack
      rw [running] at different
      exact if_neg (inStack_disjoint pidLow pidHigh low high different inStack)
    · intro other otherSuspends
      rw [only other otherSuspends]
      refine ⟨vector, handler, isVector, interrupts, isFrame, ?_⟩
      intro address _ inStack
      exact if_pos inStack
  · refine ⟨sampleContext 0, s.memory, step, fun _ _ _ _ _ _ => rfl, ?_⟩
    intro frame suspends
    exact (any ⟨frame, suspends⟩).elim

/-- A run of the kernel that leaves room on its stacks is one of the kernel with its stacks. -/
theorem exists_stackRun (code : KernelCode) {start final : Kernel} {history : List Record}
    (memory : Word → Byte) (booted : Booted start) (run : Run Step start history final)
    (roomy : ∀ record ∈ history, ∀ frame, record.Suspends frame → Roomy record.running frame) :
    ∃ stackHistory last, Run (StackStep code) ⟨start, memory⟩ stackHistory ⟨final, last⟩ ∧
      stackHistory.map StackRecord.record = history := by
  induction run with
  | nil => exact ⟨[], memory, .nil, rfl⟩
  | @snoc events middle finish last before taken earlier =>
      obtain ⟨stackHistory, present, stackRun, isHistory⟩ :=
        earlier fun record member => roomy record (by simp [member])
      obtain ⟨a, _, represents⟩ := booted.run before
      have running := represents.runningPid
      have range := represents.numbered.range ⟨a.current, List.mem_of_mem_head? running⟩
      obtain ⟨context, later, step⟩ := @exists_stackStep code ⟨middle, present⟩ _ _ taken
        (Int.le_trans (by decide) range.1) range.2 (represents.runs _ running).stackTop
        (roomy last (by simp))
      refine ⟨_, later, stackRun.snoc step, ?_⟩
      rw [List.map_append, isHistory]
      rfl

/-- The test of a suspension on the event. -/
def Record.RoomyEvent (record : Record) : Prop :=
  match record.event with
  | .pit frame _ => Roomy record.running frame.ebp
  | .key frame _ _ _ _ => Roomy record.running frame.ebp
  | _ => True

instance (record : Record) : Decidable record.RoomyEvent :=
  match record with
  | ⟨_, .pit _ _, _⟩ | ⟨_, .key _ _ _ _ _, _⟩ => inferInstanceAs (Decidable (Roomy _ _))
  | ⟨_, .execute _ _ _, _⟩ | ⟨_, .halt _ _ _ _ _, _⟩ | ⟨_, .vidmap _ _ _, _⟩
  | ⟨_, .terminalWrite _ _, _⟩ | ⟨_, .readStart _, _⟩ | ⟨_, .readLine _, _⟩
  | ⟨_, .rtcWrite _, _⟩ | ⟨_, .rtc, _⟩ => .isTrue trivial

theorem Record.RoomyEvent.roomy {record : Record} {frame : Word} (roomy : record.RoomyEvent)
    (suspends : record.Suspends frame) : Roomy record.running frame := by
  rw [RoomyEvent] at roomy
  rcases suspends with ⟨at', locals, schedEbp, isEvent, _, rfl⟩ |
    ⟨at', inner, locals, scanCode, after, started, isEvent, _, rfl⟩
  · rw [isEvent] at roomy
    exact roomy
  · rw [isEvent] at roomy
    exact roomy

def sampleCode : KernelCode where
  sites := sampleSites
  flags := fun _ => 0
  address := fun label => sampleSites.place (.linkage label)
  distinct := by
    intro label other same
    have sites := congrArg sampleSites.siteAt same
    rw [sampleSites.siteAt_place, sampleSites.siteAt_place] at sites
    cases sites
    rfl
  idtLocal := 0

def Outcome.isSwitch : Outcome → Bool
  | .switches _ => true
  | .continues | .starts _ | .resumes _ => false

/-- The second terminal is booted, and the timer gives the processor back to the program of the
first one. -/
theorem preemption_sampleTour :
    ∃ history s next schedEbp top context,
      Run (StackStep sampleCode) ⟨sampleStart, fun _ => 0⟩ history s ∧
        Continues sampleCode history s next schedEbp top context := by
  obtain ⟨history, final, run, length, switch, roomy⟩ :=
    @Kernel.run_of_replay sampleStart (sampleTour.take 4)
      (fun history _ => history.length = 4 ∧
        (history.getLast?.any fun record => record.outcome.isSwitch) = true ∧
        ∀ record ∈ history, record.RoomyEvent) _ (by decide +kernel)
  obtain ⟨stackHistory, last, stackRun, isHistory⟩ :=
    exists_stackRun sampleCode (fun _ => 0) sampleStart_booted run
      fun record member frame suspends => (roomy record member).roomy suspends
  rcases List.eq_nil_or_concat stackHistory with rfl | ⟨earlier, record, rfl⟩
  · rw [← isHistory] at length
    cases length
  · rw [List.concat_eq_append] at stackRun isHistory
    obtain ⟨s, before, taken⟩ := stackRun.split
    rw [← isHistory, List.map_append, List.map_cons, List.map_nil,
      List.getLast?_append_cons, List.getLast?_singleton, Option.any_some] at switch
    cases isOutcome : record.record.outcome with
    | switches schedEbp =>
        obtain ⟨top, context, continues⟩ :=
          preemption sampleStart_booted before taken.singleton isOutcome
        exact ⟨_, _, _, _, top, context, before, continues⟩
    | continues | starts | resumes =>
        rw [isOutcome] at switch
        cases switch

end LightweightOs
