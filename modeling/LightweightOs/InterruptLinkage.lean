import LightweightOs.InterruptTable

/-!
# The interrupt linkage

`INT_LINKAGE` saves the registers of the interrupted code, gives `exc_handler`
the vector, and takes everything back off the stack.  The C functions in between
keep their frame pointers, so that `exc_handler` finds its own frame again when
the handler of a device returns to it; `return_to_parent` enters that return
from the frame of another process.
-/

namespace LightweightOs.Linkage

open DownStack

/-- The devices whose handlers `exc_handler` calls. -/
inductive Device where
  | rtc | keyboard | pit
  deriving DecidableEq

/-- The instruction behind a call. -/
inductive Site where
  /-- behind `call exc_handler` in a linkage -/
  | linkage (label : LinkageLabel)
  /-- behind the call of a device's handler in `exc_handler` -/
  | excHandler (device : Device)
  deriving DecidableEq

/-- Where the linker put the sites. -/
structure Sites where
  place : Site → Word
  siteAt : Word → Option Site
  siteAt_place : ∀ site, siteAt (place site) = some site

namespace Cpu

variable (flags : Cpu → Word)

/-- `pushal` -/
def pushal (cpu : Cpu) : Cpu :=
  ((cpu.exec flags [.pushl .eax, .pushl .ecx, .pushl .edx, .pushl .ebx]).push cpu.esp).exec
    flags [.pushl .ebp, .pushl .esi, .pushl .edi]

/-- `popal`, which skips the word in the place of `esp`. -/
def popal (cpu : Cpu) : Cpu :=
  (cpu.exec flags [.popl .edi, .popl .esi, .popl .ebp]).pop.2.exec
    flags [.popl .ebx, .popl .edx, .popl .ecx, .popl .eax]

end Cpu

section Code

variable (sites : Sites) (flags : Cpu → Word)

/-- `INT_LINKAGE` up to the entry of `exc_handler`. -/
def intLinkage (label : LinkageLabel) (linkage : IntLinkage) (cpu : Cpu) : Cpu :=
  ((cpu.pushal flags).exec flags [.pushfl, .pushlValue linkage.vector]).push
    (sites.place (.linkage label))

/-- `INT_LINKAGE` from the return of `exc_handler` on. -/
def afterExcHandler (linkage : IntLinkage) (cpu : Cpu) : Ending :=
  let cpu := (cpu.exec flags [.addl 4 .esp, .popfl]).popal flags
  .back (cpu.exec flags [.addl linkage.hasErrorCode .esp]).iret cpu.memory

/-- The `ret` of `exc_handler`. -/
def excHandlerRet (cpu : Cpu) : Ending :=
  match sites.siteAt cpu.pop.1 with
  | some (.linkage label) =>
      match label.intLinkage with
      | some linkage => afterExcHandler flags linkage cpu.pop.2
      | none => .astray cpu.pop.1 cpu.pop.2
  | some (.excHandler _) | none => .astray cpu.pop.1 cpu.pop.2

/-- `leave` -/
def leave (cpu : Cpu) : Cpu := cpu.exec flags [.movl .ebp .esp, .popl .ebp]

/-- The `ret` of a device's handler, and `exc_handler` from there on: it has nothing to do
after the call. -/
def deviceRet (cpu : Cpu) : Ending :=
  match sites.siteAt cpu.pop.1 with
  | some (.excHandler _) => excHandlerRet sites flags (leave flags cpu.pop.2)
  | some (.linkage _) | none => .astray cpu.pop.1 cpu.pop.2

/-- `return_to_parent` -/
def returnToParent (cpu : Cpu) : Ending :=
  deviceRet sites flags
    (cpu.exec flags [.movlStack 4 .ebp, .movl .ebp .esp, .popl .ebp])

/-- What a C function has done up to a call: its locals take some bytes below its frame. -/
structure Body where
  registers : Register → Word
  eflags : Word
  memory : Word → Byte
  locals : Word

/-- The C function keeps its frame pointer. -/
def Cpu.body (cpu : Cpu) (body : Body) : Cpu :=
  { cpu with
    registers :=
      assign (assign body.registers .ebp (cpu.get .ebp)) .esp (cpu.get .ebp - body.locals)
    eflags := body.eflags
    memory := body.memory }

/-- From the entry of a linkage to the frame of the handler that `exc_handler` calls. -/
def deviceHandler (label : LinkageLabel) (linkage : IntLinkage) (device : Device)
    (body : Body) (cpu : Cpu) : Cpu :=
  let cpu := prologue flags (intLinkage sites flags label linkage cpu)
  prologue flags ((cpu.body body).push (sites.place (.excHandler device)))

end Code

variable {sites : Sites} {flags : Cpu → Word} {cpu : Cpu} {context : Context} {tss : Tss}
  {memory : Word → Byte} {label : LinkageLabel} {linkage : IntLinkage} {device : Device}

/-- What the stack holds from the return address of `exc_handler` on. -/
def Context.pushed (context : Context) (sites : Sites) (label : LinkageLabel)
    (linkage : IntLinkage) (kernelFlags esp : Word) (code : Option Word) : List Word :=
  [sites.place (.linkage label), linkage.vector, kernelFlags, context.registers .edi,
    context.registers .esi, context.registers .ebp, esp, context.registers .ebx,
    context.registers .edx, context.registers .ecx, context.registers .eax] ++
    (code.toList ++ context.frame)

/-- The linkage takes an error code from the stack exactly if there is one. -/
def Takes (linkage : IntLinkage) (code : Option Word) : Prop :=
  linkage.hasErrorCode = if code.isSome then errorCode else noErrorCode

/-- The words of an interrupted context, from the return address of `exc_handler` on; code of
the kernel is interrupted on its own stack. -/
structure Context.Interrupted (context : Context) (sites : Sites) (memory : Word → Byte)
    (sp : Word) (label : LinkageLabel) (linkage : IntLinkage) (code : Option Word) : Prop where
  isLinkage : label.intLinkage = some linkage
  matched : Takes linkage code
  stacked : ∃ kernelFlags esp,
    Stacked memory sp (context.pushed sites label linkage kernelFlags esp code)
  kernel : context.Privileged →
    sp + 56 + linkage.hasErrorCode = context.registers .esp

theorem Context.frame_stacked {words : List Word} {sp : Word}
    (stacked : Stacked memory sp (words ++ context.frame)) :
    ∃ esp ss, Stacked memory sp
        (words ++ [context.eip, context.cs, context.eflags, esp, ss]) ∧
      (¬context.Privileged → esp = context.registers .esp ∧ ss = context.ss) := by
  by_cases privileged : context.Privileged
  · obtain ⟨behind, length, others⟩ :=
      exists_stacked memory (sp + BitVec.ofNat 32 (4 * (words ++ context.frame).length)) 2
    match behind, length with
    | [esp, ss], _ =>
        refine ⟨esp, ss, ?_, fun outer => (outer privileged).elim⟩
        have all := stacked_append.mpr ⟨stacked, others⟩
        rw [frame, if_pos privileged, List.append_nil, List.append_assoc] at all
        exact all
  · rw [frame, if_neg privileged] at stacked
    exact ⟨_, _, stacked, fun _ => ⟨rfl, rfl⟩⟩

theorem Cpu.Shows.addl {view : View} {value : Word} {stack : List Word}
    (shows : cpu.Shows view) (stacked : Stacked cpu.memory (view.sp + value) stack) :
    (cpu.step flags (.addl value .esp)).Shows
      { view with sp := view.sp + value, stack := stack } := by
  constructor
  · intro register notEsp
    exact (assign_of_ne notEsp _ _).trans (shows.registers register notEsp)
  · apply (assign_self cpu.registers .esp _).trans
    exact congrArg (· + value) shows.sp
  · exact stacked

theorem Cpu.Shows.popal {view : View} {rest : List Word}
    {edi esi ebp skipped ebx edx ecx eax : Word} (shows : cpu.Shows view)
    (stack : view.stack = edi :: esi :: ebp :: skipped :: ebx :: edx :: ecx :: eax :: rest) :
    (cpu.popal flags).Shows
      ⟨poppedRegisters eax ebx ecx edx esi edi ebp (view.registers .esp), view.sp + 32, rest⟩ := by
  obtain ⟨registers, sp, stack⟩ := view
  simp only at stack
  subst stack
  have first : (cpu.exec flags [.popl .edi, .popl .esi, .popl .ebp]).Shows
      ⟨assign (assign (assign registers .edi edi) .esi esi) .ebp ebp, sp + 4 + 4 + 4,
        skipped :: ebx :: edx :: ecx :: eax :: rest⟩ :=
    shows.exec rfl
  obtain ⟨_, behind⟩ := first.pop rfl
  have last : (cpu.popal flags).Shows
      ⟨assign (assign (assign (assign (assign (assign (assign registers .edi edi) .esi esi)
        .ebp ebp) .ebx ebx) .edx edx) .ecx ecx) .eax eax,
        sp + 4 + 4 + 4 + 4 + 4 + 4 + 4 + 4, rest⟩ :=
    behind.exec rfl
  have place : sp + 4 + 4 + 4 + 4 + 4 + 4 + 4 + 4 = sp + 32 := by
    simp only [BitVec.add_assoc]
    rfl
  rw [place] at last
  refine ⟨?_, last.sp, last.stack⟩
  intro register notEsp
  apply (last.registers register notEsp).trans
  cases register <;> rfl

theorem afterExcHandler_eq {registers : Register → Word} {code : Option Word}
    {sp vector kernelFlags skipped edi esi ebp ebx edx ecx eax eip cs eflags esp ss : Word}
    (takes : Takes linkage code)
    (shows : cpu.Shows ⟨registers, sp, [vector, kernelFlags, edi, esi, ebp, skipped, ebx, edx,
      ecx, eax] ++ (code.toList ++ [eip, cs, eflags, esp, ss])⟩) :
    afterExcHandler flags linkage cpu =
      .back
        ⟨poppedRegisters eax ebx ecx edx esi edi ebp
            (if cs &&& 3 = 0 then sp + 52 + linkage.hasErrorCode else esp),
          eflags, eip, cs, if cs &&& 3 = 0 then cpu.ss else ss⟩
        cpu.memory := by
  have argument : (cpu.exec flags [.addl 4 .esp, .popfl]).Shows
      ⟨registers, sp + 4 + 4, [edi, esi, ebp, skipped, ebx, edx, ecx, eax] ++
        (code.toList ++ [eip, cs, eflags, esp, ss])⟩ :=
    (@Cpu.Shows.addl flags _ _ _ _ shows shows.stack.2).exec rfl
  have popped := @Cpu.Shows.popal flags _ _ _ _ _ _ _ _ _ _ _ argument rfl
  have behind : Stacked ((cpu.exec flags [.addl 4 .esp, .popfl]).popal flags).memory
      (sp + 4 + 4 + 32 + linkage.hasErrorCode) [eip, cs, eflags, esp, ss] := by
    have stack := popped.stack
    rw [takes]
    cases code with
    | none =>
        rw [Option.isSome_none, if_neg (by decide), noErrorCode, BitVec.add_zero]
        exact stack
    | some code => exact stack.2
  have dropped := @Cpu.Shows.addl flags _ _ _ _ popped behind
  have place : sp + 4 + 4 + 32 + linkage.hasErrorCode + 12 =
      sp + 52 + linkage.hasErrorCode := by
    generalize linkage.hasErrorCode = code
    bv_omega
  rw [afterExcHandler]
  apply congrArg₂ Ending.back _ rfl
  apply (Cpu.iret_eq dropped rfl).trans
  simp only [place]
  rfl

theorem Context.eq_of_registers (context : Context) :
    context =
      ⟨poppedRegisters (context.registers .eax) (context.registers .ebx)
          (context.registers .ecx) (context.registers .edx) (context.registers .esi)
          (context.registers .edi) (context.registers .ebp) (context.registers .esp),
        context.eflags, context.eip, context.cs, context.ss⟩ := by
  rw [← Context.answered_eq, Context.answered, assign, Function.update_eq_self]

/-- The return of `exc_handler` to the words of a context goes back to this context. -/
theorem Context.Interrupted.back {code : Option Word}
    (interrupted : context.Interrupted sites cpu.memory cpu.esp label linkage code)
    (ss : context.Privileged → cpu.ss = context.ss) :
    excHandlerRet sites flags cpu = .back context cpu.memory := by
  obtain ⟨isLinkage, takes, ⟨kernelFlags, skipped, stacked⟩, kernel⟩ := interrupted
  rw [Context.pushed, ← List.append_assoc] at stacked
  obtain ⟨esp, stackSegment, stacked, outer⟩ := Context.frame_stacked stacked
  rw [List.append_assoc] at stacked
  have start : cpu.Shows ⟨cpu.registers, cpu.esp, _⟩ := ⟨fun _ _ => rfl, rfl, stacked⟩
  obtain ⟨isSite, after⟩ := start.pop rfl
  have returns := @afterExcHandler_eq flags _ _ _ _ _ _ _ _ _ _ _ _ _ _ _ _ _ _ _ _ takes after
  have place : cpu.esp + 4 + 52 + linkage.hasErrorCode = cpu.esp + 56 + linkage.hasErrorCode := by
    generalize cpu.esp = sp
    generalize linkage.hasErrorCode = code
    bv_omega
  have isLabel : sites.siteAt cpu.pop.1 = some (.linkage label) := by
    rw [isSite]
    exact sites.siteAt_place (.linkage label)
  have unchanged : cpu.pop.2.memory = cpu.memory := rfl
  have same : cpu.pop.2.ss = cpu.ss := rfl
  rw [excHandlerRet, isLabel]
  simp only [isLinkage]
  rw [returns, unchanged, same]
  apply congrArg₂ Ending.back _ rfl
  apply Eq.trans _ context.eq_of_registers.symm
  by_cases privileged : context.Privileged
  · have inner : context.cs &&& 3 = 0 := privileged
    rw [if_pos inner, if_pos inner, place, kernel privileged, ss privileged]
  · have isOuter : ¬context.cs &&& 3 = 0 := privileged
    rw [if_neg isOuter, if_neg isOuter, (outer privileged).1, (outer privileged).2]

/-- The frame of a device's handler from which `exc_handler` and the linkage go back to a
context. -/
structure Context.Suspended (context : Context) (sites : Sites) (memory : Word → Byte)
    (frame : Word) : Prop where
  found : ∃ device outer label linkage code,
    Stacked memory frame [outer, sites.place (.excHandler device)] ∧
      context.Interrupted sites memory (outer + 4) label linkage code

theorem Context.Suspended.back (suspended : context.Suspended sites cpu.memory cpu.esp)
    (ss : context.Privileged → cpu.ss = context.ss) :
    deviceRet sites flags (cpu.exec flags [.popl .ebp]) = .back context cpu.memory := by
  obtain ⟨device, outer, label, linkage, code, frame, interrupted⟩ := suspended.found
  have start : cpu.Shows ⟨cpu.registers, cpu.esp, _⟩ := ⟨fun _ _ => rfl, rfl, frame⟩
  have popped : (cpu.exec flags [.popl .ebp]).Shows
      ⟨assign cpu.registers .ebp outer, cpu.esp + 4, [sites.place (.excHandler device)]⟩ :=
    start.exec rfl
  obtain ⟨isSite, after⟩ := popped.pop rfl
  have isHandler : sites.siteAt (cpu.exec flags [.popl .ebp]).pop.1 =
      some (.excHandler device) := by
    rw [isSite]
    exact sites.siteAt_place (.excHandler device)
  rw [deviceRet, isHandler]
  -- `leave` goes to the frame of `exc_handler`
  have isFrame : (cpu.exec flags [.popl .ebp]).pop.2.get .ebp = outer := by
    apply (after.registers .ebp (by decide)).trans
    exact assign_self cpu.registers .ebp outer
  generalize isDevice : (cpu.exec flags [.popl .ebp]).pop.2 = device at isFrame
  have unchanged : device.memory = cpu.memory := isDevice ▸ rfl
  have same : device.ss = cpu.ss := isDevice ▸ rfl
  have top : (leave flags device).esp = outer + 4 := by
    have moved : (leave flags device).esp = device.get .ebp + 4 := rfl
    rw [moved, isFrame]
  have memory : (leave flags device).memory = cpu.memory := unchanged
  have segment : (leave flags device).ss = cpu.ss := same
  rw [← memory, ← top] at interrupted
  rw [← segment] at ss
  have returns := @Context.Interrupted.back sites flags _ _ _ _ _ interrupted ss
  rw [memory] at returns
  exact returns

/-- A handler that ends goes back to the context that it interrupted. -/
theorem Context.Suspended.ends (suspended : context.Suspended sites cpu.memory (cpu.get .ebp))
    (ss : context.Privileged → cpu.ss = context.ss) :
    deviceRet sites flags (leave flags cpu) = .back context cpu.memory :=
  @Context.Suspended.back sites flags (cpu.exec flags [.movl .ebp .esp]) _ suspended ss

/-- `return_to_parent` goes back to the context whose frame it is given. -/
theorem Context.Suspended.returnToParent
    (suspended : context.Suspended sites cpu.memory (read cpu.memory (cpu.esp + 4)))
    (ss : context.Privileged → cpu.ss = context.ss) :
    returnToParent sites flags cpu = .back context cpu.memory :=
  @Context.Suspended.back sites flags
    (cpu.exec flags [.movlStack 4 .ebp, .movl .ebp .esp]) _ suspended ss

namespace Context

/-- The error code that is pushed. -/
def errorCode (vector : Byte) : Cause → Option Word
  | .exception code => if pushesErrorCode vector then some code else none
  | .device | .instruction => none

/-- The stack pointer at the first instruction of a linkage. -/
def linkageEsp (context : Context) (tss : Tss) (code : Option Word) : Word :=
  if code.isSome then context.kernelEsp tss - 4 else context.kernelEsp tss

theorem throughGate_shows (context : Context) (tss : Tss) (memory : Word → Byte)
    (isTrap : Bool) :
    (context.throughGate tss memory isTrap).Shows
      ⟨context.registers, context.kernelEsp tss, context.frame⟩ := by
  have shows := interrupt_shows context tss memory
  rw [throughGate]
  cases isTrap with
  | true => exact shows
  | false => exact ⟨shows.registers, shows.sp, shows.stack⟩

theorem entry_shows (context : Context) (tss : Tss) (memory : Word → Byte) (isTrap : Bool)
    (vector : Byte) (cause : Cause) :
    (context.entry tss memory isTrap vector cause).Shows
      ⟨context.registers, context.linkageEsp tss (errorCode vector cause),
        (errorCode vector cause).toList ++ context.frame⟩ := by
  have shows := throughGate_shows context tss memory isTrap
  cases cause with
  | device => exact shows
  | instruction => exact shows
  | exception code =>
      rw [entry, errorCode]
      by_cases pushes : pushesErrorCode vector
      · rw [if_pos pushes, if_pos pushes]
        rcases context.frame_cases with frame | frame <;> rw [frame] at shows ⊢
        · exact shows.push rfl
        · exact shows.push rfl
      · rw [if_neg pushes, if_neg pushes]
        exact shows

end Context

theorem Cpu.Shows.pushWord {registers : Register → Word} {sp : Word} {stack : List Word}
    (shows : cpu.Shows ⟨registers, sp, stack⟩) (short : stack.length < 256) (value : Word) :
    (cpu.push value).Shows ⟨registers, sp - 4, value :: stack⟩ :=
  shows.push (if_pos short)

theorem Cpu.Shows.pushRegisters {registers : Register → Word} {sp : Word} {stack : List Word}
    (shows : cpu.Shows ⟨registers, sp, stack⟩) (sources : List Register)
    (notEsp : .esp ∉ sources) (short : sources.length + stack.length < 256) :
    (cpu.exec flags (sources.map .pushl)).Shows
      ⟨registers, sp - BitVec.ofNat 32 (4 * sources.length),
        (sources.map registers).reverse ++ stack⟩ := by
  induction sources generalizing cpu sp stack with
  | nil =>
      rw [List.length_nil, Nat.mul_zero, BitVec.sub_zero]
      exact shows
  | cons source sources induction =>
      rw [List.mem_cons, not_or] at notEsp
      rw [List.length_cons] at short
      have same : cpu.registers source = registers source :=
        shows.registers source (Ne.symm notEsp.1)
      have pushed : (cpu.push (cpu.registers source)).Shows
          ⟨registers, sp - 4, registers source :: stack⟩ := by
        rw [← same]
        exact shows.pushWord (by omega) _
      have later := induction pushed notEsp.2 (by rw [List.length_cons]; omega)
      have place : sp - 4 - BitVec.ofNat 32 (4 * sources.length) =
          sp - BitVec.ofNat 32 (4 * (sources.length + 1)) := by
        rw [Nat.mul_add, Nat.add_comm, BitVec.ofNat_add]
        bv_omega
      rw [place] at later
      rw [List.map_cons, List.map_cons, List.reverse_cons, List.append_assoc, Cpu.exec_cons]
      exact later

theorem Cpu.Shows.pushal {registers : Register → Word} {sp : Word} {stack : List Word}
    (shows : cpu.Shows ⟨registers, sp, stack⟩) (short : stack.length < 200) :
    ∃ esp, (cpu.pushal flags).Shows ⟨registers, sp - 32,
      registers .edi :: registers .esi :: registers .ebp :: esp :: registers .ebx ::
        registers .edx :: registers .ecx :: registers .eax :: stack⟩ := by
  have length : ∀ words : List Word, words.length ≤ 8 → (words ++ stack).length < 210 := by
    intro words few
    rw [List.length_append]
    omega
  have first := @Cpu.Shows.pushRegisters flags _ _ _ _ shows [.eax, .ecx, .edx, .ebx]
    (by decide) (Nat.add_lt_add_left (length [] (by decide)) 4 |>.trans (by decide))
  have second := first.pushWord ((length _ (by simp)).trans (by decide)) cpu.esp
  have third := @Cpu.Shows.pushRegisters flags _ _ _ _ second [.ebp, .esi, .edi]
    (by decide) (Nat.add_lt_add_left (length (_ :: _) (by simp)) 3 |>.trans (by decide))
  have place : sp - BitVec.ofNat 32 (4 * 4) - 4 - BitVec.ofNat 32 (4 * 3) = sp - 32 := by
    bv_omega
  refine ⟨cpu.esp, ?_⟩
  rw [← place]
  exact third

theorem intLinkage_shows {sp : Word} {code : Option Word}
    (shows : cpu.Shows ⟨context.registers, sp, code.toList ++ context.frame⟩) :
    ∃ kernelFlags esp, (intLinkage sites flags label linkage cpu).Shows
      ⟨context.registers, sp - 44,
        context.pushed sites label linkage kernelFlags esp code⟩ := by
  have few : (code.toList ++ context.frame).length ≤ 6 := by
    rcases context.frame_cases with frame | frame <;> rw [frame] <;> cases code <;> simp
  have place : sp - 32 - 4 - 4 - 4 = sp - 44 := by
    bv_omega
  obtain ⟨esp, saved⟩ := @Cpu.Shows.pushal flags _ _ _ _ shows (by omega)
  have kernelFlags := saved.pushWord (by simp only [List.length_cons]; omega)
    (cpu.pushal flags).eflags
  have vector := kernelFlags.pushWord (by simp only [List.length_cons]; omega) linkage.vector
  have back := vector.pushWord (by simp only [List.length_cons]; omega)
    (sites.place (.linkage label))
  rw [place] at back
  exact ⟨_, esp, back⟩

/-- The bytes that an interrupt puts on the stack before `exc_handler` starts. -/
def Context.pushedBytes (context : Context) (code : Option Word) : Nat :=
  44 + (if code.isSome then 4 else 0) + if context.Privileged then 12 else 20

theorem Context.pushed_length (context : Context) (sites : Sites) (label : LinkageLabel)
    (linkage : IntLinkage) (kernelFlags esp : Word) (code : Option Word) :
    4 * (context.pushed sites label linkage kernelFlags esp code).length =
      context.pushedBytes code := by
  rw [pushed, pushedBytes, frame]
  by_cases privileged : context.Privileged
  · rw [if_pos privileged, if_pos privileged]
    cases code <;> rfl
  · rw [if_neg privileged, if_neg privileged]
    cases code <;> rfl

theorem Context.pushedBytes_le (context : Context) (code : Option Word) :
    context.pushedBytes code ≤ 68 := by
  rw [pushedBytes]
  split <;> split <;> decide

theorem Context.Interrupted.congr {other : Word → Byte} {sp : Word} {code : Option Word}
    (interrupted : context.Interrupted sites memory sp label linkage code)
    (same : ∀ i, i < context.pushedBytes code →
      other (sp + BitVec.ofNat 32 i) = memory (sp + BitVec.ofNat 32 i)) :
    context.Interrupted sites other sp label linkage code where
  isLinkage := interrupted.isLinkage
  matched := interrupted.matched
  stacked := by
    obtain ⟨kernelFlags, esp, stacked⟩ := interrupted.stacked
    refine ⟨kernelFlags, esp, stacked.congr ?_⟩
    rw [context.pushed_length]
    exact same
  kernel := interrupted.kernel

theorem Context.Interrupted.write {sp address word : Word} {code : Option Word}
    (interrupted : context.Interrupted sites memory sp label linkage code)
    (below : 4 ≤ (sp - address).toNat) (room : (sp - address).toNat + 68 ≤ 2 ^ 32) :
    context.Interrupted sites (DownStack.write memory address word) sp label linkage code where
  isLinkage := interrupted.isLinkage
  matched := interrupted.matched
  stacked := by
    obtain ⟨kernelFlags, esp, stacked⟩ := interrupted.stacked
    refine ⟨kernelFlags, esp, stacked.write below ?_⟩
    rw [context.pushed_length]
    have few := context.pushedBytes_le code
    omega
  kernel := interrupted.kernel

/-- The entry of `exc_handler` finds the words of the interrupted context. -/
theorem intLinkage_interrupted {code : Option Word}
    (shows : cpu.Shows ⟨context.registers, context.linkageEsp tss code,
      code.toList ++ context.frame⟩)
    (isLinkage : label.intLinkage = some linkage) (takes : Takes linkage code) :
    (intLinkage sites flags label linkage cpu).esp = context.linkageEsp tss code - 44 ∧
      context.Interrupted sites (intLinkage sites flags label linkage cpu).memory
        (context.linkageEsp tss code - 44) label linkage code := by
  obtain ⟨kernelFlags, esp, entered⟩ :=
    @intLinkage_shows sites flags _ _ label linkage _ _ shows
  refine ⟨entered.sp, isLinkage, takes, ⟨kernelFlags, esp, entered.stack⟩, ?_⟩
  intro privileged
  rw [takes, Context.linkageEsp, Context.kernelEsp, if_pos privileged]
  generalize context.registers .esp = top
  cases code with
  | none =>
      rw [Option.isSome_none, if_neg (by decide), if_neg (by decide), noErrorCode]
      bv_omega
  | some code =>
      rw [Option.isSome_some, if_pos rfl, if_pos rfl, LightweightOs.errorCode]
      bv_omega

theorem Context.entry_flags (context : Context) (tss : Tss) (memory : Word → Byte)
    (vector : Byte) (cause : Cause) :
    (context.entry tss memory false vector cause).eflags &&& interruptFlag = 0 := by
  have cleared : (context.throughGate tss memory false).eflags &&& interruptFlag = 0 := by
    rw [throughGate, if_neg (by decide), BitVec.and_assoc, BitVec.and_comm (~~~interruptFlag)]
    exact BitVec.and_zero
  cases cause with
  | device => exact cleared
  | instruction => exact cleared
  | exception code =>
      rw [entry]
      split
      · exact cleared
      · exact cleared

/-- The error code of an exception is the one its linkage takes from the stack. -/
theorem takes_errorCode {gate : LinkageLabel × Byte} (member : gate ∈ interruptGates)
    (isLinkage : gate.1.intLinkage = some linkage) (notCheck : gate.2 ≠ 0x12)
    (notSimd : gate.2 ≠ 0x13) (code : Word) :
    Takes linkage (Context.errorCode gate.2 (.exception code)) := by
  obtain ⟨other, isOther, _, takes⟩ := intLinkage_of_mem gate member
  rw [isLinkage] at isOther
  cases isOther
  rw [Takes, takes.mpr ⟨notCheck, notSimd⟩, Context.errorCode]
  by_cases pushes : pushesErrorCode gate.2
  · rw [if_pos pushes, if_pos pushes, Option.isSome_some, if_pos rfl]
  · rw [if_neg pushes, if_neg pushes, Option.isSome_none, if_neg (by decide)]

/-- The vectors at which a cause pushes what the linkage expects: the controllers' vectors, the
exceptions but for two that push no code, and the vectors without a code. -/
def Genuine (vector : Byte) : Cause → Prop
  | .device => 0x20 ≤ vector
  | .exception _ => vector ≠ 0x12 ∧ vector ≠ 0x13
  | .instruction => pushesErrorCode vector = false ∧ vector ≠ 0x12 ∧ vector ≠ 0x13

instance (vector : Byte) (cause : Cause) : Decidable (Genuine vector cause) :=
  match cause with
  | .device => inferInstanceAs (Decidable (_ ≤ _))
  | .exception _ => inferInstanceAs (Decidable (_ ∧ _))
  | .instruction => inferInstanceAs (Decidable (_ ∧ _))

theorem Genuine.takes {vector : Byte} {cause : Cause} (genuine : Genuine vector cause)
    (member : (label, vector) ∈ interruptGates) (isLinkage : label.intLinkage = some linkage) :
    Takes linkage (Context.errorCode vector cause) := by
  have exceptions := @takes_errorCode _ _ member isLinkage
  cases cause with
  | exception code => exact exceptions genuine.1 genuine.2 code
  | instruction =>
      have without := exceptions genuine.2.1 genuine.2.2 0
      rw [Context.errorCode, if_neg (ne_true_of_eq_false genuine.1)] at without
      exact without
  | device =>
      have devices : ∀ gate ∈ interruptGates, 0x20 ≤ gate.2 →
          pushesErrorCode gate.2 = false ∧ gate.2 ≠ 0x12 ∧ gate.2 ≠ 0x13 := by
        decide
      obtain ⟨noCode, notCheck, notSimd⟩ := devices _ member genuine
      have without := exceptions notCheck notSimd 0
      rw [Context.errorCode, if_neg (ne_true_of_eq_false noCode)] at without
      exact without

/-- The start of `exc_handler` has the vector as its argument while the devices wait; when it
returns with the words of its caller's stack as they were, the interrupted code goes on with
everything as it was. -/
structure Resumes (sites : Sites) (flags : Cpu → Word) (context : Context) (vector : Byte)
    (start : Cpu) : Prop where
  argument : read start.memory (start.esp + 4) = vector.setWidth 32
  waits : start.eflags &&& Context.interruptFlag = 0
  back : ∀ cpu : Cpu, cpu.esp = start.esp → (context.Privileged → cpu.ss = context.ss) →
    (∀ i, i < 68 → cpu.memory (start.esp + BitVec.ofNat 32 i) =
      start.memory (start.esp + BitVec.ofNat 32 i)) →
    excHandlerRet sites flags cpu = .back context cpu.memory

/-- The entry and the return of every interrupt but the system calls. -/
theorem interrupt_linkage {vector : Byte} {cause : Cause} {entered : Entered} (sites : Sites)
    (flags : Cpu → Word) (address : LinkageLabel → Word) (idtLocal : IdtDesc)
    (delivers : context.deliver tss memory (kernelIdt address idtLocal) vector cause =
      some entered)
    (notSystemCall : vector ≠ 0x80) (genuine : Genuine vector cause) :
    ∃ label linkage, linkageOf vector = some label ∧ entered.eip = address label ∧
      label.intLinkage = some linkage ∧
      Resumes sites flags context vector (intLinkage sites flags label linkage entered.cpu) := by
  rw [deliver_kernelIdt] at delivers
  obtain ⟨label, isLabel, isEntered⟩ := Option.bind_eq_some_iff.mp delivers
  split at isEntered
  case isFalse => cases isEntered
  case isTrue =>
    cases isEntered
    have member := mem_of_linkageOf isLabel notSystemCall
    obtain ⟨linkage, isLinkage, isVector, _⟩ := intLinkage_of_mem _ member
    have interruptGate : decide (label = .systemCall) = false :=
      decide_eq_false (systemCall_not_mem _ member)
    rw [interruptGate]
    refine ⟨label, linkage, isLabel, rfl, isLinkage, ?_⟩
    have shows := context.entry_shows tss memory false vector cause
    have closed := context.entry_flags tss memory vector cause
    generalize context.entry tss memory false vector cause = start at shows closed
    obtain ⟨isTop, interrupted⟩ := @intLinkage_interrupted sites flags _ _ _ _ _ _ shows
      isLinkage (genuine.takes member isLinkage)
    obtain ⟨kernelFlags, esp, stacked⟩ := interrupted.stacked
    constructor
    case argument =>
      rw [isTop, ← isVector]
      exact stacked.2.1
    case waits => exact closed
    case back =>
      intro cpu same ss keeps
      rw [isTop] at same keeps
      have few := context.pushedBytes_le (Context.errorCode vector cause)
      have kept := interrupted.congr fun i inside => keeps i (by omega)
      rw [← same] at kept
      exact kept.back ss

/-- Without an error code the linkage of one drops the return address, and goes back to the
code selector instead. -/
theorem excHandlerRet_dropsWord {kernelFlags skipped : Word}
    (isLinkage : label.intLinkage = some linkage) (drops : linkage.hasErrorCode = errorCode)
    (stacked : Stacked cpu.memory cpu.esp
      (context.pushed sites label linkage kernelFlags skipped none)) :
    ∃ other, excHandlerRet sites flags cpu = .back other cpu.memory ∧
      other.eip = context.cs ∧ other.cs = context.eflags := by
  rw [Context.pushed, ← List.append_assoc] at stacked
  obtain ⟨esp, stackSegment, stacked, _⟩ := Context.frame_stacked stacked
  obtain ⟨behind, length, above⟩ := exists_stacked cpu.memory (cpu.esp + 64) 1
  match behind, length with
  | [behind], _ =>
      have all := stacked_append.mpr ⟨stacked, above⟩
      have start : cpu.Shows ⟨cpu.registers, cpu.esp, _⟩ := ⟨fun _ _ => rfl, rfl, all⟩
      obtain ⟨isSite, after⟩ := start.pop rfl
      have takes : Takes linkage (some context.eip) := drops
      have returns := @afterExcHandler_eq flags _ _ _ _ _ _ _ _ _ _ _ _ _ _ _ _ _ _ _ _ takes
        after
      have isLabel : sites.siteAt cpu.pop.1 = some (.linkage label) := by
        rw [isSite]
        exact sites.siteAt_place (.linkage label)
      rw [excHandlerRet, isLabel]
      simp only [isLinkage]
      exact ⟨_, returns, rfl, rfl⟩

/-- The two exceptions whose linkage drops a word that the processor has not pushed: what was
interrupted does not go on. -/
theorem interrupt_linkage_dropsWord {vector : Byte} {code : Word} {entered : Entered}
    (sites : Sites) (flags : Cpu → Word) (address : LinkageLabel → Word) (idtLocal : IdtDesc)
    (delivers : context.deliver tss memory (kernelIdt address idtLocal) vector
      (.exception code) = some entered)
    (isCheck : vector = 0x12 ∨ vector = 0x13) :
    ∃ label linkage, linkageOf vector = some label ∧ label.intLinkage = some linkage ∧
      ∀ cpu : Cpu, cpu.esp = (intLinkage sites flags label linkage entered.cpu).esp →
        (∀ i, i < 68 →
          cpu.memory ((intLinkage sites flags label linkage entered.cpu).esp +
              BitVec.ofNat 32 i) =
            (intLinkage sites flags label linkage entered.cpu).memory
              ((intLinkage sites flags label linkage entered.cpu).esp + BitVec.ofNat 32 i)) →
        ∃ other, excHandlerRet sites flags cpu = .back other cpu.memory ∧
          other.eip = context.cs ∧ other.cs = context.eflags := by
  rw [deliver_kernelIdt] at delivers
  obtain ⟨label, isLabel, isEntered⟩ := Option.bind_eq_some_iff.mp delivers
  split at isEntered
  case isFalse => cases isEntered
  case isTrue =>
    cases isEntered
    have facts : ∀ vector : Byte, vector = 0x12 ∨ vector = 0x13 →
        pushesErrorCode vector = false ∧ ∃ label ∈ linkageOf vector,
          label ≠ .systemCall ∧ ∃ linkage ∈ label.intLinkage,
            linkage.hasErrorCode = errorCode := by
      rintro vector (rfl | rfl)
      · decide
      · decide
    obtain ⟨noCode, same, isSame, interruptGate, linkage, isLinkage, drops⟩ :=
      facts vector isCheck
    cases Option.some.inj (isLabel.symm.trans isSame)
    rw [decide_eq_false interruptGate]
    refine ⟨label, linkage, isLabel, isLinkage, ?_⟩
    have shows := context.entry_shows tss memory false vector (.exception code)
    generalize context.entry tss memory false vector (.exception code) = start at shows
    have without : Context.errorCode vector (.exception code) = none :=
      if_neg (ne_true_of_eq_false noCode)
    rw [without] at shows
    obtain ⟨kernelFlags, esp, entered⟩ :=
      @intLinkage_shows sites flags _ _ label linkage _ none shows
    intro cpu same keeps
    have stacked := entered.stack
    rw [← entered.sp] at stacked
    apply excHandlerRet_dropsWord isLinkage drops
    rw [same]
    apply stacked.congr
    intro i inside
    have few := context.pushedBytes_le none
    rw [context.pushed_length] at inside
    exact keeps i (by omega)

/-- The sites one after the other. -/
def sampleSites : Sites where
  place := fun site =>
    match site with
    | .linkage label => 0x400200 + BitVec.ofNat 32 label.ctorIdx
    | .excHandler device => 0x400300 + BitVec.ofNat 32 device.ctorIdx
  siteAt := fun address =>
    ((LinkageLabel.systemCall :: interruptGates.map Prod.fst).map Site.linkage ++
      [Device.rtc, .keyboard, .pit].map Site.excHandler).find? fun site =>
        match site with
        | .linkage label => address = 0x400200 + BitVec.ofNat 32 label.ctorIdx
        | .excHandler device => address = 0x400300 + BitVec.ofNat 32 device.ctorIdx
  siteAt_place := by
    intro site
    cases site with
    | linkage label => cases label <;> decide
    | excHandler device => cases device <;> decide

/-- The clock interrupts a program. -/
theorem interrupt_linkage_rtc :
    ∃ entered, (sampleContext 0).deliver sampleTss (fun _ => 0)
        (kernelIdt (fun _ => 0x400100) 0) 0x28 .device = some entered ∧
      ∃ label linkage, linkageOf 0x28 = some label ∧ label.intLinkage = some linkage ∧
        Resumes sampleSites (fun _ => 0) (sampleContext 0) 0x28
          (intLinkage sampleSites (fun _ => 0) label linkage entered.cpu) := by
  have delivers := deliver_kernelIdt (fun _ => 0x400100) 0 (sampleContext 0) sampleTss
    (fun _ => 0) 0x28 .device
  have isLabel : linkageOf 0x28 = some .rtc := by decide
  have reaches : (sampleContext 0).Reaches .rtc .device := by decide
  rw [isLabel, Option.bind_some, if_pos reaches] at delivers
  obtain ⟨label, linkage, found, _, isLinkage, resumes⟩ :=
    interrupt_linkage sampleSites (fun _ => 0) (fun _ => 0x400100) 0 delivers (by decide)
      (by decide)
  exact ⟨_, delivers, label, linkage, found, isLinkage, resumes⟩

end LightweightOs.Linkage
