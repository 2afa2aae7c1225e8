import LightweightOs.ImageLoading
import LightweightOs.LinkageView

/-!
# Returning from a system call

`sys_calls_handler_end` comes back to the code that was interrupted when the
kernel stack still holds what the entry put there: the return address, six
registers and the frame of the processor.  A function that ends with `RETURN`,
a call that is refused and a `halt` of a child all leave through it; a plain
return leaves through the zero that stands where its return address belongs.
-/

namespace LightweightOs.Linkage

open DownStack

variable {layout : Layout} {flags : Cpu → Word} {cpu : Cpu} {context : Context} {tss : Tss}
  {memory : Word → Byte} {value : Word}

/-- Control is back at the instruction after `int 0x80`, with the result in `eax` and
everything else as it was. -/
def Returns (context : Context) (value : Word) (ending : Ending) : Prop :=
  ∃ memory, ending = .back (context.answered value) memory

namespace Context

/-- The frame that the processor pushes. -/
def frame (context : Context) : List Word :=
  [context.eip, context.cs, context.eflags] ++
    if context.Privileged then [] else [context.registers .esp, context.ss]

/-- What the kernel stack holds of the context, from the return address of
`sys_calls_handler` on; the flags of the kernel are saved too. -/
def saved (context : Context) (layout : Layout) (kernelFlags : Word) : List Word :=
  [layout.afterCall, context.registers .ebp, context.registers .edi,
    context.registers .esi, context.registers .edx, context.registers .ecx,
    context.registers .ebx, kernelFlags] ++ context.frame

/-- The stack pointer below the frame of the processor. -/
def kernelEsp (context : Context) (tss : Tss) : Word :=
  if context.Privileged then context.registers .esp - 12 else tss.esp0 - 20

/-- The stack pointer at the entry of `sys_calls_handler`. -/
def handlerEsp (context : Context) (tss : Tss) : Word := context.kernelEsp tss - 32

theorem handlerEsp_of_privileged {context : Context} (privileged : context.Privileged)
    (tss : Tss) : context.handlerEsp tss + 44 = context.registers .esp := by
  rw [handlerEsp, kernelEsp, if_pos privileged]
  generalize context.registers .esp = esp
  bv_omega

/-- The words that the return needs are on the kernel stack. -/
def Saved (context : Context) (layout : Layout) (tss : Tss) (memory : Word → Byte) : Prop :=
  ∃ kernelFlags, Stacked memory (context.handlerEsp tss) (context.saved layout kernelFlags)

end Context

/-- The registers that are popped. -/
def poppedRegisters (eax ebx ecx edx esi edi ebp esp : Word) : Register → Word
  | .eax => eax
  | .ebx => ebx
  | .ecx => ecx
  | .edx => edx
  | .esi => esi
  | .edi => edi
  | .ebp => ebp
  | .esp => esp

theorem Cpu.iret_eq {view : View} {eip cs eflags esp ss : Word} (shows : cpu.Shows view)
    (stack : view.stack = [eip, cs, eflags, esp, ss]) :
    cpu.iret =
      ⟨poppedRegisters (view.registers .eax) (view.registers .ebx) (view.registers .ecx)
          (view.registers .edx) (view.registers .esi) (view.registers .edi)
          (view.registers .ebp) (if cs &&& 3 = 0 then view.sp + 12 else esp),
        eflags, eip, cs, if cs &&& 3 = 0 then cpu.ss else ss⟩ := by
  obtain ⟨registers, sp, stack⟩ := view
  simp only at stack
  subst stack
  obtain ⟨isEip, shows⟩ := shows.pop rfl
  obtain ⟨isCs, shows⟩ := shows.pop rfl
  obtain ⟨isEflags, shows⟩ := shows.pop rfl
  have afterFlags := shows
  obtain ⟨isEsp, shows⟩ := shows.pop rfl
  obtain ⟨isSs, shows⟩ := shows.pop rfl
  have twelve : sp + 4 + 4 + 4 = sp + 12 := by
    rw [BitVec.add_assoc, BitVec.add_assoc]
    rfl
  simp only [Cpu.iret, isEip, isCs, isEflags, isEsp, isSs]
  by_cases privileged : cs &&& 3 = 0
  · simp only [if_pos privileged, Context.mk.injEq, true_and]
    refine ⟨?_, rfl⟩
    funext register
    cases register
    case esp => exact afterFlags.sp.trans twelve
    all_goals exact afterFlags.registers _ (by decide)
  · have switched := @Cpu.Shows.moves _ _ esp [] shows trivial
    simp only [if_neg privileged, Context.mk.injEq, and_true]
    funext register
    cases register
    case esp => exact switched.sp
    all_goals exact switched.registers _ (by decide)

/-- The words from the return address of `sys_calls_handler` on. -/
structure KernelWords where
  back : Word
  ebp : Word
  edi : Word
  esi : Word
  edx : Word
  ecx : Word
  ebx : Word
  kernelFlags : Word
  eip : Word
  cs : Word
  eflags : Word
  esp : Word
  ss : Word

namespace KernelWords

/-- The words behind the return address. -/
def tail (words : KernelWords) : List Word :=
  [words.ebp, words.edi, words.esi, words.edx, words.ecx, words.ebx, words.kernelFlags,
    words.eip, words.cs, words.eflags, words.esp, words.ss]

/-- What they bring back; in the kernel the stack stays the same. -/
def resumes (words : KernelWords) (eax kernelEsp kernelSs : Word) : Context :=
  ⟨poppedRegisters eax words.ebx words.ecx words.edx words.esi words.edi words.ebp
      (if words.cs &&& 3 = 0 then kernelEsp else words.esp),
    words.eflags, words.eip, words.cs, if words.cs &&& 3 = 0 then kernelSs else words.ss⟩

theorem exists_stacked (memory : Word → Byte) (sp : Word) :
    ∃ words : KernelWords, Stacked memory sp (words.back :: words.tail) :=
  ⟨⟨_, _, _, _, _, _, _, _, _, _, _, _, _⟩, rfl, rfl, rfl, rfl, rfl, rfl, rfl, rfl, rfl, rfl,
    rfl, rfl, rfl, trivial⟩

end KernelWords

/-- The registers, the flags and the frame that the linkage takes from the stack. -/
theorem afterCall_eq {view : View} {words : KernelWords} (shows : cpu.Shows view)
    (stack : view.stack = words.tail) :
    ∃ memory, afterCall flags cpu =
      .back (words.resumes (view.registers .eax) (view.sp + 40) cpu.ss) memory := by
  obtain ⟨registers, sp, stack⟩ := view
  simp only at stack
  subst stack
  have popped : (cpu.exec flags
      [.popl .ebp, .popl .edi, .popl .esi, .popl .edx, .popl .ecx, .popl .ebx,
        .popfl]).Shows
      ⟨assign (assign (assign (assign (assign (assign registers .ebp words.ebp) .edi words.edi)
        .esi words.esi) .edx words.edx) .ecx words.ecx) .ebx words.ebx,
        sp + 4 + 4 + 4 + 4 + 4 + 4 + 4,
        [words.eip, words.cs, words.eflags, words.esp, words.ss]⟩ :=
    shows.exec rfl
  have forty : sp + 4 + 4 + 4 + 4 + 4 + 4 + 4 + 12 = sp + 40 := by
    simp only [BitVec.add_assoc]
    rfl
  refine ⟨_, congrArg₂ Ending.back ?_ rfl⟩
  rw [Cpu.iret_eq popped rfl, Cpu.exec_ss]
  simp only [forty]
  rfl

/-- The epilogue of the handler, from the words behind the arguments. -/
theorem sysCallsHandlerEnd_eq {b s d base : Word} {words : KernelWords}
    (stacked : Stacked cpu.memory (cpu.esp + 20)
      (b :: s :: d :: base :: words.back :: words.tail)) :
    (words.back = layout.afterCall → ∃ memory, sysCallsHandlerEnd layout flags cpu =
      .back (words.resumes (cpu.get .eax) (cpu.esp + 80) cpu.ss) memory) ∧
    (words.back ≠ layout.afterCall →
      ∃ lost, sysCallsHandlerEnd layout flags cpu = .astray words.back lost) := by
  have start : cpu.Shows ⟨cpu.registers, cpu.esp, []⟩ := ⟨fun _ _ => rfl, rfl, trivial⟩
  have moved := start.moves stacked
  have behind : (cpu.step flags (.addl 20 .esp)).Shows
      ⟨cpu.registers, cpu.esp + 20, b :: s :: d :: base :: words.back :: words.tail⟩ :=
    ⟨moved.registers, moved.sp, moved.stack⟩
  have popped : ((cpu.step flags (.addl 20 .esp)).exec flags
      [.popl .ebx, .popl .esi, .popl .edi, .popl .ebp]).Shows
      ⟨assign (assign (assign (assign cpu.registers .ebx b) .esi s) .edi d) .ebp base,
        cpu.esp + 20 + 4 + 4 + 4 + 4, words.back :: words.tail⟩ :=
    behind.exec rfl
  rw [← Cpu.exec_cons] at popped
  obtain ⟨isBack, after⟩ := popped.pop rfl
  constructor
  · intro returns
    obtain ⟨memory, resumes⟩ := @afterCall_eq flags _ _ words after rfl
    have eighty : cpu.esp + 20 + 4 + 4 + 4 + 4 + 4 + 40 = cpu.esp + 80 := by
      simp only [BitVec.add_assoc]
      rfl
    have ss : ∀ code, (cpu.exec flags code).pop.2.ss = cpu.ss := Cpu.exec_ss flags cpu
    refine ⟨memory, ?_⟩
    rw [sysCallsHandlerEnd, ret, isBack, if_pos returns, resumes, ss]
    simp only [eighty]
    rfl
  · intro strays
    rw [← isBack] at strays
    exact ⟨_, (if_neg strays).trans (congrArg₂ Ending.astray isBack rfl)⟩

theorem Context.answered_eq (context : Context) (value : Word) :
    context.answered value =
      ⟨poppedRegisters value (context.registers .ebx) (context.registers .ecx)
          (context.registers .edx) (context.registers .esi) (context.registers .edi)
          (context.registers .ebp) (context.registers .esp),
        context.eflags, context.eip, context.cs, context.ss⟩ := by
  simp only [Context.answered, Context.mk.injEq, and_self, and_true]
  funext register
  cases register <;> rfl

namespace KernelWords

variable {words : KernelWords} {kernelEsp kernelSs : Word}

theorem saved_of_resumes (isBack : words.back = layout.afterCall)
    (isContext : words.resumes value kernelEsp kernelSs = context.answered value) :
    ∃ rest, words.back :: words.tail = context.saved layout words.kernelFlags ++ rest := by
  rw [Context.answered_eq] at isContext
  obtain ⟨registers, isEflags, isEip, isCs, isSs⟩ := Context.mk.inj isContext
  have isEbp : words.ebp = context.registers .ebp := congrFun registers .ebp
  have isEdi : words.edi = context.registers .edi := congrFun registers .edi
  have isEsi : words.esi = context.registers .esi := congrFun registers .esi
  have isEdx : words.edx = context.registers .edx := congrFun registers .edx
  have isEcx : words.ecx = context.registers .ecx := congrFun registers .ecx
  have isEbx : words.ebx = context.registers .ebx := congrFun registers .ebx
  have isEsp : (if words.cs &&& 3 = 0 then kernelEsp else words.esp) =
      context.registers .esp := congrFun registers .esp
  rw [Context.saved, Context.frame, tail, isBack, isEbp, isEdi, isEsi, isEdx, isEcx, isEbx,
    isEip, isEflags]
  rw [isCs] at isEsp isSs ⊢
  by_cases privileged : context.Privileged
  · rw [if_pos privileged]
    exact ⟨[words.esp, words.ss], rfl⟩
  · have outer : ¬context.cs &&& 3 = 0 := privileged
    rw [if_neg outer] at isEsp isSs
    rw [if_neg privileged, isEsp, isSs]
    exact ⟨[], rfl⟩

theorem resumes_of_saved {sp kernelFlags : Word}
    (stacked : Stacked memory sp (words.back :: words.tail))
    (saved : Stacked memory sp (context.saved layout kernelFlags))
    (kernel : context.Privileged →
      kernelSs = context.ss ∧ kernelEsp = context.registers .esp) :
    words.back = layout.afterCall ∧
      words.resumes value kernelEsp kernelSs = context.answered value := by
  rw [Context.answered_eq, KernelWords.resumes]
  rw [Context.saved, Context.frame] at saved
  by_cases privileged : context.Privileged
  · have inner : context.cs &&& 3 = 0 := privileged
    obtain ⟨isSs, isEsp⟩ := kernel privileged
    have lower := (@stacked_append _ _
      [words.back, words.ebp, words.edi, words.esi, words.edx, words.ecx, words.ebx,
        words.kernelFlags, words.eip, words.cs, words.eflags] [words.esp, words.ss]).mp stacked
    rw [if_pos privileged] at saved
    have same := lower.1.unique saved rfl
    simp only [List.cons_append, List.nil_append, List.cons.injEq] at same
    obtain ⟨isBack, isEbp, isEdi, isEsi, isEdx, isEcx, isEbx, _, isEip, isCs, isEflags, _⟩ :=
      same
    rw [isCs, if_pos inner, if_pos inner, isEbp, isEdi, isEsi, isEdx, isEcx, isEbx, isEip,
      isEflags, isSs, isEsp]
    exact ⟨isBack, rfl⟩
  · have outer : ¬context.cs &&& 3 = 0 := privileged
    rw [if_neg privileged] at saved
    have same := stacked.unique saved rfl
    simp only [tail, List.cons_append, List.nil_append, List.cons.injEq] at same
    obtain ⟨isBack, isEbp, isEdi, isEsi, isEdx, isEcx, isEbx, _, isEip, isCs, isEflags, isEsp,
      isSs, _⟩ := same
    rw [isCs, if_neg outer, if_neg outer, isEbp, isEdi, isEsi, isEdx, isEcx, isEbx, isEip,
      isEflags, isSs, isEsp]
    exact ⟨isBack, rfl⟩

end KernelWords

/-- The epilogue comes back exactly when the saved words are still there. -/
theorem sysCallsHandlerEnd_returns (eax : cpu.get .eax = value)
    (kernel : context.Privileged →
      cpu.ss = context.ss ∧ cpu.esp + 80 = context.registers .esp) :
    Returns context value (sysCallsHandlerEnd layout flags cpu) ↔
      ∃ kernelFlags, Stacked cpu.memory (cpu.esp + 36) (context.saved layout kernelFlags) := by
  have place : cpu.esp + 20 + 4 + 4 + 4 + 4 = cpu.esp + 36 := by
    simp only [BitVec.add_assoc]
    rfl
  obtain ⟨words, upper⟩ := KernelWords.exists_stacked cpu.memory (cpu.esp + 36)
  have stacked := upper
  rw [← place] at stacked
  obtain ⟨returns, strays⟩ :=
    @sysCallsHandlerEnd_eq layout flags cpu _ _ _ _ words ⟨rfl, rfl, rfl, rfl, stacked⟩
  rw [eax] at returns
  constructor
  · rintro ⟨memory, isContext⟩
    by_cases isBack : words.back = layout.afterCall
    · obtain ⟨last, isResumed⟩ := returns isBack
      rw [isResumed] at isContext
      obtain ⟨rest, same⟩ :=
        KernelWords.saved_of_resumes isBack (Ending.back.inj isContext).1
      rw [same] at upper
      exact ⟨words.kernelFlags, (stacked_append.mp upper).1⟩
    · obtain ⟨lost, isLost⟩ := strays isBack
      rw [isLost] at isContext
      cases isContext
  · rintro ⟨kernelFlags, saved⟩
    obtain ⟨isBack, isContext⟩ :=
      @KernelWords.resumes_of_saved layout context _ value words _ _ _ _ upper saved kernel
    obtain ⟨last, isResumed⟩ := returns isBack
    rw [isContext] at isResumed
    exact ⟨last, isResumed⟩

theorem Context.frame_cases (context : Context) :
    context.frame = [context.eip, context.cs, context.eflags] ∨
      context.frame =
        [context.eip, context.cs, context.eflags, context.registers .esp, context.ss] := by
  rw [Context.frame]
  by_cases privileged : context.Privileged
  · rw [if_pos privileged]
    exact .inl rfl
  · rw [if_neg privileged]
    exact .inr rfl

theorem interrupt_shows (context : Context) (tss : Tss) (memory : Word → Byte) :
    (context.interrupt tss memory).Shows
      ⟨context.registers, context.kernelEsp tss, context.frame⟩ := by
  rw [Context.interrupt, Context.kernelEsp, Context.frame]
  by_cases privileged : context.Privileged
  · have start : (⟨context.registers, context.eflags &&& ~~~Context.clearedFlags, context.ss,
        memory⟩ : Cpu).Shows ⟨context.registers, context.registers .esp, []⟩ :=
      ⟨fun _ _ => rfl, rfl, trivial⟩
    have place : context.registers .esp - 4 - 4 - 4 = context.registers .esp - 12 := by
      bv_omega
    simp only [if_pos privileged]
    rw [← place]
    exact ((start.push rfl).push rfl).push rfl
  · have start : (⟨assign context.registers .esp tss.esp0,
        context.eflags &&& ~~~Context.clearedFlags, tss.ss0, memory⟩ : Cpu).Shows
          ⟨context.registers, tss.esp0, []⟩ := by
      constructor
      · intro register notEsp
        exact assign_of_ne notEsp _ _
      · exact assign_self context.registers .esp tss.esp0
      · trivial
    have place : tss.esp0 - 4 - 4 - 4 - 4 - 4 = tss.esp0 - 20 := by
      bv_omega
    simp only [if_neg privileged]
    rw [← place]
    exact ((((start.push rfl).push rfl).push rfl).push rfl).push rfl

/-- The processor at the entry of `sys_calls_handler`. -/
def handlerEntry (layout : Layout) (flags : Cpu → Word) (tss : Tss) (context : Context)
    (memory : Word → Byte) : Cpu :=
  ((context.interrupt tss memory).exec flags
    [.pushfl, .pushl .ebx, .pushl .ecx, .pushl .edx, .pushl .esi, .pushl .edi,
      .pushl .ebp]).push layout.afterCall

theorem handlerEntry_shows (layout : Layout) (flags : Cpu → Word) (tss : Tss)
    (context : Context) (memory : Word → Byte) :
    ∃ kernelFlags, (handlerEntry layout flags tss context memory).Shows
      ⟨context.registers, context.handlerEsp tss, context.saved layout kernelFlags⟩ := by
  have entered := interrupt_shows context tss memory
  refine ⟨(context.interrupt tss memory).eflags, ?_⟩
  have place : context.kernelEsp tss - 4 - 4 - 4 - 4 - 4 - 4 - 4 - 4 =
      context.handlerEsp tss := by
    rw [Context.handlerEsp]
    generalize context.kernelEsp tss = top
    bv_omega
  rw [handlerEntry, Cpu.exec_cons, ← place, Context.saved]
  rcases context.frame_cases with frame | frame <;> rw [frame] at entered ⊢
  · exact (@Cpu.Shows.exec flags _ _ _ _ (entered.push rfl) rfl).push rfl
  · exact (@Cpu.Shows.exec flags _ _ _ _ (entered.push rfl) rfl).push rfl

theorem interrupt_ss (privileged : context.Privileged) (tss : Tss) (memory : Word → Byte) :
    (context.interrupt tss memory).ss = context.ss := by
  rw [Context.interrupt]
  simp only [if_pos privileged]
  rfl

theorem handlerEntry_ss (privileged : context.Privileged) (layout : Layout)
    (flags : Cpu → Word) (tss : Tss) (memory : Word → Byte) :
    (handlerEntry layout flags tss context memory).ss = context.ss := by
  rw [handlerEntry, Cpu.push_ss, Cpu.exec_ss, interrupt_ss privileged]

theorem handlerStart_shows {sp kernelFlags : Word}
    (shows : cpu.Shows ⟨context.registers, sp, context.saved layout kernelFlags⟩) :
    (cpu.exec flags
      [.pushl .ebp, .movl .esp .ebp, .pushl .ebx, .pushl .esi, .pushl .edi,
        .cmpl 1 .eax]).Shows
      ⟨assign context.registers .ebp (sp - 4), sp - 4 - 4 - 4 - 4,
        [context.registers .edi, context.registers .esi, context.registers .ebx,
          context.registers .ebp] ++ context.saved layout kernelFlags⟩ := by
  rw [Context.saved] at shows ⊢
  rcases context.frame_cases with frame | frame <;> rw [frame] at shows ⊢
  · exact shows.exec rfl
  · exact shows.exec rfl

theorem handlerArguments_shows {sp base kernelFlags : Word}
    (shows : cpu.Shows
      ⟨assign context.registers .ebp base, sp - 4 - 4 - 4 - 4,
        [context.registers .edi, context.registers .esi, context.registers .ebx,
          context.registers .ebp] ++ context.saved layout kernelFlags⟩) :
    (cpu.exec flags [.pushl .edx, .pushl .ecx, .pushl .ebx, .pushlValue 0]).Shows
      ⟨assign context.registers .ebp base, sp - 32,
        [0, context.registers .ebx, context.registers .ecx, context.registers .edx,
          context.registers .edi, context.registers .esi, context.registers .ebx,
          context.registers .ebp] ++ context.saved layout kernelFlags⟩ := by
  have place : sp - 4 - 4 - 4 - 4 - 4 - 4 - 4 - 4 = sp - 32 := by
    bv_omega
  rw [← place]
  rw [Context.saved] at shows ⊢
  rcases context.frame_cases with frame | frame <;> rw [frame] at shows ⊢
  · exact shows.exec rfl
  · exact shows.exec rfl

theorem returnError_returns {registers : Register → Word} {sp kernelFlags : Word}
    {pushed : List Word} (four : pushed.length = 4)
    (shows : cpu.Shows
      ⟨registers, sp - 4 - 4 - 4 - 4, pushed ++ context.saved layout kernelFlags⟩)
    (kernel : context.Privileged → cpu.ss = context.ss ∧ sp + 44 = context.registers .esp) :
    Returns context (-1) (returnError layout flags cpu) := by
  have esp : (cpu.exec flags [.movlValue (-1) .eax, .subl 20 .esp]).esp = sp - 36 := by
    have moved : (cpu.exec flags [.movlValue (-1) .eax, .subl 20 .esp]).esp =
        cpu.esp - 20 := rfl
    rw [moved, shows.sp]
    bv_omega
  rw [returnError]
  apply (sysCallsHandlerEnd_returns _ _).mpr
  · have place : sp - 36 + 36 = sp := BitVec.sub_add_cancel sp 36
    have upper := (stacked_append.mp shows.stack).2
    have behind : sp - 4 - 4 - 4 - 4 + BitVec.ofNat 32 (4 * pushed.length) = sp := by
      rw [four]
      bv_omega
    rw [esp, place]
    refine ⟨kernelFlags, ?_⟩
    simp only [behind] at upper
    exact upper
  · rfl
  · intro privileged
    obtain ⟨ss, top⟩ := kernel privileged
    refine ⟨ss, ?_⟩
    rw [esp, ← top]
    bv_omega

/-- The number in `eax` is that of a call. -/
def Context.Numbered (context : Context) : Prop :=
  1 ≤ (context.registers .eax).toInt ∧ (context.registers .eax).toInt ≤ 10

instance (context : Context) : Decidable context.Numbered :=
  inferInstanceAs (Decidable (_ ∧ _))

/-- The function in `jump_table` for the number in `eax`. -/
def Context.call (context : Context) : Option SystemCall :=
  (jumpTable[(context.registers .eax).toNat]?).join

theorem Context.Numbered.call {context : Context} (numbered : context.Numbered) :
    ∃ call, context.call = some call := by
  obtain ⟨low, high⟩ := numbered
  have positive : (context.registers .eax).toInt = (context.registers .eax).toNat := by
    rw [BitVec.toInt_eq_toNat_cond] at low high ⊢
    split
    · rfl
    · omega
  rw [positive] at low high
  rw [Context.call]
  generalize (context.registers .eax).toNat = number at low high ⊢
  have inTable : ∀ number, number < 11 → 1 ≤ number →
      (jumpTable[number]?).join.isSome := by
    decide
  exact Option.isSome_iff_exists.mp (inTable number (by omega) (by omega))

/-- The processor as a C function finds it. -/
structure AtFunction (layout : Layout) (tss : Tss) (context : Context) (cpu : Cpu) : Prop where
  shows : ∃ kernelFlags base, cpu.Shows
    ⟨assign context.registers .ebp base, context.handlerEsp tss - 32,
      [0, context.registers .ebx, context.registers .ecx, context.registers .edx,
        context.registers .edi, context.registers .esi, context.registers .ebx,
        context.registers .ebp] ++ context.saved layout kernelFlags⟩
  ss : context.Privileged → cpu.ss = context.ss

/-- The handler enters the function of a number and refuses every other value. -/
theorem int80_cases (layout : Layout) (flags : Cpu → Word) (tss : Tss) (context : Context)
    (memory : Word → Byte) :
    (¬context.Numbered →
      Returns context (-1) (int80 layout flags tss context memory)) ∧
    (context.Numbered → ∃ call cpu, context.call = some call ∧
      int80 layout flags tss context memory = .function call cpu ∧
      AtFunction layout tss context cpu) := by
  obtain ⟨kernelFlags, entered⟩ := handlerEntry_shows layout flags tss context memory
  have linkage : int80 layout flags tss context memory =
      sysCallsHandler layout flags (handlerEntry layout flags tss context memory) := rfl
  have kernel : context.Privileged →
      (handlerEntry layout flags tss context memory).ss = context.ss ∧
        context.handlerEsp tss + 44 = context.registers .esp := by
    intro privileged
    exact ⟨handlerEntry_ss privileged layout flags tss memory,
      Context.handlerEsp_of_privileged privileged tss⟩
  rw [linkage]
  generalize handlerEntry layout flags tss context memory = entry at entered kernel
  have started := @handlerStart_shows layout flags _ _ _ _ entered
  have ss := Cpu.exec_ss flags entry
    [.pushl .ebp, .movl .esp .ebp, .pushl .ebx, .pushl .esi, .pushl .edi, .cmpl 1 .eax]
  rw [sysCallsHandler]
  generalize entry.exec flags
    [.pushl .ebp, .movl .esp .ebp, .pushl .ebx, .pushl .esi, .pushl .edi, .cmpl 1 .eax] =
      start at started ss
  have eax : start.get .eax = context.registers .eax := by
    have notEbp : Register.eax ≠ .ebp := by decide
    apply (started.registers .eax (by decide)).trans
    exact assign_of_ne notEbp context.registers (context.handlerEsp tss - 4)
  have compared : (start.exec flags [.cmpl 10 .eax]).Shows _ := started.exec rfl
  have comparedSs := Cpu.exec_ss flags start [.cmpl 10 .eax]
  have comparedEax : (start.exec flags [.cmpl 10 .eax]).get .eax = context.registers .eax :=
    eax
  simp only [eax]
  generalize start.exec flags [.cmpl 10 .eax] = middle at compared comparedSs comparedEax
  simp only [comparedEax]
  constructor
  · intro outside
    by_cases low : (context.registers .eax).toInt < 1
    · rw [if_pos low]
      exact returnError_returns rfl started fun privileged =>
        ⟨ss.trans (kernel privileged).1, (kernel privileged).2⟩
    · have high : (context.registers .eax).toInt > 10 := by
        by_contra within
        exact outside ⟨by omega, by omega⟩
      rw [if_neg low, if_pos high]
      exact returnError_returns rfl compared fun privileged =>
        ⟨comparedSs.trans (ss.trans (kernel privileged).1), (kernel privileged).2⟩
  · intro numbered
    obtain ⟨call, isCall⟩ := numbered.call
    obtain ⟨low, high⟩ := numbered
    have arguments := @handlerArguments_shows layout flags _ _ _ _ _ compared
    have argumentsSs := Cpu.exec_ss flags middle
      [.pushl .edx, .pushl .ecx, .pushl .ebx, .pushlValue 0]
    have argumentsEax : (middle.exec flags
        [.pushl .edx, .pushl .ecx, .pushl .ebx, .pushlValue 0]).get .eax =
          context.registers .eax := comparedEax
    rw [if_neg (by omega), if_neg (by omega)]
    generalize middle.exec flags [.pushl .edx, .pushl .ecx, .pushl .ebx, .pushlValue 0] =
      cpu at arguments argumentsSs argumentsEax
    have isEntry : (jumpTable[(cpu.get .eax).toNat]?).join = some call := by
      rw [argumentsEax]
      exact isCall
    refine ⟨call, cpu, isCall, ?_, ⟨kernelFlags, _, arguments⟩, ?_⟩
    · simp only [isEntry]
    · intro privileged
      exact argumentsSs.trans (comparedSs.trans (ss.trans (kernel privileged).1))

theorem AtFunction.saved (entered : AtFunction layout tss context cpu) :
    context.Saved layout tss cpu.memory := by
  obtain ⟨kernelFlags, base, shows⟩ := entered.shows
  have place : context.handlerEsp tss - 32 + 32 = context.handlerEsp tss :=
    BitVec.sub_add_cancel _ 32
  have upper := (stacked_append.mp shows.stack).2
  refine ⟨kernelFlags, ?_⟩
  rw [← place]
  exact upper

/-- What is stored elsewhere does not matter: the words take at most 52 bytes. -/
theorem Context.Saved.congr {other : Word → Byte} (saved : context.Saved layout tss memory)
    (same : ∀ i, i < 52 → other (context.handlerEsp tss + BitVec.ofNat 32 i) =
      memory (context.handlerEsp tss + BitVec.ofNat 32 i)) :
    context.Saved layout tss other := by
  obtain ⟨kernelFlags, stacked⟩ := saved
  refine ⟨kernelFlags, stacked.congr ?_⟩
  intro i inside
  apply same
  have length : (context.saved layout kernelFlags).length ≤ 13 := by
    rw [Context.saved]
    rcases context.frame_cases with frame | frame <;> rw [frame]
    · exact Nat.le_of_ble_eq_true rfl
    · exact Nat.le_of_ble_eq_true rfl
  omega

theorem Context.Saved.storeBytes {buf : Word} {bytes : List Byte}
    (saved : context.Saved layout tss memory)
    (elsewhere : ∀ address ∈ storeAddresses buf bytes,
      52 ≤ (address - context.handlerEsp tss).toNat) :
    context.Saved layout tss (storeBytes memory buf bytes) := by
  apply saved.congr
  intro i inside
  apply storeBytes_of_not_mem
  intro member
  have distance := elsewhere _ member
  rw [BitVec.add_comm, BitVec.add_sub_cancel, BitVec.toNat_ofNat] at distance
  omega

/-- The frame of the function lies 36 bytes below the entry of the handler. -/
theorem AtFunction.prologue (entered : AtFunction layout tss context cpu) :
    ∃ registers base rest,
      (prologue flags cpu).Shows ⟨registers, context.handlerEsp tss - 36, base :: 0 :: rest⟩ ∧
      registers .ebp = context.handlerEsp tss - 36 := by
  obtain ⟨kernelFlags, base, shows⟩ := entered.shows
  have place : context.handlerEsp tss - 32 - 4 = context.handlerEsp tss - 36 := by
    generalize context.handlerEsp tss = sp
    bv_omega
  rw [Linkage.prologue, ← place]
  rw [Context.saved] at shows
  rcases context.frame_cases with frame | frame <;> rw [frame] at shows
  · exact ⟨_, _, _, shows.exec rfl, rfl⟩
  · exact ⟨_, _, _, shows.exec rfl, rfl⟩

theorem frame_returns (eax : cpu.get .eax = value)
    (frame : cpu.esp = context.handlerEsp tss - 36)
    (ss : context.Privileged → cpu.ss = context.ss) :
    Returns context value (sysCallsHandlerEnd layout flags cpu) ↔
      context.Saved layout tss cpu.memory := by
  have place : context.handlerEsp tss - 36 + 36 = context.handlerEsp tss :=
    BitVec.sub_add_cancel _ 36
  have ends := @sysCallsHandlerEnd_returns layout flags cpu context value eax
  rw [frame, place] at ends
  apply ends
  intro privileged
  refine ⟨ss privileged, ?_⟩
  rw [← Context.handlerEsp_of_privileged privileged tss]
  generalize context.handlerEsp tss = sp
  bv_omega

theorem returnMacro_returns (frame : cpu.get .ebp = context.handlerEsp tss - 36)
    (ss : context.Privileged → cpu.ss = context.ss) :
    Returns context value (returnMacro layout flags cpu value) ↔
      context.Saved layout tss cpu.memory :=
  @frame_returns layout flags (cpu.exec flags [.movl .ebp .esp, .movlValue value .eax]) context
    tss value rfl frame ss

/-- `halt_return` with the frame of the `execute` that started the program. -/
theorem haltReturn_returns
    (frame : read cpu.memory (cpu.esp + 8) = context.handlerEsp tss - 36)
    (status : read cpu.memory (cpu.esp + 12) = value)
    (ss : context.Privileged → cpu.ss = context.ss) :
    Returns context value (haltReturn layout flags cpu) ↔
      context.Saved layout tss cpu.memory :=
  @frame_returns layout flags
    (cpu.exec flags [.movlStack 12 .eax, .movlStack 8 .ebp, .movl .ebp .esp]) context tss value
    status frame ss

theorem AtFunction.plainReturn_astray (entered : AtFunction layout tss context cpu)
    (value : Word) :
    ∃ lost, plainReturn layout flags (Linkage.prologue flags cpu) value = .astray 0 lost := by
  obtain ⟨registers, base, rest, shows, frame⟩ := @AtFunction.prologue layout flags _ _ _ entered
  rw [plainReturn]
  generalize Linkage.prologue flags cpu = cpu at shows
  have valued := @Cpu.Shows.set _ _ .eax value shows (by decide)
  have isFrame : (cpu.set .eax value).get .ebp = context.handlerEsp tss - 36 :=
    (valued.registers .ebp (by decide)).trans frame
  have popped : (((cpu.set .eax value).set .esp (context.handlerEsp tss - 36)).exec flags
      [.popl .ebp]).Shows
      ⟨assign (assign registers .eax value) .ebp base, context.handlerEsp tss - 36 + 4,
        0 :: rest⟩ :=
    (valued.moves valued.stack).exec rfl
  rw [← isFrame] at popped
  obtain ⟨isZero, _⟩ := popped.pop rfl
  have code : cpu.exec flags [.movlValue value .eax, .movl .ebp .esp, .popl .ebp] =
      ((cpu.set .eax value).set .esp ((cpu.set .eax value).get .ebp)).exec flags
        [.popl .ebp] := by
    rw [Cpu.exec_cons, Cpu.exec_cons]
    rfl
  rw [code, ret, isZero, if_neg layout.notNull.symm]
  exact ⟨_, rfl⟩

theorem AtFunction.not_returns (entered : AtFunction layout tss context cpu)
    (result : Word) :
    ¬Returns context result (plainReturn layout flags (Linkage.prologue flags cpu) value) := by
  rintro ⟨memory, isBack⟩
  obtain ⟨lost, isAstray⟩ := @AtFunction.plainReturn_astray layout flags _ _ _ entered value
  rw [isAstray] at isBack
  cases isBack

/-- A function that ends with the macro comes back when the saved words are still there. -/
theorem AtFunction.works_returns (entered : AtFunction layout tss context cpu) (work : Work) :
    Returns context work.value
        (returnMacro layout flags ((Linkage.prologue flags cpu).works work) work.value) ↔
      context.Saved layout tss work.memory := by
  obtain ⟨registers, base, rest, shows, frame⟩ := @AtFunction.prologue layout flags _ _ _ entered
  have ebp : ((Linkage.prologue flags cpu).works work).get .ebp =
      context.handlerEsp tss - 36 := by
    apply (assign_self work.registers .ebp _).trans
    exact (shows.registers .ebp (by decide)).trans frame
  have ss : context.Privileged →
      ((Linkage.prologue flags cpu).works work).ss = context.ss := by
    intro privileged
    exact (Cpu.exec_ss flags cpu [.pushl .ebp, .movl .esp .ebp]).trans (entered.ss privileged)
  exact returnMacro_returns ebp ss

/-- The functions with a plain return are those of 9 and 10. -/
def SystemCall.PlainReturn (call : SystemCall) : Prop := call = .setHandler ∨ call = .sigreturn

instance (call : SystemCall) : Decidable call.PlainReturn :=
  inferInstanceAs (Decidable (_ ∨ _))

theorem Context.call_plainReturn {call : SystemCall} (isCall : context.call = some call) :
    call.PlainReturn ↔ context.registers .eax = 9 ∨ context.registers .eax = 10 := by
  have inTable : ∀ number, number < 11 → ∀ call ∈ (jumpTable[number]?).join,
      (call.PlainReturn ↔ number = 9 ∨ number = 10) := by
    decide
  rw [Context.call] at isCall
  have number : ∀ literal : Word, context.registers .eax = literal ↔
      (context.registers .eax).toNat = literal.toNat := fun _ => BitVec.toNat_inj.symm
  rw [number, number]
  rcases Nat.lt_or_ge (context.registers .eax).toNat 11 with small | large
  · exact inTable _ small call isCall
  · rw [List.getElem?_eq_none large] at isCall
    cases isCall

/-- A refused number comes back with -1.  A call whose C function ends comes back with the
result in `eax` and the rest of its context exactly when the function is not one with a plain
return and the words that the entry saved on the kernel stack are still there; an `execute`
comes back so when its child halts. -/
theorem system_call_linkage (layout : Layout) (flags : Cpu → Word) (tss : Tss)
    (context : Context) (memory : Word → Byte) :
    (¬context.Numbered → ∀ work,
      Returns context (-1) (systemCall layout flags tss context memory work)) ∧
    (context.Numbered → ∃ call, context.call = some call ∧ ∀ work,
      (Returns context (call.result work) (systemCall layout flags tss context memory work) ↔
        context.registers .eax ≠ 9 ∧ context.registers .eax ≠ 10 ∧
          context.Saved layout tss work.memory)) ∧
    ∀ cpu halting status,
      int80 layout flags tss context memory = .function .execute cpu →
      (context.Privileged → halting.ss = context.ss) →
      read halting.memory (halting.esp + 8) = (prologue flags cpu).get .ebp →
      read halting.memory (halting.esp + 12) = status →
        (Returns context status (haltReturn layout flags halting) ↔
          context.Saved layout tss halting.memory) := by
  obtain ⟨refuses, enters⟩ := int80_cases layout flags tss context memory
  refine ⟨?_, ?_, ?_⟩
  · intro outside work
    obtain ⟨last, isBack⟩ := refuses outside
    refine ⟨last, ?_⟩
    rw [systemCall, isBack]
  · intro numbered
    obtain ⟨call, cpu, isCall, isFunction, entered⟩ := enters numbered
    refine ⟨call, isCall, ?_⟩
    intro work
    rw [systemCall, isFunction]
    have plain := Context.call_plainReturn isCall
    by_cases plainReturn : call.PlainReturn
    · have returnsNot : ¬Returns context (call.result work) (call.run layout flags cpu work) := by
        rcases plainReturn with rfl | rfl
        · exact entered.not_returns 0
        · exact entered.not_returns 0
      constructor
      · intro returns
        exact (returnsNot returns).elim
      · rintro ⟨notSetHandler, notSigreturn, _⟩
        rcases plain.mp plainReturn with isNine | isTen
        · exact (notSetHandler isNine).elim
        · exact (notSigreturn isTen).elim
    · have works := @AtFunction.works_returns layout flags _ _ _ entered work
      have runs : Returns context (call.result work) (call.run layout flags cpu work) ↔
          context.Saved layout tss work.memory := by
        cases call
        case setHandler => exact (plainReturn (.inl rfl)).elim
        case sigreturn => exact (plainReturn (.inr rfl)).elim
        all_goals exact works
      have numbers := mt plain.mpr plainReturn
      rw [not_or] at numbers
      constructor
      · intro returns
        exact ⟨numbers.1, numbers.2, runs.mp returns⟩
      · rintro ⟨_, _, saved⟩
        exact runs.mpr saved
  · intro cpu halting status isExecute ss frame isStatus
    by_cases numbered : context.Numbered
    · obtain ⟨call, entry, _, isFunction, entered⟩ := enters numbered
      rw [isExecute] at isFunction
      cases isFunction
      obtain ⟨registers, base, rest, shows, isFrame⟩ :=
        @AtFunction.prologue layout flags _ _ _ entered
      have ebp : (prologue flags cpu).get .ebp = context.handlerEsp tss - 36 :=
        (shows.registers .ebp (by decide)).trans isFrame
      exact haltReturn_returns (frame.trans ebp) isStatus ss
    · obtain ⟨last, isBack⟩ := refuses numbered
      rw [isExecute] at isBack
      cases isBack

/-- A program that makes the call of a number. -/
def sampleContext (number : Word) : Context where
  registers := assign (fun _ => 0) .eax number
  eflags := 0x202
  eip := 0x8048020
  cs := 0x23
  ss := 0x2B

def sampleLayout : Layout := ⟨0x400100, by decide⟩

def sampleTss : Tss := ⟨0x7FE000, 0x18⟩

theorem sampleContext_enters {number : Word} (numbered : (sampleContext number).Numbered) :
    ∃ call cpu, (sampleContext number).call = some call ∧
      AtFunction sampleLayout sampleTss (sampleContext number) cpu := by
  obtain ⟨_, enters⟩ := int80_cases sampleLayout (fun _ => 0) sampleTss (sampleContext number)
    fun _ => 0
  obtain ⟨call, cpu, isCall, _, entered⟩ := enters numbered
  exact ⟨call, cpu, isCall, entered⟩

/-- A `read` of 20 bytes comes back. -/
theorem system_call_linkage_read :
    ∃ work, work.value = 20 ∧ Returns (sampleContext 3) 20
      (systemCall sampleLayout (fun _ => 0) sampleTss (sampleContext 3) (fun _ => 0) work) := by
  have numbered : (sampleContext 3).Numbered := by decide
  obtain ⟨_, cpu, _, entered⟩ := sampleContext_enters numbered
  obtain ⟨call, isCall, returns⟩ := (system_call_linkage sampleLayout (fun _ => 0) sampleTss
    (sampleContext 3) fun _ => 0).2.1 numbered
  have isRead : (sampleContext 3).call = some .read := by decide
  rw [isRead] at isCall
  cases isCall
  refine ⟨⟨fun _ => 0, 0, cpu.memory, 20⟩, rfl, ?_⟩
  exact (returns ⟨fun _ => 0, 0, cpu.memory, 20⟩).mpr ⟨by decide, by decide, entered.saved⟩

/-- `set_handler` leaves to address 0. -/
theorem system_call_linkage_setHandler :
    ¬∀ (layout : Layout) (flags : Cpu → Word) (tss : Tss) (context : Context)
        (memory : Word → Byte) (work : Work) (call : SystemCall),
      context.Numbered → context.call = some call → call ≠ .halt → call ≠ .execute →
      context.Saved layout tss work.memory →
        Returns context (call.result work) (systemCall layout flags tss context memory work) := by
  intro returns
  have numbered : (sampleContext 9).Numbered := by decide
  have isCall : (sampleContext 9).call = some .setHandler := by decide
  obtain ⟨_, enters⟩ := int80_cases sampleLayout (fun _ => 0) sampleTss (sampleContext 9)
    fun _ => 0
  obtain ⟨call, cpu, isFunction, isEntered, entered⟩ := enters numbered
  rw [isCall] at isFunction
  cases isFunction
  have back := returns sampleLayout (fun _ => 0) sampleTss (sampleContext 9) (fun _ => 0)
    ⟨fun _ => 0, 0, cpu.memory, 0⟩ .setHandler numbered isCall (by decide) (by decide)
    entered.saved
  rw [systemCall, isEntered] at back
  exact entered.not_returns 0 back

end LightweightOs.Linkage
