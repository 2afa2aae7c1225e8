import LightweightOs.AddressSpace
import LightweightOs.Directory
import LightweightOs.NewProcess

/-!
# Passing arguments

`execute` splits the command at its first space and keeps what follows the
spaces in the new block; `getargs` copies it out.  The copy ends with the NUL
or with the buffer, and the call succeeds in both cases.
-/

namespace LightweightOs

open Terminated

/-- The bytes that the copy loop of `getargs` stores, from byte `i` on, with `left` bytes
of the buffer left. -/
def copyOut (args : Nat → Byte) (i : Nat) : Nat → List Byte
  | 0 => []
  | left + 1 => if args i = nul then [nul] else args i :: copyOut args (i + 1) left

/-- `getargs`: the value returned and the bytes stored in the buffer. -/
def Kernel.getargs (s : Kernel) (current : Word) (buf nbytes : Word) : Int × List Byte :=
  if buf = 0 ∨ nbytes.toInt < 0 ∨ nbytes.toInt > argsBufferSize then (-1, [])
  else if (s.pcb current).args 0 = nul then (-1, [])
  else (0, copyOut (s.pcb current).args 0 nbytes.toNat)

theorem copyOut_eq (args : Nat → Byte) (i left : Nat) :
    copyOut args i left =
      text nul args i left ++ if (text nul args i left).length < left then [nul] else [] := by
  induction left generalizing i with
  | zero => simp [copyOut, text]
  | succ left induction =>
      rw [copyOut, text]
      by_cases ended : args i = nul
      · simp [ended]
      · rw [if_neg ended, if_neg ended, induction]
        simp

/-- The arguments of a process: what stands in its buffer before the NUL. -/
def ProcessControlBlock.argString (pcb : ProcessControlBlock) : List Byte :=
  text nul pcb.args 0 argsBufferSize

namespace Kernel

variable {s : Kernel} {current buf nbytes : Word}

/-- A successful call has delivered the whole string and its NUL, and a call whose buffer
has no room for them fails. -/
def AllOrNothing (s : Kernel) (current buf nbytes : Word) : Prop :=
  ((s.getargs current buf nbytes).1 = 0 →
      (s.getargs current buf nbytes).2 = (s.pcb current).argString ++ [nul] ∧
        (s.pcb current).argString.length + 1 ≤ nbytes.toNat) ∧
    (nbytes.toNat < (s.pcb current).argString.length + 1 →
      (s.getargs current buf nbytes).1 = -1)

theorem args_zero_of_argString (nonempty : (s.pcb current).argString ≠ []) :
    (s.pcb current).args 0 ≠ nul := by
  intro ended
  apply nonempty
  rw [ProcessControlBlock.argString, argsBufferSize, text, if_pos ended]

theorem getargs_of_valid (nonempty : (s.pcb current).argString ≠ []) (notNull : buf ≠ 0)
    (low : 0 ≤ nbytes.toInt) (high : nbytes.toInt ≤ argsBufferSize) :
    s.getargs current buf nbytes = (0, copyOut (s.pcb current).args 0 nbytes.toNat) := by
  have valid : ¬(buf = 0 ∨ nbytes.toInt < 0 ∨ nbytes.toInt > argsBufferSize) := by
    rintro (isNull | negative | long)
    · exact notNull isNull
    · omega
    · omega
  rw [getargs, if_neg valid, if_neg (args_zero_of_argString nonempty)]

theorem copyOut_of_room {room : Nat} (enough : (s.pcb current).argString.length < room)
    (within : room ≤ argsBufferSize) :
    copyOut (s.pcb current).args 0 room = (s.pcb current).argString ++ [nul] := by
  have isText : text nul (s.pcb current).args 0 room = (s.pcb current).argString := by
    rw [text_take within]
    apply List.take_of_length_le
    exact Nat.le_of_lt enough
  rw [copyOut_eq, isText, if_pos enough]

end Kernel

/-- `getargs` is all-or-nothing only for a buffer that has room for the string and its
NUL, or is NULL. -/
theorem getargs_all_or_nothing {s : Kernel} {current buf nbytes : Word}
    (nonempty : (s.pcb current).argString ≠ [])
    (low : 0 ≤ nbytes.toInt) (high : nbytes.toInt ≤ argsBufferSize) :
    s.AllOrNothing current buf nbytes ↔
      buf = 0 ∨ (s.pcb current).argString.length < nbytes.toNat := by
  by_cases isNull : buf = 0
  · have refused : s.getargs current buf nbytes = (-1, []) := by
      rw [Kernel.getargs, if_pos (.inl isNull)]
    rw [Kernel.AllOrNothing, refused]
    simp [isNull]
  · have copies := Kernel.getargs_of_valid nonempty isNull low high
    have size : nbytes.toNat ≤ argsBufferSize := by
      have value := BitVec.toInt_eq_toNat_of_msb (x := nbytes) (by
        rw [BitVec.msb_eq_toInt]
        simpa using low)
      omega
    rw [Kernel.AllOrNothing, copies]
    constructor
    · rintro ⟨_, fails⟩
      right
      by_contra short
      have failed := fails (by omega)
      simp at failed
    · rintro (null | enough)
      · exact (isNull null).elim
      · constructor
        · intro _
          exact ⟨Kernel.copyOut_of_room enough size, enough⟩
        · intro short
          omega

/-- A machine whose blocks all hold an argument of two characters. -/
def sampleWithArgs : Kernel :=
  { sampleStart with
    pcb := fun _ => { samplePcb with args := fun i => if i < 2 then 0x61 else nul } }

theorem getargs_all_or_nothing_sample : sampleWithArgs.AllOrNothing 0 0x8000000 3 :=
  (@getargs_all_or_nothing sampleWithArgs 0 0x8000000 3 (by decide) (by decide)
    (by decide)).mpr (.inr (by decide))

/-- A buffer of two bytes gets the characters without a NUL. -/
theorem getargs_unterminated :
    ¬∀ (s : Kernel) (current buf nbytes : Word), (s.pcb current).argString ≠ [] →
      (s.pcb current).argString.length < argsBufferSize → 0 ≤ nbytes.toInt →
      nbytes.toInt ≤ argsBufferSize → s.AllOrNothing current buf nbytes := by
  intro all
  have fails := (all sampleWithArgs 0 0x8000000 2 (by decide) (by decide) (by decide)
    (by decide)).2
  revert fails
  decide

/-- The string that a command is, up to its NUL. -/
def commandString (command : List Byte) : List Byte := command.takeWhile (· ≠ nul)

/-- The first word of a command. -/
def firstWord (command : List Byte) : List Byte :=
  (commandString command).takeWhile (· ≠ space)

/-- The rest of a command behind its first word and the spaces after it. -/
def restOfCommand (command : List Byte) : List Byte :=
  ((commandString command).dropWhile (· ≠ space)).dropWhile (· = space)

theorem nameEnd_cons (first : Byte) (rest : List Byte) :
    nameEnd (first :: rest) =
      if first = space ∨ first = nul then 0 else nameEnd rest + 1 := by
  rw [nameEnd, List.findIdx_cons]
  by_cases stops : first = space ∨ first = nul
  · rw [if_pos stops, decide_eq_true stops]
    rfl
  · rw [if_neg stops, decide_eq_false stops]
    rfl

theorem take_nameEnd (command : List Byte) :
    command.take (nameEnd command) = firstWord command := by
  induction command with
  | nil => rfl
  | cons first rest induction =>
      rw [firstWord, commandString, nameEnd_cons]
      by_cases isNul : first = nul
      · simp [isNul]
      · by_cases isSpace : first = space
        · rw [List.takeWhile_cons_of_pos (by simpa using isNul)]
          simp [isSpace]
        · have goesOn : ¬(first = space ∨ first = nul) := by
            rintro (space | nul)
            · exact isSpace space
            · exact isNul nul
          rw [if_neg goesOn, List.take_succ_cons, induction,
            List.takeWhile_cons_of_pos (by simpa using isNul),
            List.takeWhile_cons_of_pos (by simpa using isSpace)]
          rfl

theorem takeWhile_dropWhile_space (command : List Byte) :
    (command.dropWhile (· = space)).takeWhile (· ≠ nul) =
      (command.takeWhile (· ≠ nul)).dropWhile (· = space) := by
  induction command with
  | nil => rfl
  | cons first rest induction =>
      by_cases isSpace : first = space
      · have notNul : first ≠ nul := by
          rw [isSpace]
          decide
        rw [List.dropWhile_cons_of_pos (by simpa using isSpace), induction,
          List.takeWhile_cons_of_pos (by simpa using notNul),
          List.dropWhile_cons_of_pos (by simpa using isSpace)]
      · rw [List.dropWhile_cons_of_neg (by simpa using isSpace)]
        by_cases isNul : first = nul
        · simp [isNul]
        · rw [List.takeWhile_cons_of_pos (by simpa using isNul),
            List.dropWhile_cons_of_neg (by simpa using isSpace)]

theorem arguments_eq (command : List Byte) : arguments command = restOfCommand command := by
  induction command with
  | nil => rfl
  | cons first rest induction =>
      rw [arguments, takeWhile_dropWhile_space, restOfCommand, commandString]
      rw [arguments, takeWhile_dropWhile_space, restOfCommand, commandString] at induction
      by_cases stops : first = space ∨ first = nul
      · have atOnce : nameEnd (first :: rest) = 0 := by
          rw [nameEnd_cons, if_pos stops]
        rw [atOnce, List.drop_zero]
        rcases stops with isSpace | isNul
        · have notNul : first ≠ nul := by
            rw [isSpace]
            decide
          have wordEnds : ((first :: rest).takeWhile (· ≠ nul)).dropWhile (· ≠ space) =
              (first :: rest).takeWhile (· ≠ nul) := by
            rw [List.takeWhile_cons_of_pos (by simpa using notNul),
              List.dropWhile_cons_of_neg (by simpa using isSpace)]
          rw [wordEnds]
        · rw [List.takeWhile_cons_of_neg (by simpa using isNul)]
          rfl
      · have goesOn : nameEnd (first :: rest) = nameEnd rest + 1 := by
          rw [nameEnd_cons, if_neg stops]
        have notSpace : first ≠ space := fun isSpace => stops (.inl isSpace)
        have notNul : first ≠ nul := fun isNul => stops (.inr isNul)
        rw [goesOn, List.drop_succ_cons, induction,
          List.takeWhile_cons_of_pos (by simpa using notNul),
          List.dropWhile_cons_of_pos (by simpa using notSpace)]

theorem installPcb_name (pcb : PcbMemory) (current frameEbp : Word) (nextPid : Int)
    (baseBoot : Bool) (command : List Byte) :
    (installPcb pcb current frameEbp nextPid baseBoot command (pcbAddr nextPid)).name =
      strcpy (pcb (pcbAddr nextPid)).name 0 (command.take (nameEnd command)) := by
  by_cases own : pcbAddr nextPid = current <;> cases baseBoot <;>
    simp_all [installPcb, Function.update_apply]

theorem strcpy_apply (dest : Nat → Byte) (i : Nat) (string : List Byte) (j : Nat) :
    strcpy dest i string j =
      if i ≤ j ∧ j - i ≤ string.length then string.getD (j - i) nul else dest j := by
  induction string generalizing dest i with
  | nil =>
      rw [strcpy]
      by_cases here : j = i
      · simp [here]
      · rw [assign_of_ne here, if_neg]
        rintro ⟨atLeast, atMost⟩
        rw [List.length_nil] at atMost
        omega
  | cons first rest induction =>
      rw [strcpy, induction]
      rcases Nat.lt_trichotomy j i with before | rfl | after
      · rw [if_neg (by omega), if_neg (by omega), assign_of_ne (by omega)]
      · rw [if_neg (by omega), if_pos (by simp), assign_self, Nat.sub_self]
        rfl
      · have position : j - i = (j - (i + 1)) + 1 := by omega
        rw [assign_of_ne (by omega), position, List.length_cons, List.getD_cons_succ]
        apply if_congr _ rfl rfl
        omega

/-- The name field of a new block holds the first word, when there is room for it. -/
theorem text_strcpy (dest : Nat → Byte) {string : List Byte} (plain : nul ∉ string)
    {width : Nat} (room : string.length < width) :
    text nul (strcpy dest 0 string) 0 width = string := by
  symm
  apply Holds.eq_text
  constructor
  case plain => exact plain
  case fits => omega
  case stored =>
    intro i inside
    rw [strcpy_apply, if_pos (by omega), Nat.zero_add, Nat.sub_zero,
      List.getD_eq_getElem _ _ inside]
  case ends =>
    intro _
    rw [strcpy_apply, if_pos (by omega), Nat.zero_add, Nat.sub_zero,
      List.getD_eq_default _ _ (Nat.le_refl _)]

/-- The stack pointer of a new process lies in its block, for every identifier. -/
theorem currentPcb_newStack (pid : Int) :
    currentPcb (0x800000#32 - BitVec.ofInt 32 pid * 0x2000#32 - 4) = pcbAddr pid := by
  apply BitVec.eq_of_toNat_eq
  rw [currentPcb_toNat, pcbAddr, BitVec.ofInt_add]
  generalize BitVec.ofInt 32 pid = number
  have bound := number.isLt
  have stack : (0x800000#32 - number * 0x2000#32 - 4).toNat =
      (2 ^ 32 - 4 + (2 ^ 32 - number.toNat * 8192 % 2 ^ 32 + 8388608) % 2 ^ 32) % 2 ^ 32 := by
    rw [BitVec.toNat_sub, BitVec.toNat_sub, BitVec.toNat_mul]
    rfl
  have block : (baseMem - (number + BitVec.ofInt 32 1) * pcbMem).toNat =
      (2 ^ 32 - (number.toNat + 1) % 2 ^ 32 * 8192 % 2 ^ 32 + 8388608) % 2 ^ 32 := by
    rw [BitVec.toNat_sub, BitVec.toNat_mul, BitVec.toNat_add]
    rfl
  rw [stack, block]
  omega

/-- A call that starts a program leaves its stack pointer in the new block. -/
theorem Kernel.execute_esp {s next : Kernel} {frame : Frame} {locals : Locals}
    {commandUser : Nat → Byte} {started : Started}
    (starts : s.execute frame locals commandUser = some (.starts started next)) :
    currentPcb next.esp = pcbAddr started.pid := by
  rcases Kernel.execute_cases starts with
    other | ⟨choice, rfl, ⟨_, _, _, other⟩ | ⟨program, isStart⟩⟩
  · cases other
  · cases other
  · cases isStart
    exact currentPcb_newStack _

theorem localCommand_length (commandUser : Nat → Byte) :
    (localCommand commandUser).length = 128 := by
  rw [localCommand, List.length_map, List.length_range]

theorem nul_notMem_commandString (command : List Byte) : nul ∉ commandString command := by
  intro member
  have plain := List.mem_takeWhile_imp member
  simp at plain

theorem nul_notMem_firstWord (command : List Byte) : nul ∉ firstWord command :=
  fun member => nul_notMem_commandString command ((List.takeWhile_prefix _).subset member)

theorem nul_notMem_restOfCommand (command : List Byte) : nul ∉ restOfCommand command :=
  fun member => nul_notMem_commandString command
    ((List.dropWhile_suffix _).subset ((List.dropWhile_suffix _).subset member))

theorem restOfCommand_length_le (command : List Byte) :
    (restOfCommand command).length ≤ command.length := by
  have behind := (List.dropWhile_suffix (l := (commandString command).dropWhile (· ≠ space))
    (· = space)).length_le
  have word := (List.dropWhile_suffix (l := commandString command) (· ≠ space)).length_le
  have string := (List.takeWhile_prefix (l := command) (· ≠ nul)).length_le
  exact (behind.trans word).trans string

/-- A program that a command starts finds its name and its arguments, whatever the block
held before, and `getargs` hands them over. -/
theorem argument_passing {s next : Kernel} {frame : Frame} {locals : Locals}
    {commandUser : Nat → Byte} {started : Started} (fits : FitsBuffers commandUser)
    (starts : s.execute frame locals commandUser = some (.starts started next)) :
    text nul (next.pcb (pcbAddr started.pid)).name 0 32 =
        firstWord (localCommand commandUser) ∧
      (∀ i < argsBufferSize, (next.pcb (pcbAddr started.pid)).args i =
        (restOfCommand (localCommand commandUser)).getD i nul) ∧
      ∀ buf, buf ≠ 0 → next.getargs (currentPcb next.esp) buf 1024 =
        if restOfCommand (localCommand commandUser) = [] then (-1, [])
        else (0, restOfCommand (localCommand commandUser) ++ [nul]) := by
  have isPcb := Kernel.execute_pcb starts
  dsimp only at isPcb
  have short : (firstWord (localCommand commandUser)).length < 32 := by
    have stops := fits.2
    rw [← take_nameEnd, List.length_take]
    omega
  have args : ∀ i < argsBufferSize, (next.pcb (pcbAddr started.pid)).args i =
      (restOfCommand (localCommand commandUser)).getD i nul := by
    intro i inside
    rw [isPcb, installPcb_args, if_pos rfl, args_eq (by rw [localCommand_length]) _ inside,
      arguments_eq]
  have room : (restOfCommand (localCommand commandUser)).length < argsBufferSize := by
    have atMost := restOfCommand_length_le (localCommand commandUser)
    rw [localCommand_length] at atMost
    rw [argsBufferSize]
    omega
  have isString : (next.pcb (pcbAddr started.pid)).argString =
      restOfCommand (localCommand commandUser) := by
    symm
    apply Holds.eq_text
    constructor
    case plain => exact nul_notMem_restOfCommand _
    case fits => omega
    case stored =>
      intro i inside
      rw [Nat.zero_add, args i (by omega), List.getD_eq_getElem _ _ inside]
    case ends =>
      intro _
      rw [Nat.zero_add, args _ room, List.getD_eq_default _ _ (Nat.le_refl _)]
  refine ⟨?_, args, ?_⟩
  · rw [isPcb, installPcb_name, take_nameEnd]
    exact text_strcpy _ (nul_notMem_firstWord _) short
  · intro buf notNull
    rw [Kernel.execute_esp starts]
    by_cases empty : restOfCommand (localCommand commandUser) = []
    · have none : (next.pcb (pcbAddr started.pid)).args 0 = nul := by
        rw [args 0 (by decide), empty]
        rfl
      have valid : ¬(buf = 0 ∨ (1024 : Word).toInt < 0 ∨
          (1024 : Word).toInt > argsBufferSize) := by
        rintro (isNull | wrong)
        · exact notNull isNull
        · revert wrong
          decide
      rw [if_pos empty, Kernel.getargs, if_neg valid, if_pos none]
    · have enough : (next.pcb (pcbAddr started.pid)).argString.length < 1024 := by
        rw [isString]
        exact room
      rw [if_neg empty, ← isString]
      rw [← isString] at empty
      rw [Kernel.getargs_of_valid empty notNull (by decide) (by decide)]
      have copied := @Kernel.copyOut_of_room next (pcbAddr started.pid) 1024 enough (by decide)
      rw [← copied]
      rfl

/-- `"shell  a b"` -/
def sampleTyped : Nat → Byte :=
  cString (shellName ++ [space, space, 0x61, space, 0x62])

theorem argument_passing_sampleTyped :
    ∃ started next, sampleStart.execute (sampleFrame 1) sampleLocals sampleTyped =
        some (.starts started next) ∧
      text nul (next.pcb (pcbAddr started.pid)).name 0 32 = shellName ∧
      next.getargs (currentPcb next.esp) 0x8000000 1024 = (0, [0x61, space, 0x62, nul]) := by
  have starts : (sampleStart.execute (sampleFrame 1) sampleLocals sampleTyped).any
      fun result => match result with
        | .starts _ _ => true
        | .returns _ _ => false := by
    decide +kernel
  obtain ⟨result, executes, isStart⟩ := (Option.any_eq_true _ _).mp starts
  cases result with
  | returns => cases isStart
  | starts started next =>
      obtain ⟨name, _, getargs⟩ :=
        @argument_passing sampleStart next _ _ sampleTyped started ⟨by decide, by decide⟩
          executes
      have word : firstWord (localCommand sampleTyped) = shellName := by decide
      have rest : restOfCommand (localCommand sampleTyped) = [0x61, space, 0x62] := by decide
      have delivered := getargs 0x8000000 (by decide)
      rw [rest] at delivered
      exact ⟨started, next, executes, name.trans word, delivered⟩

end LightweightOs
