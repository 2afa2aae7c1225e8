import LightweightOs.Kernel

/-!
# execute

A function of the source that does not return to its caller has a result type
with one constructor for each way control can go on.  `none` stands for a run
without a defined continuation: a helper loop that does not end, or a nested
`execute` that comes back through `RETURN`.  A process is described before its
file is copied to user memory; `UserStores` adds the copy and where it faults.
-/

namespace LightweightOs

/-- `"shell"` -/
def shellName : List Byte := [0x73#8, 0x68#8, 0x65#8, 0x6C#8, 0x6C#8]

/-- `"Max number of processes reached!\n"` -/
def maxProcessesMessage : List Byte :=
  [0x4D#8, 0x61#8, 0x78#8, 0x20#8, 0x6E#8, 0x75#8, 0x6D#8, 0x62#8, 0x65#8,
    0x72#8, 0x20#8, 0x6F#8, 0x66#8, 0x20#8, 0x70#8, 0x72#8, 0x6F#8, 0x63#8,
    0x65#8, 0x73#8, 0x73#8, 0x65#8, 0x73#8, 0x20#8, 0x72#8, 0x65#8, 0x61#8,
    0x63#8, 0x68#8, 0x65#8, 0x64#8, 0x21#8, 0x0A#8]

/-- The local copy of the command. -/
def localCommand (commandUser : Nat → Byte) : List Byte :=
  (List.range 128).map commandUser

/-- Where the loop that copies the file name stops. -/
def nameEnd (command : List Byte) : Nat :=
  command.findIdx fun c => c = space ∨ c = nul

/-- The command fits the local buffers of `execute`: its NUL is within the 128
bytes copied and its first word leaves room for the terminator. -/
def FitsBuffers (commandUser : Nat → Byte) : Prop :=
  nul ∈ localCommand commandUser ∧ nameEnd (localCommand commandUser) ≤ 31

/-- The loop that skips the spaces before the arguments. -/
def skipSpaces (command : List Byte) (argsIdx : Nat) : Nat → Nat
  | 0 => argsIdx
  | fuel + 1 =>
      if command.getD argsIdx nul = space then
        skipSpaces command (argsIdx + 1) fuel
      else argsIdx

def clearArgs (args : Nat → Byte) : Nat → Byte :=
  fun i => if i < argsBufferSize then nul else args i

/-- The copy loop of the arguments, with `left` bytes of the buffer left. -/
def copyArgs (command : List Byte) (args : Nat → Byte) (i argsIdx : Nat) :
    Nat → Nat → Byte
  | 0 => args
  | left + 1 =>
      if command.getD argsIdx nul = nul then assign args i nul
      else
        copyArgs command (assign args i (command.getD argsIdx nul)) (i + 1)
          (argsIdx + 1) left

/-- `strcpy` of a NUL-terminated string to `dest`, from position `i` on. -/
def strcpy (dest : Nat → Byte) (i : Nat) : List Byte → Nat → Byte
  | [] => assign dest i nul
  | c :: rest => strcpy (assign dest i c) (i + 1) rest

/-- A file `execute` accepts: its inode and the local metadata buffer. -/
structure Program where
  inodeNum : Word
  fileMetadata : Nat → Byte

/-- The checks of `execute` on the file.  A file shorter than 28 bytes leaves
the rest of the buffer as the stack had it. -/
def findProgram (fs : FileSystem) (fileName : List Byte)
    (fileMetadata : Nat → Byte) : Option Program :=
  match fs.readDentryByName (some fileName) with
  | none => none
  | some (_, curDentry) =>
      match fs.readData curDentry.inodeNum 0 28 with
      | none => none
      | some bytes =>
          let fileMetadata := fun i => bytes.getD i (fileMetadata i)
          if fileMetadata 0 ≠ 0x7F#8 ∨ fileMetadata 1 ≠ 0x45#8 ∨
              fileMetadata 2 ≠ 0x4C#8 ∨ fileMetadata 3 ≠ 0x46#8 then none
          else some ⟨curDentry.inodeNum, fileMetadata⟩

def entryPoint (fileMetadata : Nat → Byte) : Word :=
  fileMetadata 27 ++ fileMetadata 26 ++ fileMetadata 25 ++ fileMetadata 24

/-- `strncmp(file_name, "shell", 5) == 0` -/
def isShell (fileName : List Byte) : Bool :=
  strncmp (cString fileName) (cString shellName) 5 = 0

/-- The process an `execute` starts: its identifier, whether it is a base
shell, its entry point and the bytes loaded at `PROGRAM_START`. -/
structure Started where
  pid : Int
  baseBoot : Bool
  eip : Word
  image : List Byte

inductive ExecuteResult where
  | returns (value : Int) (next : Kernel)
  | starts (started : Started) (next : Kernel)

/-- The state after the call. -/
def ExecuteResult.next : ExecuteResult → Kernel
  | .returns _ next => next
  | .starts _ next => next

/-- The descriptors of a new program: stdin, stdout, and whatever the block had
from 2 on. -/
def standardFiles (files : Nat → FileDescriptor) : Nat → FileDescriptor :=
  assign (assign files 0 { stdinFd with flags := 1 }) 1 { stdoutFd with flags := 1 }

/-- The writes of `execute` to process control blocks, in order.  The new
block and the current one are the same when a base shell restarts. -/
def installPcb (pcb : PcbMemory) (current : Word) (frameEbp : Word)
    (nextPid : Int) (baseBoot : Bool) (command : List Byte) : PcbMemory :=
  let argsIdx := nameEnd command
  let new := pcbAddr nextPid
  let pcb := assign pcb new
    { pcb new with
      processId := nextPid
      exitStatus := 0
      name := strcpy (pcb new).name 0 (command.take argsIdx) }
  let pcb := assign pcb new
    { pcb new with
      parentPcb := if baseBoot then 0 else pcbAddr (pcb current).processId
      childPcb := 0 }
  let pcb :=
    if baseBoot then pcb
    else assign pcb current { pcb current with childPcb := new }
  let pcb := assign pcb new
    { pcb new with
      files := assign (assign (pcb new).files 0 { stdinFd with flags := 1 }) 1
        { stdoutFd with flags := 1 }
      args := copyArgs command (clearArgs (pcb new).args) 0
        (skipSpaces command argsIdx 128) argsBufferSize }
  assign pcb current { pcb current with ebp := frameEbp }

section InstallPcb

variable (pcb : PcbMemory) (current frameEbp : Word) (nextPid : Int)
  (baseBoot : Bool) (command : List Byte) (address : Word)

theorem installPcb_processId :
    (installPcb pcb current frameEbp nextPid baseBoot command address).processId =
      if address = pcbAddr nextPid then nextPid else (pcb address).processId := by
  by_cases new : address = pcbAddr nextPid <;>
    by_cases own : address = current <;> cases baseBoot <;>
      simp_all [installPcb, Function.update_apply]

theorem installPcb_parentPcb
    (separate : baseBoot = false → current ≠ pcbAddr nextPid) :
    (installPcb pcb current frameEbp nextPid baseBoot command address).parentPcb =
      if address = pcbAddr nextPid
      then if baseBoot then 0 else pcbAddr (pcb current).processId
      else (pcb address).parentPcb := by
  by_cases new : address = pcbAddr nextPid <;>
    by_cases own : address = current <;> cases baseBoot <;>
      simp_all [installPcb, Function.update_apply]

theorem installPcb_childPcb
    (separate : baseBoot = false → current ≠ pcbAddr nextPid) :
    (installPcb pcb current frameEbp nextPid baseBoot command address).childPcb =
      if address = pcbAddr nextPid then 0
      else if baseBoot = false ∧ address = current then pcbAddr nextPid
      else (pcb address).childPcb := by
  by_cases new : address = pcbAddr nextPid <;>
    by_cases own : address = current <;> cases baseBoot <;>
      simp_all [installPcb, Function.update_apply]

theorem installPcb_ebp :
    (installPcb pcb current frameEbp nextPid baseBoot command address).ebp =
      if address = current then frameEbp else (pcb address).ebp := by
  by_cases new : address = pcbAddr nextPid <;>
    by_cases own : address = current <;> cases baseBoot <;>
      simp_all [installPcb, Function.update_apply]

theorem installPcb_schedEbp :
    (installPcb pcb current frameEbp nextPid baseBoot command address).schedEbp =
      (pcb address).schedEbp := by
  by_cases new : address = pcbAddr nextPid <;>
    by_cases own : address = current <;> cases baseBoot <;>
      simp_all [installPcb, Function.update_apply]

theorem installPcb_files :
    (installPcb pcb current frameEbp nextPid baseBoot command address).files =
      if address = pcbAddr nextPid then standardFiles (pcb address).files
      else (pcb address).files := by
  by_cases new : address = pcbAddr nextPid <;>
    by_cases own : address = current <;> cases baseBoot <;>
      simp_all [installPcb, standardFiles, Function.update_apply]

theorem installPcb_args :
    (installPcb pcb current frameEbp nextPid baseBoot command address).args =
      if address = pcbAddr nextPid then
        copyArgs command (clearArgs (pcb address).args) 0
          (skipSpaces command (nameEnd command) 128) argsBufferSize
      else (pcb address).args := by
  by_cases new : address = pcbAddr nextPid <;>
    by_cases own : address = current <;> cases baseBoot <;>
      simp_all [installPcb, Function.update_apply]

end InstallPcb

namespace Kernel

/-- The part of `execute` after the limit check, up to its `iret`. -/
def install (s : Kernel) (frame : Frame) (locals : Locals)
    (choice : ProcessTable.Choice) (command : List Byte) : Kernel :=
  let esp0 := 0x800000#32 - BitVec.ofInt 32 choice.nextPid * 0x2000#32
  { s with
    table := choice.table
    pdt := assign s.pdt 32
      (pdtEntryPageSetup locals.newPage (BitVec.ofInt 32 (choice.nextPid + 1)) 1)
    tssEsp0 := esp0
    pcb := installPcb s.pcb (currentPcb frame.esp) frame.ebp choice.nextPid
      choice.baseBoot command
    esp := esp0 - 4 }

/-- The process that runs after the `iret`. -/
def startedProcess (s : Kernel) (choice : ProcessTable.Choice)
    (program : Program) : Started :=
  { pid := choice.nextPid
    baseBoot := choice.baseBoot
    eip := entryPoint program.fileMetadata
    image := (s.fs.readData program.inodeNum 0
      (s.fs.inodeSize program.inodeNum)).getD [] }

/-- `execute` from the choice of a process identifier on. -/
def runProgram (s : Kernel) (frame : Frame) (locals : Locals)
    (command : List Byte) (program : Program) : Option ExecuteResult :=
  let fileName := command.take (nameEnd command)
  let choice := s.table.choosePid (isShell fileName) locals.nextPid
  if choice.table.auxProcesses > 3 then
    let table :=
      { choice.table with auxProcesses := choice.table.auxProcesses - 1 }
    ({ s with table := table }.terminalWrite (currentPcb frame.esp)
      maxProcessesMessage).map (.returns 1)
  else
    some (.starts (s.startedProcess choice program)
      (s.install frame locals choice command))

def execute (s : Kernel) (frame : Frame) (locals : Locals)
    (commandUser : Nat → Byte) : Option ExecuteResult :=
  let command := localCommand commandUser
  let fileName := command.take (nameEnd command)
  match findProgram s.fs fileName locals.fileMetadata with
  | none => some (.returns (-1) s)
  | some program => s.runProgram frame locals command program

end Kernel

/-- The string literal the kernel itself passes to `execute`, with whatever
memory follows it. -/
def shellCommand (after : Nat → Byte) (i : Nat) : Byte :=
  if i ≤ shellName.length then cString shellName i else after i

/-- The "shell" entry of the file system is an executable that `execute`
accepts. -/
def ValidShell (fs : FileSystem) : Prop :=
  ∃ index dentry bytes,
    fs.readDentryByName (some shellName) = some (index, dentry) ∧
      fs.readData dentry.inodeNum 0 28 = some bytes ∧
      bytes.take 4 = [0x7F#8, 0x45#8, 0x4C#8, 0x46#8]

theorem localCommand_shellCommand (after : Nat → Byte) :
    ∃ rest, localCommand (shellCommand after) = shellName ++ nul :: rest := by
  refine ⟨((List.range 122).map (6 + ·)).map (shellCommand after), ?_⟩
  have split : List.range (6 + 122) = List.range 6 ++ (List.range 122).map (6 + ·) :=
    List.range_add
  change (List.range (6 + 122)).map (shellCommand after) = _
  rw [split, List.map_append]
  rfl

theorem fileName_shellCommand (after : Nat → Byte) :
    (localCommand (shellCommand after)).take
      (nameEnd (localCommand (shellCommand after))) = shellName := by
  obtain ⟨rest, parsed⟩ := localCommand_shellCommand after
  have stops : nameEnd (localCommand (shellCommand after)) = 5 := by
    rw [parsed]
    simp [nameEnd, shellName, List.findIdx_cons, space, nul]
  rw [stops, parsed]
  rfl

theorem isShell_shellName : isShell shellName = true := by decide

theorem findProgram_shellName {fs : FileSystem} (valid : ValidShell fs)
    (fileMetadata : Nat → Byte) :
    ∃ program, findProgram fs shellName fileMetadata = some program := by
  obtain ⟨index, dentry, bytes, found, readable, magic⟩ := valid
  have split := List.take_append_drop 4 bytes
  rw [magic] at split
  refine ⟨⟨dentry.inodeNum, fun i => bytes.getD i (fileMetadata i)⟩, ?_⟩
  simp only [findProgram, found, readable]
  rw [← split]
  rfl

namespace Kernel

/-- The kernel's own command always gets as far as the choice of a process
identifier, as a shell. -/
theorem execute_shellCommand {s : Kernel} (valid : ValidShell s.fs)
    (frame : Frame) (locals : Locals) (after : Nat → Byte) :
    ∃ program, s.execute frame locals (shellCommand after) =
      s.runProgram frame locals (localCommand (shellCommand after)) program := by
  obtain ⟨program, found⟩ := findProgram_shellName valid locals.fileMetadata
  refine ⟨program, ?_⟩
  simp only [execute, fileName_shellCommand, found]

theorem runProgram_starts {s : Kernel} {frame : Frame} {locals : Locals}
    {command : List Byte} {program : Program} {choice : ProcessTable.Choice}
    (chosen : s.table.choosePid (isShell (command.take (nameEnd command)))
      locals.nextPid = choice)
    (within : choice.table.auxProcesses ≤ 3) :
    s.runProgram frame locals command program =
      some (.starts (s.startedProcess choice program)
        (s.install frame locals choice command)) := by
  have notOver : ¬choice.table.auxProcesses > 3 := by omega
  simp only [runProgram, chosen, if_neg notOver]

/-- A call does not find a program, refuses to start it with the message about too many
processes, or starts it. -/
theorem execute_cases {s : Kernel} {frame : Frame} {locals : Locals}
    {commandUser : Nat → Byte} {result : ExecuteResult}
    (executes : s.execute frame locals commandUser = some result) :
    result = .returns (-1) s ∨
      ∃ choice, s.table.choosePid
          (isShell ((localCommand commandUser).take (nameEnd (localCommand commandUser))))
          locals.nextPid = choice ∧
        ((choice.table.auxProcesses > 3 ∧ ∃ next,
          { s with
            table :=
              { choice.table with
                auxProcesses := choice.table.auxProcesses - 1 } }.terminalWrite
            (currentPcb frame.esp) maxProcessesMessage = some next ∧
          result = .returns 1 next) ∨
        ∃ program, result = .starts (s.startedProcess choice program)
          (s.install frame locals choice (localCommand commandUser))) := by
  simp only [execute] at executes
  split at executes
  · cases executes
    exact .inl rfl
  · right
    simp only [runProgram] at executes
    refine ⟨_, rfl, ?_⟩
    split at executes
    case isTrue exceeds =>
      obtain ⟨next, writes, isResult⟩ := Option.map_eq_some_iff.mp executes
      exact .inl ⟨exceeds, next, writes, isResult.symm⟩
    case isFalse =>
      cases executes
      exact .inr ⟨_, rfl⟩

theorem execute_keepsDevices {s : Kernel} {frame : Frame} {locals : Locals}
    {commandUser : Nat → Byte} {result : ExecuteResult}
    (executes : s.execute frame locals commandUser = some result) :
    s.KeepsDevices result.next := by
  rcases execute_cases executes with
    rfl | ⟨choice, _, ⟨_, next, writes, rfl⟩ | ⟨program, rfl⟩⟩
  · exact ⟨rfl, rfl⟩
  · have kept := terminalWrite_keepsDevices writes
    exact ⟨kept.rtc, kept.ptVidmap⟩
  · exact ⟨rfl, rfl⟩

/-- A call that returns has written no block; one that starts a program has
installed it. -/
theorem execute_pcb {s : Kernel} {frame : Frame} {locals : Locals}
    {commandUser : Nat → Byte} {result : ExecuteResult}
    (executes : s.execute frame locals commandUser = some result) :
    match result with
    | .returns _ next => next.pcb = s.pcb
    | .starts started next =>
        next.pcb = installPcb s.pcb (currentPcb frame.esp) frame.ebp started.pid
          started.baseBoot (localCommand commandUser) := by
  rcases execute_cases executes with
    rfl | ⟨choice, rfl, ⟨_, next, writes, rfl⟩ | ⟨program, rfl⟩⟩
  · rfl
  · obtain ⟨_, _, rfl⟩ := Option.map_eq_some_iff.mp writes
    rfl
  · rfl

/-- A new program starts on an unchanged terminal; the message about too many
processes is printed to it. -/
theorem execute_keepsKeyboard {s : Kernel} {frame : Frame} {locals : Locals}
    {commandUser : Nat → Byte} {result : ExecuteResult}
    (executes : s.execute frame locals commandUser = some result) :
    s.KeepsKeyboard result.next ∧
      ∀ started next, result = .starts started next → next.tty = s.tty := by
  rcases execute_cases executes with
    rfl | ⟨choice, _, ⟨_, next, writes, rfl⟩ | ⟨program, rfl⟩⟩
  · exact ⟨rfl, by simp⟩
  · have kept := terminalWrite_keepsKeyboard writes
    exact ⟨kept, by simp⟩
  · refine ⟨rfl, ?_⟩
    intro started next isNext
    cases isNext
    rfl

end Kernel

end LightweightOs
