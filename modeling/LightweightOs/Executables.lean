import LightweightOs.CommandParsing
import LightweightOs.ReadData
import LightweightOs.UserStores

/-!
# The files execute accepts as programs

`execute` looks at 28 bytes of a file in a buffer on the kernel stack.  It does
not look at the type of the directory entry, nor at the number of bytes that
`read_data` put into the buffer, nor at the size of the file it then loads.
-/

namespace LightweightOs

/-- `0x7F` and `"ELF"` -/
def elfMagic : List Byte := [0x7F, 0x45, 0x4C, 0x46]

namespace FileSystem

variable {fs : FileSystem} {inode : Word}

/-- The first 28 bytes of a file, as far as the file and its first block have them. -/
def head (fs : FileSystem) (inode : Word) : List Byte :=
  if fs.numDataBlocks ≤ fs.inodeBlock inode 0 then [] else (fs.contents inode).take 28

/-- The bytes that `execute` copies to `PROGRAM_START`. -/
def programImage (fs : FileSystem) (inode : Word) : List Byte :=
  (fs.readData inode 0 (fs.inodeSize inode)).getD []

/-- They stay in the user page. -/
def FitsPage (fs : FileSystem) (inode : Word) : Prop :=
  (fs.programImage inode).length ≤ 0x3B8000

/-- The little-endian word at bytes 24 to 27 of a file. -/
def entryWord (fs : FileSystem) (inode : Word) : Word :=
  fs.byteAt inode 27 ++ fs.byteAt inode 26 ++ fs.byteAt inode 25 ++ fs.byteAt inode 24

/-- `dentry` is the entry of a regular file called `name` with the 28 bytes that `execute`
looks at, the first four of them the magic. -/
structure Executable (fs : FileSystem) (name : List Byte) (dentry : DirEntry) : Prop where
  named : ∃ index, fs.readDentryByName (some name) = some (index, dentry)
  regular : dentry.fileType = 2
  number : dentry.inodeNum < fs.numInodes
  size : 28 ≤ (fs.inodeSize dentry.inodeNum).toNat
  magic : (fs.head dentry.inodeNum).take 4 = elfMagic

theorem readData_head (number : inode < fs.numInodes) :
    fs.readData inode 0 28 = some (fs.head inode) := by
  have zero : (0 : Word).toNat = 0 := rfl
  have asked : (28 : Word).toNat = 28 := rfl
  have noOffset : fs.inodeSize inode - 0 = fs.inodeSize inode := by simp
  rw [readData, if_neg (BitVec.not_le.mpr number), noOffset]
  simp only [Option.some.injEq]
  generalize isLength : (if fs.inodeSize inode < 28 then fs.inodeSize inode else 28) = length
  have least : length.toNat = min (fs.inodeSize inode).toNat 28 := by
    rw [← isLength]
    split
    case isTrue short =>
      rw [BitVec.lt_def, asked] at short
      omega
    case isFalse long =>
      rw [BitVec.lt_def, asked] at long
      omega
  have stop : 0 + length = length := BitVec.zero_add length
  rw [head, stop]
  split
  case isTrue bad =>
    rw [copyData_eq_nil]
    exact .inr (.inr bad)
  case isFalse good =>
    have firstBlock : ∀ block : Nat, block * 4096 < length.toNat →
        fs.inodeBlock inode (BitVec.ofNat 32 block) < fs.numDataBlocks := by
      intro block within
      have isFirst : block = 0 := by omega
      rw [isFirst]
      exact BitVec.not_le.mp good
    rw [copyData_eq firstBlock (by omega) (by omega), zero, List.drop_zero, least,
      ← contents_length, Nat.min_comm, ← List.take_eq_take_min]

theorem head_getElem {i : Nat} (within : i < (fs.head inode).length) :
    (fs.head inode)[i] = fs.byteAt inode i := by
  by_cases bad : fs.numDataBlocks ≤ fs.inodeBlock inode 0
  · have nothing : fs.head inode = [] := by rw [head, if_pos bad]
    simp [nothing] at within
  · have isHead : fs.head inode = (fs.contents inode).take 28 := by rw [head, if_neg bad]
    simp [isHead, contents]

theorem head_length (long : (fs.head inode).length = 28) :
    28 ≤ (fs.inodeSize inode).toNat := by
  rw [head] at long
  split at long
  · simp at long
  · rw [List.length_take, contents_length] at long
    omega

theorem head_of_magic (size : 28 ≤ (fs.inodeSize inode).toNat)
    (magic : (fs.head inode).take 4 = elfMagic) : (fs.head inode).length = 28 := by
  unfold head at magic ⊢
  split at magic
  · simp [elfMagic] at magic
  · case isFalse good =>
    rw [if_neg good, List.length_take, contents_length]
    omega

theorem copyData_length_le (fs : FileSystem) (inode stop index : Word) (left : Nat) :
    (fs.copyData inode stop index left).length ≤ left := by
  induction left generalizing index with
  | zero => exact Nat.le_refl 0
  | succ left induction =>
      rw [copyData]
      split
      · simp only
        split
        · exact Nat.zero_le _
        · exact Nat.succ_le_succ (induction _)
      · exact Nat.zero_le _

theorem programImage_eq (number : inode < fs.numInodes) :
    fs.programImage inode =
      fs.copyData inode (fs.inodeSize inode) 0 (fs.inodeSize inode).toNat := by
  have notOver : ¬fs.inodeSize inode < fs.inodeSize inode := by
    rw [BitVec.lt_def]
    omega
  have noOffset : fs.inodeSize inode - 0 = fs.inodeSize inode := by simp
  have stop : 0 + fs.inodeSize inode = fs.inodeSize inode := BitVec.zero_add _
  rw [programImage, readData, if_neg (BitVec.not_le.mpr number), noOffset]
  simp only [if_neg notOver, stop, Option.getD_some]

theorem programImage_length_le (number : inode < fs.numInodes) :
    (fs.programImage inode).length ≤ (fs.inodeSize inode).toNat := by
  rw [programImage_eq number]
  exact fs.copyData_length_le _ _ _ _

theorem head_of_programImage (number : inode < fs.numInodes)
    (long : 28 ≤ (fs.programImage inode).length) : (fs.head inode).length = 28 := by
  have size := long.trans (programImage_length_le number)
  have copied : fs.programImage inode ≠ [] := by
    intro isEmpty
    rw [isEmpty] at long
    simp at long
  rw [programImage_eq number, Ne, copyData_eq_nil, not_or, not_or] at copied
  have good : ¬fs.numDataBlocks ≤ fs.inodeBlock inode 0 := copied.2.2
  rw [head, if_neg good, List.length_take, contents_length]
  omega

end FileSystem

namespace ProcessTable

/-- A base shell is to be booted, or one of the slots of the other processes is free. -/
def PidAvailable (table : ProcessTable) (isShell : Bool) : Prop :=
  isShell = true ∧ (table.shellInitBoot ≠ 0 ∨
      table.baseShellBootedBitmask ^^^ table.baseShellLiveBitmask ≠ 0) ∨
    ∃ i ∈ ([3, 4, 5] : List Int), table.activeProcesses i = 0

/-- As long as the counter counts the slots, the limit is passed only without an identifier. -/
theorem choosePid_within {table : ProcessTable}
    (counted : table.auxProcesses = auxSlots table.activeProcesses) (isShell : Bool)
    (nextPid : Int) :
    (table.choosePid isShell nextPid).table.auxProcesses ≤ 3 ↔
      table.PidAvailable isShell := by
  have atMost := @auxSlots_le table.activeProcesses
  have auxiliary : (table.startAux nextPid).table.auxProcesses ≤ 3 ↔
      ∃ i ∈ ([3, 4, 5] : List Int), table.activeProcesses i = 0 := by
    cases found : ([3, 4, 5] : List Int).find? fun i => table.activeProcesses i = 0 with
    | none =>
        obtain ⟨taken, full⟩ := @startAux_full table nextPid found
        rw [full]
        constructor
        · intro within
          simp only at within
          omega
        · rintro ⟨i, slot, free⟩
          have busy := List.find?_eq_none.mp found i slot
          simp [free] at busy
    | some i =>
        obtain ⟨slot, free, isStart⟩ := @startAux_free table nextPid i found
        have room := auxSlots_take slot free
        have stillAtMost := @auxSlots_le (assign table.activeProcesses i 1)
        rw [isStart]
        constructor
        · exact fun _ => ⟨i, slot, free⟩
        · intro _
          simp only
          omega
  cases isShell with
  | false => simpa [choosePid, PidAvailable] using auxiliary
  | true =>
      simp only [choosePid, PidAvailable, if_true, true_and]
      by_cases boot : table.shellInitBoot ≠ 0
      · rw [if_pos boot]
        constructor
        · exact fun _ => .inl (.inl boot)
        · intro _
          change table.auxProcesses ≤ 3
          omega
      · rw [if_neg boot]
        by_cases reboot : table.baseShellBootedBitmask ^^^ table.baseShellLiveBitmask ≠ 0
        · rw [if_pos reboot]
          constructor
          · exact fun _ => .inl (.inr reboot)
          · intro _
            change table.auxProcesses ≤ 3
            omega
        · rw [if_neg reboot, auxiliary]
          constructor
          · exact .inr
          · rintro ((isBoot | isReboot) | free)
            · exact (boot isBoot).elim
            · exact (reboot isReboot).elim
            · exact free

end ProcessTable

/-- The buffer of `execute` after `read_data` stored `bytes` in it. -/
def metadataBuffer (bytes : List Byte) (stack : Nat → Byte) : Nat → Byte :=
  fun i => bytes.getD i (stack i)

/-- The comparison of the first four bytes. -/
def HasMagic (fileMetadata : Nat → Byte) : Prop :=
  fileMetadata 0 = 0x7F ∧ fileMetadata 1 = 0x45 ∧ fileMetadata 2 = 0x4C ∧
    fileMetadata 3 = 0x46

section Buffer

variable {bytes : List Byte} {stack : Nat → Byte}

theorem metadataBuffer_of_lt {i : Nat} (inside : i < bytes.length) :
    metadataBuffer bytes stack i = bytes[i] := by
  rw [metadataBuffer, List.getD_eq_getElem?_getD, List.getElem?_eq_getElem inside]
  rfl

theorem hasMagic_iff : HasMagic (metadataBuffer bytes stack) ↔
    ∀ i, (inside : i < elfMagic.length) → metadataBuffer bytes stack i = elfMagic[i] := by
  constructor
  · rintro ⟨first, second, third, fourth⟩ i inside
    match i, inside with
    | 0, _ => exact first
    | 1, _ => exact second
    | 2, _ => exact third
    | 3, _ => exact fourth
  · intro equal
    exact ⟨equal 0 (by decide), equal 1 (by decide), equal 2 (by decide),
      equal 3 (by decide)⟩

/-- The bytes stored agree with the magic wherever the buffer has it. -/
theorem prefix_of_hasMagic (magic : HasMagic (metadataBuffer bytes stack)) :
    bytes.take 4 <+: elfMagic := by
  rw [hasMagic_iff] at magic
  rw [List.prefix_iff_getElem]
  have four : elfMagic.length = 4 := rfl
  refine ⟨by rw [List.length_take]; omega, ?_⟩
  intro i inside
  rw [List.length_take] at inside
  rw [List.getElem_take, ← magic i (by omega), metadataBuffer_of_lt]

theorem exists_hasMagic (agrees : bytes.take 4 <+: elfMagic) :
    ∃ stack, HasMagic (metadataBuffer bytes stack) := by
  refine ⟨fun i => elfMagic.getD i nul, ?_⟩
  rw [hasMagic_iff]
  intro i inside
  have four : elfMagic.length = 4 := rfl
  obtain ⟨_, equal⟩ := List.prefix_iff_getElem.mp agrees
  by_cases stored : i < bytes.length
  · have inTake : i < (bytes.take 4).length := by
      rw [List.length_take]
      omega
    rw [metadataBuffer_of_lt stored, ← equal i inTake, List.getElem_take]
  · rw [metadataBuffer, List.getD_eq_getElem?_getD, List.getElem?_eq_none (by omega)]
    simp [inside]

theorem hasMagic_of_take (magic : bytes.take 4 = elfMagic) :
    HasMagic (metadataBuffer bytes stack) := by
  rw [hasMagic_iff]
  intro i inside
  have four : elfMagic.length = 4 := rfl
  have long := congrArg List.length magic
  rw [List.length_take, four] at long
  rw [metadataBuffer_of_lt (by omega)]
  simp only [← magic, List.getElem_take]

end Buffer

/-- What `execute` accepts: the head of the file with the stack behind it has the magic. -/
theorem findProgram_eq_some {fs : FileSystem} {name : List Byte} {stack : Nat → Byte}
    {program : Program} :
    findProgram fs name stack = some program ↔
      ∃ index dentry, fs.readDentryByName (some name) = some (index, dentry) ∧
        dentry.inodeNum < fs.numInodes ∧
        HasMagic (metadataBuffer (fs.head dentry.inodeNum) stack) ∧
        program = ⟨dentry.inodeNum, metadataBuffer (fs.head dentry.inodeNum) stack⟩ := by
  rw [findProgram]
  cases found : fs.readDentryByName (some name) with
  | none => simp
  | some entry =>
      obtain ⟨index, dentry⟩ := entry
      by_cases number : dentry.inodeNum < fs.numInodes
      · simp only [FileSystem.readData_head number]
        split
        case isTrue bad =>
          constructor
          · intro isProgram
            cases isProgram
          · rintro ⟨_, _, isEntry, _, ⟨first, second, third, fourth⟩, _⟩
            cases isEntry
            rcases bad with differs | differs | differs | differs
            · exact (differs first).elim
            · exact (differs second).elim
            · exact (differs third).elim
            · exact (differs fourth).elim
        case isFalse good =>
          simp only [not_or, not_not] at good
          constructor
          · intro isProgram
            cases isProgram
            exact ⟨index, dentry, rfl, number, good, rfl⟩
          · rintro ⟨_, _, isEntry, _, _, rfl⟩
            cases isEntry
            rfl
      · have fails : fs.readData dentry.inodeNum 0 28 = none := by
          rw [FileSystem.readData, if_pos (BitVec.not_lt.mp number)]
        simp only [fails]
        constructor
        · intro isProgram
          cases isProgram
        · rintro ⟨_, _, isEntry, inside, _⟩
          cases isEntry
          exact (number inside).elim

theorem entryPoint_head {fs : FileSystem} {inode : Word} {stack : Nat → Byte}
    (whole : (fs.head inode).length = 28) :
    entryPoint (metadataBuffer (fs.head inode) stack) = fs.entryWord inode := by
  have stored : ∀ i < 28, metadataBuffer (fs.head inode) stack i = fs.byteAt inode i := by
    intro i inside
    rw [metadataBuffer_of_lt (by omega), FileSystem.head_getElem]
  rw [entryPoint, FileSystem.entryWord, stored 27 (by decide), stored 26 (by decide),
    stored 25 (by decide), stored 24 (by decide)]

/-- The file that the first word names, when it could pass for a program, is one if it
fits the page, and no regular file if it does not. -/
def FileSystem.NamesNoOddFile (fs : FileSystem) (name : List Byte) : Prop :=
  ∀ index dentry, fs.readDentryByName (some name) = some (index, dentry) →
    dentry.inodeNum < fs.numInodes → (fs.head dentry.inodeNum).take 4 <+: elfMagic →
      (fs.FitsPage dentry.inodeNum →
        dentry.fileType = 2 ∧ (fs.head dentry.inodeNum).length = 28) ∧
      (¬fs.FitsPage dentry.inodeNum → dentry.fileType ≠ 2)

/-- Without odd files neither the check nor the load depends on the stack. -/
theorem findProgram_iff_executable {fs : FileSystem} {name : List Byte}
    (noOddFile : fs.NamesNoOddFile name) (stack : Nat → Byte) :
    (∃ program, findProgram fs name stack = some program ∧ fs.FitsPage program.inodeNum) ↔
      ∃ dentry, fs.Executable name dentry := by
  constructor
  · rintro ⟨program, found, fits⟩
    obtain ⟨index, dentry, isEntry, number, magic, rfl⟩ := findProgram_eq_some.mp found
    have agrees := prefix_of_hasMagic magic
    obtain ⟨regular, whole⟩ := (noOddFile index dentry isEntry number agrees).1 fits
    refine ⟨dentry, ⟨index, isEntry⟩, regular, number, FileSystem.head_length whole, ?_⟩
    apply agrees.eq_of_length
    rw [List.length_take, whole]
    rfl
  · rintro ⟨dentry, ⟨index, isEntry⟩, regular, number, _, magic⟩
    have agrees : (fs.head dentry.inodeNum).take 4 <+: elfMagic :=
      magic ▸ List.prefix_rfl
    have fits : fs.FitsPage dentry.inodeNum := by
      by_contra long
      exact (noOddFile index dentry isEntry number agrees).2 long regular
    exact ⟨_, findProgram_eq_some.mpr
      ⟨index, dentry, isEntry, number, hasMagic_of_take magic, rfl⟩, fits⟩

namespace Kernel

/-- Whatever the kernel stack holds, `execute` starts the program of a real executable and
nothing else, at the entry point in the file. -/
structure StartsExecutables (s : Kernel) (frame : Frame) (commandUser : Nat → Byte) :
    Prop where
  starts : ∀ locals,
    (∃ started next,
      s.executeEnding frame locals commandUser = some (.starts started next)) ↔
      s.table.PidAvailable (isShell (firstWord (localCommand commandUser))) ∧
        ∃ dentry, s.fs.Executable (firstWord (localCommand commandUser)) dentry
  entry : ∀ locals started next,
    s.executeEnding frame locals commandUser = some (.starts started next) →
      ∃ index dentry,
        s.fs.readDentryByName (some (firstWord (localCommand commandUser))) =
          some (index, dentry) ∧
        started.eip = s.fs.entryWord dentry.inodeNum
  independent : ∀ locals other started next,
    s.executeEnding frame locals commandUser = some (.starts started next) →
      ∃ otherStarted otherNext,
        s.executeEnding frame other commandUser =
            some (.starts otherStarted otherNext) ∧
          otherStarted.eip = started.eip

variable {s : Kernel} {frame : Frame} {locals : Locals} {commandUser : Nat → Byte}

theorem execute_starts_eq {started : Started} {next : Kernel}
    (executes : s.execute frame locals commandUser = some (.starts started next)) :
    ∃ program, findProgram s.fs (firstWord (localCommand commandUser))
        locals.fileMetadata = some program ∧
      started = s.startedProcess (s.table.choosePid
        (isShell (firstWord (localCommand commandUser))) locals.nextPid) program := by
  simp only [execute, take_nameEnd] at executes
  split at executes
  · cases executes
  case h_2 program found =>
    refine ⟨program, found, ?_⟩
    simp only [runProgram, take_nameEnd] at executes
    split at executes
    · obtain ⟨_, _, isReturn⟩ := Option.map_eq_some_iff.mp executes
      cases isReturn
    · cases executes
      rfl

theorem execute_starts (counted : s.table.auxProcesses =
    ProcessTable.auxSlots s.table.activeProcesses) :
    (∃ started next, s.execute frame locals commandUser = some (.starts started next)) ↔
      s.table.PidAvailable (isShell (firstWord (localCommand commandUser))) ∧
        ∃ program, findProgram s.fs (firstWord (localCommand commandUser))
          locals.fileMetadata = some program := by
  rw [execute_starts_iff, startsProgram]
  cases findProgram s.fs (firstWord (localCommand commandUser)) locals.fileMetadata with
  | none => simp
  | some program => simp [ProcessTable.choosePid_within counted]

/-- `execute` starts what it finds when an identifier is available and the load fits. -/
theorem executeEnding_starts (counted : s.table.auxProcesses =
    ProcessTable.auxSlots s.table.activeProcesses) :
    (∃ started next,
      s.executeEnding frame locals commandUser = some (.starts started next)) ↔
      s.table.PidAvailable (isShell (firstWord (localCommand commandUser))) ∧
        ∃ program, findProgram s.fs (firstWord (localCommand commandUser))
          locals.fileMetadata = some program ∧ s.fs.FitsPage program.inodeNum := by
  constructor
  · rintro ⟨started, next, ends⟩
    obtain ⟨executes, fits⟩ := executeEnding_eq_starts.mp ends
    obtain ⟨available, _⟩ := (execute_starts counted).mp ⟨started, next, executes⟩
    obtain ⟨program, found, rfl⟩ := execute_starts_eq executes
    exact ⟨available, program, found, fits⟩
  · rintro ⟨available, program, found, fits⟩
    obtain ⟨started, next, executes⟩ :=
      (execute_starts counted).mpr ⟨available, program, found⟩
    refine ⟨started, next, executeEnding_eq_starts.mpr ⟨executes, ?_⟩⟩
    obtain ⟨other, same, rfl⟩ := execute_starts_eq executes
    rw [found] at same
    cases same
    exact fits

end Kernel

/-- `execute` starts exactly the real executables, whatever the stack holds, unless its
first word names an odd file while an identifier is available: one whose bytes agree with
the magic as far as they go, but which is no regular file or has less than 28 bytes, or a
program that is too long for its page. -/
theorem real_executables {s : Kernel}
    (counted : s.table.auxProcesses = ProcessTable.auxSlots s.table.activeProcesses)
    (frame : Frame) (commandUser : Nat → Byte) :
    s.StartsExecutables frame commandUser ↔
      (s.table.PidAvailable (isShell (firstWord (localCommand commandUser))) →
        s.fs.NamesNoOddFile (firstWord (localCommand commandUser))) := by
  constructor
  · intro real available index dentry isEntry number agrees
    constructor
    · intro fits
      obtain ⟨stack, magic⟩ := exists_hasMagic agrees
      have found := findProgram_eq_some.mpr ⟨index, dentry, isEntry, number, magic, rfl⟩
      obtain ⟨_, entry, executable⟩ :=
        (real.starts { sampleLocals with fileMetadata := stack }).mp
          ((Kernel.executeEnding_starts counted).mpr ⟨available, _, found, fits⟩)
      obtain ⟨place, isExecutable⟩ := executable.named
      rw [isEntry] at isExecutable
      cases isExecutable
      exact ⟨executable.regular,
        FileSystem.head_of_magic executable.size executable.magic⟩
    · -- a file that does not fit has its head, and would have to be started
      intro long regular
      rw [FileSystem.FitsPage] at long
      have whole := FileSystem.head_of_programImage number (by omega)
      have magic : (s.fs.head dentry.inodeNum).take 4 = elfMagic := by
        apply agrees.eq_of_length
        rw [List.length_take, whole]
        rfl
      have executable : s.fs.Executable (firstWord (localCommand commandUser)) dentry :=
        ⟨⟨index, isEntry⟩, regular, number, FileSystem.head_length whole, magic⟩
      obtain ⟨_, program, found, fits⟩ := (Kernel.executeEnding_starts counted).mp
        ((real.starts sampleLocals).mpr ⟨available, dentry, executable⟩)
      obtain ⟨_, _, isSame, _, _, rfl⟩ := findProgram_eq_some.mp found
      rw [isEntry] at isSame
      cases isSame
      exact long fits
  · intro noOddFile
    have decision : ∀ locals, (∃ started next,
        s.executeEnding frame locals commandUser = some (.starts started next)) ↔
        s.table.PidAvailable (isShell (firstWord (localCommand commandUser))) ∧
          ∃ dentry, s.fs.Executable (firstWord (localCommand commandUser)) dentry := by
      intro locals
      rw [Kernel.executeEnding_starts counted]
      constructor
      · rintro ⟨available, found⟩
        exact ⟨available,
          (findProgram_iff_executable (noOddFile available) _).mp found⟩
      · rintro ⟨available, executable⟩
        exact ⟨available,
          (findProgram_iff_executable (noOddFile available) _).mpr executable⟩
    have entry : ∀ locals started next,
        s.executeEnding frame locals commandUser = some (.starts started next) →
          ∃ index dentry,
            s.fs.readDentryByName (some (firstWord (localCommand commandUser))) =
              some (index, dentry) ∧
            started.eip = s.fs.entryWord dentry.inodeNum := by
      intro locals started next ends
      obtain ⟨available, _⟩ := (decision locals).mp ⟨started, next, ends⟩
      obtain ⟨executes, fits⟩ := Kernel.executeEnding_eq_starts.mp ends
      obtain ⟨program, found, rfl⟩ := Kernel.execute_starts_eq executes
      obtain ⟨index, dentry, isEntry, number, magic, rfl⟩ := findProgram_eq_some.mp found
      obtain ⟨_, whole⟩ :=
        (noOddFile available index dentry isEntry number (prefix_of_hasMagic magic)).1 fits
      exact ⟨index, dentry, isEntry, entryPoint_head whole⟩
    constructor
    case starts => exact decision
    case entry => exact entry
    case independent =>
      intro locals other started next ends
      obtain ⟨otherStarted, otherNext, otherEnds⟩ :=
        (decision other).mpr ((decision locals).mp ⟨started, next, ends⟩)
      obtain ⟨index, dentry, isEntry, eip⟩ := entry locals started next ends
      obtain ⟨place, same, isSame, otherEip⟩ :=
        entry other otherStarted otherNext otherEnds
      rw [isEntry] at isSame
      cases isSame
      exact ⟨otherStarted, otherNext, otherEnds, otherEip.trans eip.symm⟩

/-- The command line of the first shell on the machine with one program. -/
theorem real_executables_sampleStart :
    sampleStart.StartsExecutables (sampleFrame 1) sampleCommand := by
  apply (real_executables (by decide) (sampleFrame 1) sampleCommand).mpr
  intro _ index dentry isEntry number _
  obtain ⟨inside, rfl⟩ := FileSystem.readDentryByName_eq isEntry
  have short := FileSystem.programImage_length_le number
  rw [sampleFs_onlyEntry inside] at short ⊢
  have size : (sampleFs.inodeSize (sampleFs.dirEntry 0).inodeNum).toNat ≤ 0x3B8000 := by
    decide
  exact ⟨fun _ => by decide, fun long => (long (short.trans size)).elim⟩

/-- The machine with a directory "." that shares inode 0 with the shell. -/
def dotFs : FileSystem where
  image := fun offset =>
    (([(0, 2#8), (128, 0x2E#8), (160, 1#8)] ++ sampleImage).lookup offset.toNat).getD 0

def dotCommand : Nat → Byte := fun i => if i = 0 then 0x2E else nul

/-- `execute(".")` runs a directory. -/
theorem real_executables_dot :
    ¬∀ (s : Kernel) (frame : Frame) (commandUser : Nat → Byte),
      s.table.auxProcesses = ProcessTable.auxSlots s.table.activeProcesses →
        s.StartsExecutables frame commandUser := by
  intro real
  have starts := (real { sampleStart with fs := dotFs } (sampleFrame 1) dotCommand
    (by decide)).starts sampleLocals
  have isDirectory : dotFs.readDentryByName
      (some (firstWord (localCommand dotCommand))) = some (1, dotFs.dirEntry 1) := by
    rfl
  have ends : ∃ started next, ({ sampleStart with fs := dotFs } : Kernel).executeEnding
      (sampleFrame 1) sampleLocals dotCommand = some (.starts started next) := by
    obtain ⟨started, next, executes⟩ : ∃ started next,
        ({ sampleStart with fs := dotFs } : Kernel).execute (sampleFrame 1) sampleLocals
          dotCommand = some (.starts started next) :=
      Kernel.execute_starts_iff.mpr (by decide +kernel)
    refine ⟨started, next, Kernel.executeEnding_eq_starts.mpr ⟨executes, ?_⟩⟩
    obtain ⟨program, found, rfl⟩ := Kernel.execute_starts_eq executes
    obtain ⟨index, dentry, isEntry, number, _, rfl⟩ := findProgram_eq_some.mp found
    cases isDirectory.symm.trans isEntry
    have size : (dotFs.inodeSize (dotFs.dirEntry 1).inodeNum).toNat ≤ 0x3B8000 := by decide
    exact (FileSystem.programImage_length_le number).trans size
  obtain ⟨_, dentry, executable⟩ := starts.mp ends
  obtain ⟨index, isEntry⟩ := executable.named
  have regular := executable.regular
  have both := isDirectory.symm.trans isEntry
  cases both
  revert regular
  decide

end LightweightOs
