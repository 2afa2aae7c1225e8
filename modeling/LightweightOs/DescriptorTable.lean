import LightweightOs.Programs

/-!
# The descriptor table of a process

A live process has stdin and stdout open, and every other entry of its table is
unused or carries the operations of one of the three types of files.  A block
that is not in use has no open entry above 1, which is what `execute` relies on
when it fills only the first two.  From this the calls keep their contract:
`open` hands out the lowest unused entry, `close` gives back exactly one, and no
call goes through a NULL pointer.
-/

namespace LightweightOs

open Transition

/-- No entry above stdin and stdout is in use. -/
def Spare (files : Nat → FileDescriptor) : Prop :=
  ∀ fd, 2 ≤ fd → fd ≤ 7 → (files fd).flags = 0

def openTables : List FileOperationsTable :=
  [rtcOperationsTable, dirOperationsTable, fileOperationsTable]

/-- The table of a live process. -/
structure Standard (files : Nat → FileDescriptor) : Prop where
  stdin : files 0 = { stdinFd with flags := 1 }
  stdout : files 1 = { stdoutFd with flags := 1 }
  operations : ∀ fd, 2 ≤ fd → fd ≤ 7 →
    (files fd).flags = 0 ∨ (files fd).operationsTable ∈ openTables

section Tables

variable {files old new : Nat → FileDescriptor}

theorem closeFiles_spare : Spare (closeFiles files) := by
  intro fd low high
  have inside : fd < 8 := by omega
  by_cases used : (files fd).flags = 0
  · simp [closeFiles, used]
  · rw [closeFiles, if_pos ⟨inside, used⟩]

theorem Spare.standardFiles (spare : Spare files) :
    Spare (standardFiles files) := by
  intro fd low high
  have first : fd ≠ 0 := by omega
  have second : fd ≠ 1 := by omega
  simpa [LightweightOs.standardFiles, first, second] using spare fd low high

theorem Spare.standard (spare : Spare files) : Standard (LightweightOs.standardFiles files) where
  stdin := by simp [LightweightOs.standardFiles]
  stdout := by simp [LightweightOs.standardFiles]
  operations := fun fd low high => .inl (spare.standardFiles fd low high)

theorem openedFile_eq {file opened : FileDescriptor} {dentry : DirEntry}
    (opens : openedFile file dentry = some opened) :
    opened.flags = 1 ∧ opened.filePosition = 0 ∧ opened.operationsTable ∈ openTables := by
  simp only [openedFile] at opens
  split at opens
  · cases opens
    exact ⟨rfl, rfl, by simp [openTables]⟩
  · split at opens
    · cases opens
      exact ⟨rfl, rfl, by simp [openTables]⟩
    · split at opens
      · cases opens
        exact ⟨rfl, rfl, by simp [openTables]⟩
      · cases opens

theorem Standard.assign (standard : Standard old) {fd : Nat} {file : FileDescriptor}
    (low : 2 ≤ fd) (valid : file.flags = 0 ∨ file.operationsTable ∈ openTables) :
    Standard (LightweightOs.assign old fd file) where
  stdin := by
    have other : 0 ≠ fd := by omega
    simpa [other] using standard.stdin
  stdout := by
    have other : 1 ≠ fd := by omega
    simpa [other] using standard.stdout
  operations := by
    intro other otherLow high
    by_cases here : other = fd
    · subst here
      simpa using valid
    · simpa [here] using standard.operations other otherLow high

theorem CallStep.standard {s : Kernel} {entry : Entry} {p : Int}
    (call : CallStep s entry p old new) (standard : Standard old) : Standard new := by
  cases call with
  | keeps files =>
      rw [files]
      exact standard
  | opens _ unused _ opened files =>
      rw [files]
      exact standard.assign (unusedDescriptor_eq unused).1 (.inr (openedFile_eq opened).2.2)
  | closes _ range _ files =>
      rw [files]
      exact standard.assign range.1 (.inl rfl)
  | @reads fd _ _ _ _ _ high _ operation files =>
      -- stdin and stdout are not read through a position
      have first : fd ≠ 0 := by
        rintro rfl
        simp [standard.stdin, stdinFd] at operation
      have second : fd ≠ 1 := by
        rintro rfl
        simp [standard.stdout, stdoutFd] at operation
      rw [files]
      exact standard.assign (by omega) (standard.operations fd (by omega) high)

end Tables

/-- Blocks of live processes have tables, the others have no open entry. -/
structure Tidy (s : Kernel) (a : Session) : Prop where
  live : ∀ p, a.Live p → Standard (s.pcb (pcbAddr p)).files
  dead : ∀ p, 1 ≤ p ∧ p ≤ 6 → ¬a.Live p → Spare (s.pcb (pcbAddr p)).files

theorem Tidy.step {s next : Kernel} {a : Session} {entry : Entry} (tidy : Tidy s a)
    (represents : Represents s a) (acts : Acts s entry next) :
    ∃ b, Represents next b ∧ Tidy next b := by
  obtain ⟨b, after, lives, program⟩ := represents.programStep acts
  refine ⟨b, after, ?_, ?_⟩
  · intro p live
    have range := after.numbered.range live
    cases program p range with
    | enters started isStart isPid fresh files =>
        rw [files]
        exact (tidy.dead p range fresh).standard
    | restarts started isStart isPid ends files =>
        rw [files]
        exact closeFiles_spare.standard
    | ends ends dead files => exact (dead live).elim
    | stays stays same call => exact call.standard (tidy.live p (same.mp live))
  · intro p range dead
    cases program p range with
    | enters started isStart isPid fresh files =>
        rw [files]
        exact (tidy.dead p range fresh).standardFiles
    | restarts started isStart isPid ends files =>
        rw [files]
        exact closeFiles_spare.standardFiles
    | ends ends _ files =>
        rw [files]
        exact closeFiles_spare
    | stays stays same call =>
        have wasDead : ¬a.Live p := fun live => dead (same.mpr live)
        have other : entry.running ≠ p := by
          rintro rfl
          rw [Entry.running, acts.before] at wasDead
          exact wasDead represents.runsPid.1
        rw [call.eq_of_ne other]
        exact tidy.dead p range wasDead

/-- The first shell, started on memory whose blocks have no open entry. -/
def BlankBooted (s : Kernel) : Prop :=
  ∃ pre frame locals after started, PreBoot pre ∧
    (∀ p, 1 ≤ p ∧ p ≤ 6 → Spare (pre.pcb (pcbAddr p)).files) ∧ frame.On pre ∧
    pre.execute frame locals (shellCommand after) = some (.starts started s)

theorem BlankBooted.booted {s : Kernel} (booted : BlankBooted s) : Booted s := by
  obtain ⟨pre, frame, locals, after, started, preBoot, _, on, executes⟩ := booted
  exact ⟨pre, frame, locals, after, started, preBoot, on, executes⟩

theorem BlankBooted.tidy {s : Kernel} (booted : BlankBooted s) : Tidy s firstSession := by
  obtain ⟨pre, frame, locals, after, started, preBoot, spare, on, executes⟩ := booted
  obtain ⟨_, rfl⟩ := preBoot.install executes
  have files : ∀ p, 1 ≤ p ∧ p ≤ 6 →
      ((pre.install frame locals ProcessTable.initial.bootBase
        (localCommand (shellCommand after))).pcb (pcbAddr p)).files =
      if p = 1 then standardFiles (pre.pcb (pcbAddr p)).files
      else (pre.pcb (pcbAddr p)).files := by
    intro p range
    have same : pcbAddr p = pcbAddr 1 ↔ p = 1 := by
      constructor
      · intro equality
        by_contra different
        exact pcbAddr_ne (by omega) (by omega) (by omega) (by omega) different equality
      · rintro rfl
        rfl
    have written := installPcb_files pre.pcb (currentPcb frame.esp) frame.ebp 1 true
      (localCommand (shellCommand after)) (pcbAddr p)
    rw [if_congr same rfl rfl] at written
    exact written
  constructor
  · intro p live
    rw [live_firstSession] at live
    subst live
    rw [files 1 (by omega), if_pos rfl]
    exact (spare 1 (by omega)).standard
  · intro p range dead
    rw [live_firstSession] at dead
    rw [files p range, if_neg dead]
    exact spare p range

/-- Every state of a run represents a session and keeps its blocks tidy. -/
theorem BlankBooted.run {start s : Kernel} {history : List Entry}
    (booted : BlankBooted start) (run : Run Acts start history s) :
    ∃ a, Represents s a ∧ Tidy s a := by
  have preserved : ∀ state entry next, (∃ a, Represents state a ∧ Tidy state a) →
      Acts state entry next → ∃ b, Represents next b ∧ Tidy next b :=
    fun _ _ _ ⟨_, represents, tidy⟩ acts => tidy.step represents acts
  exact run.invariant preserved ⟨_, booted.booted.represents, booted.tidy⟩

def LowestUnused (files : Nat → FileDescriptor) (fd : Nat) : Prop :=
  (2 ≤ fd ∧ fd ≤ 7 ∧ (files fd).flags = 0) ∧
    ∀ lower, 2 ≤ lower → lower < fd → (files lower).flags ≠ 0

def InUse (files : Nat → FileDescriptor) (fd : Int) : Prop :=
  0 ≤ fd ∧ fd ≤ 7 ∧ (files fd.toNat).flags ≠ 0

/-- The name is in the directory, as a file of type 0, 1 or 2. -/
def CanOpen (fs : FileSystem) (filename : Option (List Byte)) : Prop :=
  ∃ index dentry, fs.readDentryByName filename = some (index, dentry) ∧
    (dentry.fileType = 0 ∨ dentry.fileType = 1 ∨ dentry.fileType = 2)

/-- The descriptors of the running process. -/
def Kernel.ownFiles (s : Kernel) : Nat → FileDescriptor :=
  (s.pcb (currentPcb s.esp)).files

/-- What a program can rely on when it makes a call in the state `s`. -/
structure DescriptorContract (s : Kernel) : Prop where
  opens : ∀ frame filename fd, frame.On s → LowestUnused s.ownFiles fd →
    CanOpen s.fs filename →
    ∃ next, s.act (.call frame (.openFile filename)) = some (.returned fd [], next) ∧
      InUse next.ownFiles fd ∧
      (∀ other, other ≠ fd → next.ownFiles other = s.ownFiles other)
  openFails : ∀ frame filename, frame.On s →
    ¬((∃ fd, LowestUnused s.ownFiles fd) ∧ CanOpen s.fs filename) →
    s.act (.call frame (.openFile filename)) = some (.returned (-1) [], s)
  closes : ∀ frame (fd : Int), frame.On s → 2 ≤ fd → InUse s.ownFiles fd →
    ∃ next, s.act (.call frame (.close fd)) = some (.returned 0 [], next) ∧
      ¬InUse next.ownFiles fd ∧
      (∀ other, other ≠ fd.toNat → next.ownFiles other = s.ownFiles other)
  closeFails : ∀ frame fd, frame.On s → ¬(2 ≤ fd ∧ InUse s.ownFiles fd) →
    s.act (.call frame (.close fd)) = some (.returned (-1) [], s)
  readFails : ∀ frame fd buf nbytes stack, frame.On s → ¬InUse s.ownFiles fd →
    s.act (.call frame (.read fd buf nbytes stack)) = some (.returned (-1) [], s)
  writeFails : ∀ frame fd buf nbytes input, frame.On s → ¬InUse s.ownFiles fd →
    s.act (.call frame (.write fd buf nbytes input)) = some (.returned (-1) [], s)
  dispatches : ∀ frame call next, frame.On s →
    s.act (.call frame call) ≠ some (.null, next)
  haltDispatches : .null ∉ closedByHalt s.ownFiles

theorem unusedDescriptor_iff {files : Nat → FileDescriptor} {fd : Nat} :
    unusedDescriptor files = some fd ↔ LowestUnused files fd := by
  have scan : ([2, 3, 4, 5, 6, 7] : List Nat) = List.range' 2 6 := rfl
  rw [unusedDescriptor, scan, List.find?_range'_eq_some]
  simp only [LowestUnused, List.mem_range'_1, decide_eq_true_eq, Bool.not_eq_true',
    decide_eq_false_iff_not]
  constructor
  · intro ⟨unused, range, used⟩
    exact ⟨⟨by omega, by omega, unused⟩, used⟩
  · intro ⟨⟨low, high, unused⟩, used⟩
    exact ⟨unused, by omega, used⟩

theorem openedFile_isSome {file : FileDescriptor} {dentry : DirEntry} :
    (openedFile file dentry).isSome ↔
      dentry.fileType = 0 ∨ dentry.fileType = 1 ∨ dentry.fileType = 2 := by
  simp only [openedFile]
  split_ifs <;> simp_all

/-- `open` fails exactly when no entry is free or the name cannot be opened. -/
theorem Kernel.open_eq (s : Kernel) (current : Word) (filename : Option (List Byte)) :
    (∃ fd next, LowestUnused (s.pcb current).files fd ∧ CanOpen s.fs filename ∧
      s.open current filename = .returns fd [] next ∧ next.esp = s.esp ∧
      ∃ file, file.flags = 1 ∧
        (next.pcb current).files = assign (s.pcb current).files fd file) ∨
    ¬((∃ fd, LowestUnused (s.pcb current).files fd) ∧ CanOpen s.fs filename) ∧
      s.open current filename = .returns (-1) [] s := by
  rw [Kernel.open]
  cases unused : unusedDescriptor (s.pcb current).files with
  | none =>
      right
      refine ⟨?_, rfl⟩
      rintro ⟨⟨fd, lowest⟩, _⟩
      rw [unusedDescriptor_iff.mpr lowest] at unused
      cases unused
  | some fd =>
      have lowest := unusedDescriptor_iff.mp unused
      cases found : s.fs.readDentryByName filename with
      | none =>
          right
          refine ⟨?_, rfl⟩
          rintro ⟨_, index, dentry, inDirectory, _⟩
          rw [found] at inDirectory
          cases inDirectory
      | some entry =>
          obtain ⟨index, dentry⟩ := entry
          cases opened : openedFile ((s.pcb current).files fd) dentry with
          | none =>
              right
              simp only [opened]
              refine ⟨?_, trivial⟩
              rintro ⟨_, index', dentry', inDirectory, isFile⟩
              rw [found] at inDirectory
              cases inDirectory
              have valid : (openedFile ((s.pcb current).files fd) dentry).isSome :=
                openedFile_isSome.mpr isFile
              rw [opened] at valid
              cases valid
          | some file =>
              left
              have isFile := openedFile_isSome.mp (Option.isSome_of_eq_some opened)
              have canOpen : CanOpen s.fs filename := ⟨index, dentry, found, isFile⟩
              simp only [opened]
              split
              · exact ⟨fd, _, lowest, canOpen, rfl, rfl, file, (openedFile_eq opened).1,
                  by simp [Kernel.setFile]⟩
              · exact ⟨fd, _, lowest, canOpen, rfl, rfl, file, (openedFile_eq opened).1,
                  by simp [Kernel.setFile]⟩

section Refused

variable {s : Kernel} {current : Word} {fd : Int} {buf nbytes : Word}

theorem close_eq_of_not (unused : ¬(2 ≤ fd ∧ InUse (s.pcb current).files fd)) :
    s.close current fd = .returns (-1) [] s := by
  rw [Kernel.close]
  split
  · rfl
  case isFalse range =>
    have flags : ((s.pcb current).files fd.toNat).flags = 0 := by
      by_contra used
      exact unused ⟨by omega, by omega, by omega, used⟩
    simp only [if_pos flags]

theorem read_eq_of_not {stack : Nat → Byte} (unused : ¬InUse (s.pcb current).files fd) :
    s.read current fd buf nbytes stack = .returns (-1) [] s := by
  rw [Kernel.read]
  split
  · rfl
  case isFalse valid =>
    split
    · rfl
    · have flags : ((s.pcb current).files fd.toNat).flags = 0 := by
        by_contra used
        exact unused ⟨by omega, by omega, used⟩
      simp only [if_pos flags]

theorem write_eq_of_not {input : Nat → Byte} (unused : ¬InUse (s.pcb current).files fd) :
    s.write current fd buf nbytes input = some (.returns (-1) [] s) := by
  rw [Kernel.write]
  split
  · rfl
  case isFalse valid =>
    split
    · rfl
    · have flags : ((s.pcb current).files fd.toNat).flags = 0 := by
        by_contra used
        exact unused ⟨by omega, by omega, used⟩
      simp only [if_pos flags]

end Refused

theorem openTables_operations :
    ∀ table ∈ openTables, table.read ≠ .null ∧ table.write ≠ .null ∧ table.close ≠ .null := by
  decide

namespace Standard

variable {files : Nat → FileDescriptor} {fd : Int}

/-- Only stdin has no write operation, and only stdout no read operation. -/
theorem operations_ne_null (standard : Standard files) (used : InUse files fd) :
    (fd ≠ 1 → (files fd.toNat).operationsTable.read ≠ .null) ∧
      (fd ≠ 0 → (files fd.toNat).operationsTable.write ≠ .null) ∧
      (files fd.toNat).operationsTable.close ≠ .null := by
  obtain ⟨low, high, flags⟩ := used
  by_cases isStdin : fd = 0
  · subst isStdin
    simp [standard.stdin, stdinFd]
  · by_cases isStdout : fd = 1
    · subst isStdout
      simp [standard.stdout, stdoutFd]
    · have table := (standard.operations fd.toNat (by omega) (by omega)).resolve_left flags
      obtain ⟨read, write, close⟩ := openTables_operations _ table
      exact ⟨fun _ => read, fun _ => write, close⟩

/-- The loop of `halt` would skip a NULL pointer; it never meets one. -/
theorem closedByHalt_ne_null (files : Nat → FileDescriptor) : .null ∉ closedByHalt files := by
  intro member
  obtain ⟨i, listed, isNull⟩ := List.mem_map.mp member
  have tested := (List.mem_filter.mp listed).2
  simp only [decide_eq_true_eq] at tested
  exact tested.2 isNull

variable {s : Kernel} {current : Word}

theorem close (standard : Standard (s.pcb current).files) (low : 2 ≤ fd)
    (used : InUse (s.pcb current).files fd) :
    s.close current fd = .returns 0 []
      (s.setFile current fd.toNat { (s.pcb current).files fd.toNat with flags := 0 }) := by
  have range : ¬(fd < 2 ∨ fd > 7) := by
    have high := used.2.1
    omega
  rw [Kernel.close, if_neg range]
  simp only [if_neg used.2.2]
  have closable := (standard.operations_ne_null used).2.2
  cases operation : ((s.pcb current).files fd.toNat).operationsTable.close with
  | null => exact (closable operation).elim
  | terminalClose | rtcClose | dirClose | fileClose => rfl

theorem call_ne_null (standard : Standard (s.pcb current).files) (call : Call) :
    s.call current call ≠ some .null := by
  intro isNull
  cases call with
  | openFile filename =>
      simp only [Kernel.call, Option.some.injEq] at isNull
      rcases s.open_eq current filename with ⟨_, _, _, _, opens, _⟩ | ⟨_, fails⟩
      · rw [opens] at isNull
        cases isNull
      · rw [fails] at isNull
        cases isNull
  | close fd =>
      simp only [Kernel.call, Option.some.injEq] at isNull
      by_cases used : 2 ≤ fd ∧ InUse (s.pcb current).files fd
      · rw [standard.close used.1 used.2] at isNull
        cases isNull
      · rw [close_eq_of_not used] at isNull
        cases isNull
  | read fd buf nbytes stack =>
      simp only [Kernel.call, Option.some.injEq] at isNull
      by_cases used : InUse (s.pcb current).files fd
      · have readable := (standard.operations_ne_null used).1
        simp only [Kernel.read] at isNull
        split at isNull
        · cases isNull
        · split at isNull
          · cases isNull
          case isFalse notStdout =>
            cases operation : ((s.pcb current).files fd.toNat).operationsTable.read with
            | null => exact readable notStdout operation
            | terminalRead =>
                simp only [operation, if_neg used.2.2] at isNull
                split at isNull <;> cases isNull
            | rtcRead | dirRead | fileRead =>
                simp only [operation, if_neg used.2.2] at isNull
                cases isNull
      · rw [read_eq_of_not used] at isNull
        cases isNull
  | write fd buf nbytes input =>
      simp only [Kernel.call] at isNull
      by_cases used : InUse (s.pcb current).files fd
      · have writable := (standard.operations_ne_null used).2.1
        simp only [Kernel.write] at isNull
        split at isNull
        · cases isNull
        · split at isNull
          · cases isNull
          case isFalse notStdin =>
            cases operation : ((s.pcb current).files fd.toNat).operationsTable.write with
            | null => exact writable notStdin operation
            | terminalWrite =>
                simp only [operation, if_neg used.2.2] at isNull
                split at isNull
                · cases isNull
                · obtain ⟨_, _, isNull⟩ := Option.map_eq_some_iff.mp isNull
                  cases isNull
            | rtcWrite | dirWrite | fileWrite =>
                simp only [operation, if_neg used.2.2] at isNull
                cases isNull
      · rw [write_eq_of_not used] at isNull
        cases isNull

end Standard

theorem Tidy.contract {s : Kernel} {a : Session} (tidy : Tidy s a)
    (represents : Represents s a) : DescriptorContract s := by
  obtain ⟨live, block⟩ := represents.runsPid
  have standard : Standard (s.pcb (currentPcb s.esp)).files := by
    rw [block]
    exact tidy.live _ live
  constructor
  case opens =>
    intro frame filename fd on lowest canOpen
    rcases s.open_eq (currentPcb s.esp) filename with
      ⟨fd', next, lowest', _, opens, esp, file, flags, files⟩ | ⟨fails, _⟩
    · have same : fd = fd' := by
        have first := unusedDescriptor_iff.mpr lowest
        have second := unusedDescriptor_iff.mpr lowest'
        simp only [Kernel.ownFiles] at first
        rw [first] at second
        cases second
        rfl
      subst same
      refine ⟨next, ?_, ?_, ?_⟩
      · simp only [Kernel.act, Kernel.call, on.esp, opens, Option.map_some]
      · obtain ⟨⟨low, high, _⟩, _⟩ := lowest
        refine ⟨by omega, by omega, ?_⟩
        rw [Kernel.ownFiles, esp, files, Int.toNat_natCast]
        simp [flags]
      · intro other different
        rw [Kernel.ownFiles, esp, files]
        simp [different, Kernel.ownFiles]
    · exact (fails ⟨⟨fd, lowest⟩, canOpen⟩).elim
  case openFails =>
    intro frame filename on fails
    rcases s.open_eq (currentPcb s.esp) filename with
      ⟨fd, next, lowest, canOpen, _⟩ | ⟨_, refused⟩
    · exact (fails ⟨⟨fd, lowest⟩, canOpen⟩).elim
    · simp only [Kernel.act, Kernel.call, on.esp, refused, Option.map_some]
  case closes =>
    intro frame fd on low used
    refine ⟨_, by
      simp only [Kernel.act, Kernel.call, on.esp, standard.close low used,
        Option.map_some]; rfl, ?_, ?_⟩
    · rintro ⟨_, _, flags⟩
      exact flags (by simp [Kernel.ownFiles, Kernel.setFile])
    · intro other different
      simp [Kernel.ownFiles, Kernel.setFile, different]
  case closeFails =>
    intro frame fd on unused
    simp only [Kernel.act, Kernel.call, on.esp, close_eq_of_not unused, Option.map_some]
  case readFails =>
    intro frame fd buf nbytes stack on unused
    simp only [Kernel.act, Kernel.call, on.esp, read_eq_of_not unused, Option.map_some]
  case writeFails =>
    intro frame fd buf nbytes input on unused
    simp only [Kernel.act, Kernel.call, on.esp, write_eq_of_not unused, Option.map_some]
  case dispatches =>
    intro frame call next on isNull
    obtain ⟨result, calls, isReply⟩ := Option.map_eq_some_iff.mp isNull
    rw [on.esp] at calls
    cases result with
    | returns | waits => cases isReply
    | null => exact standard.call_ne_null call calls
  case haltDispatches => exact Standard.closedByHalt_ne_null _

/-- The process is live and has the entry open. -/
def Holds (s : Kernel) (p : Int) (fd : Nat) : Prop :=
  (∃ a, Represents s a ∧ a.Live p) ∧ ((s.pcb (pcbAddr p)).files fd).flags ≠ 0

/-- Only its owner takes an open entry away: by closing it, or by ending. -/
theorem Holds.step {s next : Kernel} {p : Int} {fd : Nat} {entry : Entry}
    (holds : Holds s p fd) (acts : Acts s entry next) :
    (entry.Closes p fd ∨ entry.Ends p) ∨ Holds next p fd := by
  obtain ⟨⟨a, represents, live⟩, used⟩ := holds
  obtain ⟨b, after, _, program⟩ := represents.programStep acts
  cases program p (represents.numbered.range live) with
  | enters started isStart isPid fresh files => exact (fresh live).elim
  | restarts started isStart isPid ends files => exact .inl (.inr ends)
  | ends ends dead files => exact .inl (.inr ends)
  | stays stays same call =>
      have stillLive : ∃ b, Represents next b ∧ b.Live p := ⟨b, after, same.mpr live⟩
      cases call with
      | keeps files => exact .inr ⟨stillLive, by rwa [files]⟩
      | @opens other _ _ _ _ _ unused _ _ files =>
          have different : fd ≠ other := by
            rintro rfl
            exact used (unusedDescriptor_eq unused).2.2
          exact .inr ⟨stillLive, by simpa [files, different] using used⟩
      | @closes other closes _ _ files =>
          by_cases here : fd = other
          · exact .inl (.inl (here ▸ closes))
          · exact .inr ⟨stillLive, by simpa [files, here] using used⟩
      | @reads other _ _ _ _ _ _ _ _ files =>
          by_cases here : fd = other
          · subst here
            exact .inr ⟨stillLive, by simpa [files] using used⟩
          · exact .inr ⟨stillLive, by simpa [files, here] using used⟩

/-- A descriptor that `open` returns was unused before and is open after. -/
theorem Acts.opens {s next : Kernel} {a : Session} {p : Int} {fd : Nat} {entry : Entry}
    (represents : Represents s a) (acts : Acts s entry next) (opens : entry.Opens p fd) :
    ((s.pcb (pcbAddr p)).files fd).flags = 0 ∧ Holds next p fd := by
  obtain ⟨b, after, lives, _⟩ := represents.programStep acts
  obtain ⟨before, action, reply⟩ := entry
  obtain ⟨rfl, permitted, taken⟩ := acts
  obtain ⟨isRunning, frame, filename, isCall, isReply⟩ := opens
  simp only at isCall isReply
  subst isCall isReply
  have own : before.runningPid = p := isRunning
  obtain ⟨live, block⟩ := represents.runsPid
  rw [own] at live block
  have stillLive : ∃ b, Represents next b ∧ b.Live p := by
    refine ⟨b, after, ?_⟩
    cases lives with
    | starts _ _ _ _ _ lives => exact (lives p).mpr (.inr live)
    | restarts _ _ _ _ _ lives => exact (lives p).mpr live
    | ends _ halts _ => exact halts.elim
    | stays _ _ lives => exact (lives p).mpr live
  simp only [Kernel.act, Kernel.call, permitted.esp, block] at taken
  rcases before.open_eq (pcbAddr p) filename with
    ⟨fd', next', lowest, _, opened, _, file, flags, files⟩ | ⟨_, fails⟩
  · rw [opened] at taken
    simp only [Option.map_some, Option.some.injEq, Prod.mk.injEq, Reply.returned.injEq,
      Int.natCast_inj, and_true] at taken
    obtain ⟨rfl, rfl⟩ := taken
    exact ⟨lowest.1.2.2, stillLive, by simp [files, flags]⟩
  · rw [fails] at taken
    simp only [Option.map_some, Option.some.injEq, Prod.mk.injEq, Reply.returned.injEq,
      and_true] at taken
    omega

theorem sampleStart_blank : BlankBooted sampleStart := by
  obtain ⟨esp, ebp⟩ := sampleFrame_onStack
  obtain ⟨started, executes⟩ := sampleStart_executes
  refine ⟨samplePre, _, _, fun _ => 0, started, samplePre_preBoot, ?_, ⟨esp, ebp⟩,
    executes⟩
  intro p range fd low high
  rfl

end LightweightOs
