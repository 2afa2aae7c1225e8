import LightweightOs.Library.Cursor
import LightweightOs.DescriptorTable

/-!
# Reading files

On an image whose regular files are well formed, `read_data` copies a slice of
the file's bytes across its blocks, `file_read` is a read through a cursor, and
so each descriptor delivers its file piece by piece however the reads of all
processes interleave.
-/

namespace LightweightOs

open Transition

namespace FileSystem

/-- The byte of a file at an offset, found through the inode's block numbers. -/
def byteAt (fs : FileSystem) (inode : Word) (offset : Nat) : Byte :=
  fs.dataByte (fs.inodeBlock inode (BitVec.ofNat 32 (offset / 4096)))
    (BitVec.ofNat 32 (offset % 4096))

def contents (fs : FileSystem) (inode : Word) : List Byte :=
  (List.range (fs.inodeSize inode).toNat).map (fs.byteAt inode)

/-- The blocks under the size of a file exist. -/
structure ValidFile (fs : FileSystem) (inode : Word) : Prop where
  number : inode < fs.numInodes
  size : (fs.inodeSize inode).toNat ≤ 1023 * 4096
  blocks : ∀ index : Nat, index * 4096 < (fs.inodeSize inode).toNat →
    fs.inodeBlock inode (BitVec.ofNat 32 index) < fs.numDataBlocks

/-- Every regular file in the directory is valid. -/
def WellFormed (fs : FileSystem) : Prop :=
  ∀ index, index < fs.numDirEntries → (fs.dirEntry index).fileType = 2 →
    fs.ValidFile (fs.dirEntry index).inodeNum

variable {fs : FileSystem} {inode : Word}

@[simp] theorem contents_length : (fs.contents inode).length = (fs.inodeSize inode).toNat := by
  simp [contents]

theorem searchDentry_eq {fname : List Byte} {start index : Word} {left : Nat}
    {dentry : DirEntry} (found : fs.searchDentry fname start left = some (index, dentry)) :
    index < fs.numDirEntries ∧ dentry = fs.dirEntry index := by
  induction left generalizing start with
  | zero => cases found
  | succ left induction =>
      simp only [searchDentry] at found
      split at found
      · obtain ⟨read, isRead, isEntry⟩ := Option.map_eq_some_iff.mp found
        simp only [Prod.mk.injEq] at isEntry
        obtain ⟨rfl, rfl⟩ := isEntry
        rw [readDentryByIndex] at isRead
        split at isRead
        · cases isRead
        case isFalse inside =>
          cases isRead
          exact ⟨BitVec.not_le.mp inside, rfl⟩
      · exact induction found

theorem readDentryByName_eq {filename : Option (List Byte)} {index : Word}
    {dentry : DirEntry} (found : fs.readDentryByName filename = some (index, dentry)) :
    index < fs.numDirEntries ∧ dentry = fs.dirEntry index := by
  cases filename with
  | none => cases found
  | some fname =>
      simp only [readDentryByName] at found
      split at found
      · cases found
      · exact searchDentry_eq found

/-- The loops of `read_data` go on while there are turns left, and the next turn is at
the next byte. -/
theorem turn_left {stop index : Word} {left : Nat}
    (covers : index.toNat + (left + 1) = stop.toNat) :
    index < stop ∧ (index + 1).toNat = index.toNat + 1 := by
  have bound := stop.isLt
  constructor
  · rw [BitVec.lt_def]
    omega
  · exact toNat_add_one (by omega)

theorem copyData_eq {stop index : Word} {left : Nat}
    (blocks : ∀ block : Nat, block * 4096 < stop.toNat →
      fs.inodeBlock inode (BitVec.ofNat 32 block) < fs.numDataBlocks)
    (covers : index.toNat + left = stop.toNat)
    (inside : stop.toNat ≤ (fs.inodeSize inode).toNat) :
    fs.copyData inode stop index left =
      ((fs.contents inode).drop index.toNat).take left := by
  induction left generalizing index with
  | zero => simp [copyData]
  | succ left induction =>
      obtain ⟨before, next⟩ := turn_left covers
      have blockOffset : index % blockSize = BitVec.ofNat 32 (index.toNat % 4096) := by
        have isBlock : blockSize.toNat = 4096 := rfl
        apply BitVec.eq_of_toNat_eq
        rw [BitVec.toNat_umod, isBlock, BitVec.toNat_ofNat]
        omega
      have exists_ : fs.inodeBlock inode (index / blockSize) < fs.numDataBlocks := by
        rw [div_blockSize]
        apply blocks
        omega
      have here : index.toNat < (fs.contents inode).length := by
        rw [contents_length]
        omega
      rw [copyData, if_pos before]
      simp only
      rw [if_neg (BitVec.not_le.mpr exists_), induction (by omega), next,
        List.drop_eq_getElem_cons here, List.take_succ_cons]
      congr 1
      rw [div_blockSize, blockOffset]
      simp [contents, byteAt]

theorem readData_eq (valid : fs.ValidFile inode) {offset : Word} (length : Word)
    (inside : offset.toNat ≤ (fs.inodeSize inode).toNat) :
    fs.readData inode offset length =
      some (((fs.contents inode).drop offset.toNat).take length.toNat) := by
  have size := valid.size
  have rest : (fs.inodeSize inode - offset).toNat =
      (fs.inodeSize inode).toNat - offset.toNat := by
    rw [BitVec.toNat_sub]
    omega
  rw [readData, if_neg (BitVec.not_le.mpr valid.number)]
  simp only [Option.some.injEq]
  by_cases clamped : fs.inodeSize inode - offset < length
  · rw [if_pos clamped]
    rw [BitVec.lt_def, rest] at clamped
    have stop : (offset + (fs.inodeSize inode - offset)).toNat =
        offset.toNat + (fs.inodeSize inode - offset).toNat := by
      rw [BitVec.toNat_add, rest]
      omega
    rw [copyData_eq (fun block within => valid.blocks block (by omega)) stop.symm (by omega),
      rest, List.take_of_length_le (by simp),
      List.take_of_length_le (by simp only [List.length_drop, contents_length]; omega)]
  · rw [if_neg clamped]
    rw [BitVec.lt_def, rest] at clamped
    have stop : (offset + length).toNat = offset.toNat + length.toNat := by
      rw [BitVec.toNat_add]
      omega
    exact copyData_eq (fun block within => valid.blocks block (by omega)) stop.symm
      (by omega)

end FileSystem

theorem fileRead_eq {fs : FileSystem} {file : FileDescriptor}
    (valid : fs.ValidFile file.inode)
    (inside : file.filePosition.toNat ≤ (fs.inodeSize file.inode).toNat)
    (nbytes : Word) :
    ∃ moved, fileRead fs file nbytes =
        ⟨(Cursor.read (fs.contents file.inode) file.filePosition.toNat
            nbytes.toNat).1.length,
          (Cursor.read (fs.contents file.inode) file.filePosition.toNat nbytes.toNat).1,
          { file with filePosition := moved }⟩ ∧
      moved.toNat = (Cursor.read (fs.contents file.inode) file.filePosition.toNat
        nbytes.toNat).2 := by
  have size := valid.size
  rw [fileRead, Cursor.read, FileSystem.contents_length]
  by_cases ended : fs.inodeSize file.inode ≤ file.filePosition
  · rw [if_pos ended]
    rw [BitVec.le_def] at ended
    rw [if_pos ended]
    exact ⟨0, rfl, rfl⟩
  · rw [if_neg ended]
    rw [BitVec.le_def] at ended
    rw [if_neg ended, FileSystem.readData_eq valid nbytes inside]
    generalize isPiece : ((fs.contents file.inode).drop file.filePosition.toNat).take
      nbytes.toNat = piece
    have short : file.filePosition.toNat + piece.length ≤ 1023 * 4096 := by
      rw [← isPiece, List.length_take, List.length_drop, FileSystem.contents_length]
      omega
    have small : (BitVec.ofNat 32 piece.length).toNat = piece.length := by
      rw [BitVec.toNat_ofNat]
      omega
    have valid_ : BitVec.ofNat 32 piece.length ≠ (-1 : Word) := by
      intro isError
      have value := congrArg BitVec.toNat isError
      rw [small] at value
      have minusOne : (-1 : Word).toNat = 4294967295 := rfl
      omega
    have value : (BitVec.ofNat 32 piece.length).toInt = piece.length := by
      rw [BitVec.toInt_eq_toNat_of_lt (by omega), small]
    simp only [if_neg valid_, value]
    refine ⟨_, rfl, ?_⟩
    rw [BitVec.toNat_add, small]
    omega

/-- A read of the descriptor `fd` of `p` with a buffer and a size the call accepts:
its size, the value returned and the bytes delivered. -/
def Entry.readOf (p : Int) (fd : Nat) (entry : Entry) : Option (Nat × Int × List Byte) :=
  match entry.action, entry.reply with
  | .call _ (.read fd' buf nbytes _), .returned value stored =>
      if entry.running = p ∧ fd' = fd ∧ buf ≠ 0 ∧ 0 ≤ nbytes.toInt then
        some (nbytes.toNat, value, stored)
      else none
  | _, _ => none

/-- The step opens a regular file, with the given inode, as descriptor `fd`. -/
def Entry.OpensFile (entry : Entry) (p : Int) (fd : Nat) (inode : Word) : Prop :=
  entry.running = p ∧ ∃ frame filename index dentry,
    entry.action = .call frame (.openFile filename) ∧ entry.reply = .returned fd [] ∧
      entry.before.fs.readDentryByName filename = some (index, dentry) ∧
      dentry.fileType = 2 ∧ dentry.inodeNum = inode

/-- The descriptor is open on a file and has delivered it as the trace says. -/
structure Streaming (s : Kernel) (p : Int) (fd : Nat) (inode : Word)
    (trace : List (Nat × Int × List Byte)) : Prop where
  holds : Holds s p fd
  range : 2 ≤ fd ∧ fd ≤ 7
  operations : ((s.pcb (pcbAddr p)).files fd).operationsTable = fileOperationsTable
  isInode : ((s.pcb (pcbAddr p)).files fd).inode = inode
  delivers : ∃ current,
    Cursor.Delivers (s.fs.contents inode) (trace.map fun (size, _, stored) => (size, stored))
      current ∧ ((s.pcb (pcbAddr p)).files fd).filePosition.toNat = current.length
  counts : ∀ size value stored, (size, value, stored) ∈ trace → value = stored.length

theorem Kernel.read_regular {s : Kernel} {current : Word} {fd : Nat}
    (range : 2 ≤ fd ∧ fd ≤ 7) (used : ((s.pcb current).files fd).flags ≠ 0)
    (operations : ((s.pcb current).files fd).operationsTable = fileOperationsTable)
    (buf nbytes : Word) (stack : Nat → Byte) :
    s.read current fd buf nbytes stack =
      if buf = 0 ∨ nbytes.toInt < 0 then .returns (-1) [] s
      else
        .returns (fileRead s.fs ((s.pcb current).files fd) nbytes).value
          (fileRead s.fs ((s.pcb current).files fd) nbytes).stored
          (s.setFile current fd (fileRead s.fs ((s.pcb current).files fd) nbytes).file) := by
  have inside : ((fd : Int) < 0 ∨ (fd : Int) > 7 ∨ buf = 0 ∨ nbytes.toInt < 0) ↔
      buf = 0 ∨ nbytes.toInt < 0 := by
    constructor
    · rintro (below | above | invalid)
      · omega
      · omega
      · exact invalid
    · exact fun invalid => .inr (.inr invalid)
  have notStdout : (fd : Int) ≠ 1 := by omega
  rw [Kernel.read, if_congr inside rfl rfl, if_neg notStdout]
  simp only [Int.toNat_natCast, if_neg used, operations, fileOperationsTable]

namespace Streaming

variable {s next : Kernel} {p : Int} {fd : Nat} {inode : Word}
  {trace : List (Nat × Int × List Byte)} {entry : Entry}

theorem read (streaming : Streaming s p fd inode trace) (valid : s.fs.ValidFile inode)
    (acts : Acts s entry next) {frame : Frame} {buf nbytes : Word} {stack : Nat → Byte}
    (isRunning : entry.running = p)
    (isRead : entry.action = .call frame (.read fd buf nbytes stack))
    (stillHolds : Holds next p fd) :
    Streaming next p fd inode (trace ++ (entry.readOf p fd).toList) := by
  obtain ⟨⟨⟨a, represents, live⟩, used⟩, range, operations, isInode, ⟨current, delivers, position⟩,
    counts⟩ := streaming
  obtain ⟨before, action, reply⟩ := entry
  obtain ⟨rfl, permitted, taken⟩ := acts
  simp only at isRead
  subst isRead
  have own : before.runningPid = p := isRunning
  have block : currentPcb frame.esp = pcbAddr p := by
    rw [permitted.esp, ← own]
    exact represents.runsPid.2
  simp only [Kernel.act, Kernel.call, block, Kernel.read_regular range used operations] at taken
  by_cases invalid : buf = 0 ∨ nbytes.toInt < 0
  · have noRead : Entry.readOf p fd
        ⟨before, .call frame (.read fd buf nbytes stack), reply⟩ = none := by
      rw [Entry.readOf]
      split
      case h_1 isCall _ =>
        cases isCall
        rw [if_neg]
        rintro ⟨_, _, isBuffer, isSize⟩
        rcases invalid with isNull | isNegative
        · exact isBuffer isNull
        · omega
      case h_2 => rfl
    rw [if_pos invalid] at taken
    cases taken
    rw [noRead]
    simpa using ⟨stillHolds, range, operations, isInode, ⟨current, delivers, position⟩, counts⟩
  · have inside : ((before.pcb (pcbAddr p)).files fd).filePosition.toNat ≤
        (before.fs.inodeSize ((before.pcb (pcbAddr p)).files fd).inode).toNat := by
      have bound := delivers.isPrefix.length_le
      rw [FileSystem.contents_length] at bound
      rw [position, isInode]
      exact bound
    obtain ⟨moved, reads, isMoved⟩ := fileRead_eq (isInode ▸ valid) inside nbytes
    rw [isInode, position] at reads isMoved
    rw [if_neg invalid, reads] at taken
    simp only [Option.map_some, Option.some.injEq, Prod.mk.injEq] at taken
    obtain ⟨rfl, rfl⟩ := taken
    obtain ⟨later, extended, isLater⟩ := delivers.read nbytes.toNat
    have isRead : Entry.readOf p fd ⟨before, .call frame (.read fd buf nbytes stack),
        .returned (Cursor.read (before.fs.contents inode) current.length nbytes.toNat).1.length
          (Cursor.read (before.fs.contents inode) current.length nbytes.toNat).1⟩ =
        some (nbytes.toNat,
          ((Cursor.read (before.fs.contents inode) current.length nbytes.toNat).1.length : Int),
          (Cursor.read (before.fs.contents inode) current.length nbytes.toNat).1) := by
      have isSize : 0 ≤ nbytes.toInt := by
        by_contra isNegative
        exact invalid (.inr (by omega))
      exact if_pos ⟨isRunning, rfl, fun isNull => invalid (.inl isNull), isSize⟩
    rw [isRead]
    constructor
    case holds => exact stillHolds
    case range => exact range
    case operations => simpa [Kernel.setFile] using operations
    case isInode => simp [Kernel.setFile]
    case delivers =>
      refine ⟨later, ?_, ?_⟩
      · simpa [Kernel.setFile] using extended
      · simp [Kernel.setFile, isMoved, isLater]
    case counts =>
      intro size value stored member
      rcases List.mem_append.mp member with old | new
      · exact counts size value stored old
      · simp only [Option.toList_some, List.mem_singleton, Prod.mk.injEq] at new
        obtain ⟨_, rfl, rfl⟩ := new
        rfl

/-- Whatever else happens, until the descriptor is closed or its process ends. -/
theorem step (streaming : Streaming s p fd inode trace) (valid : s.fs.ValidFile inode)
    (acts : Acts s entry next) (kept : ¬entry.Closes p fd ∧ ¬entry.Ends p) :
    Streaming next p fd inode (trace ++ (entry.readOf p fd).toList) := by
  have stillHolds : Holds next p fd := by
    rcases streaming.holds.step acts with (closes | ends) | holds
    · exact (kept.1 closes).elim
    · exact (kept.2 ends).elim
    · exact holds
  by_cases isRead : entry.running = p ∧ ∃ frame buf nbytes stack,
      entry.action = .call frame (.read fd buf nbytes stack)
  · obtain ⟨isRunning, frame, buf, nbytes, stack, isRead⟩ := isRead
    exact streaming.read valid acts isRunning isRead stillHolds
  · have noRead : entry.readOf p fd = none := by
      rw [Entry.readOf]
      split
      case h_1 frame fd' buf nbytes stack value stored isCall _ =>
        rw [if_neg]
        rintro ⟨isRunning, rfl, _⟩
        exact isRead ⟨isRunning, frame, buf, nbytes, stack, isCall⟩
      case h_2 => rfl
    have same : (next.pcb (pcbAddr p)).files fd = (s.pcb (pcbAddr p)).files fd := by
      obtain ⟨⟨a, represents, live⟩, used⟩ := streaming.holds
      obtain ⟨b, after, _, program⟩ := represents.programStep acts
      cases program p (represents.numbered.range live) with
      | enters _ _ _ fresh _ => exact (fresh live).elim
      | restarts _ _ _ ends _ => exact (kept.2 ends).elim
      | ends ends _ _ => exact (kept.2 ends).elim
      | stays _ _ call =>
          cases call with
          | keeps files => rw [files]
          | @opens other _ _ _ _ _ unused _ _ files =>
              have different : fd ≠ other := by
                rintro rfl
                exact used (unusedDescriptor_eq unused).2.2
              simp [files, different]
          | @closes other closes _ _ files =>
              have different : fd ≠ other := by
                rintro rfl
                exact kept.1 closes
              simp [files, different]
          | @reads other _ _ _ _ reads _ _ _ files =>
              have different : fd ≠ other := by
                rintro rfl
                obtain ⟨isRunning, frame, buf, stack, isCall, _⟩ := reads
                exact isRead ⟨isRunning, frame, buf, _, stack, isCall⟩
              simp [files, different]
    rw [noRead, Option.toList_none, List.append_nil]
    exact ⟨stillHolds, streaming.range, same ▸ streaming.operations, same ▸ streaming.isInode,
      acts.fs ▸ same ▸ streaming.delivers, streaming.counts⟩

theorem start {a : Session} (represents : Represents s a) (acts : Acts s entry next)
    (opens : entry.OpensFile p fd inode) : Streaming next p fd inode [] := by
  obtain ⟨isRunning, frame, filename, index, dentry, isCall, isReply, found, isFile, rfl⟩ :=
    opens
  have opened : entry.Opens p fd := ⟨isRunning, frame, filename, isCall, isReply⟩
  have holds := (acts.opens represents opened).2
  obtain ⟨before, action, reply⟩ := entry
  have isBefore : before = s := acts.before
  subst isBefore
  simp only at isCall isReply found
  subst isCall isReply
  have own : before.runningPid = p := isRunning
  have block : currentPcb frame.esp = pcbAddr p := by
    rw [acts.permitted.esp, ← own]
    exact represents.runsPid.2
  have file : ∀ old, openedFile old dentry =
      some ⟨fileOperationsTable, dentry.inodeNum, 0, 1⟩ := by
    intro old
    simp [openedFile, isFile]
  have notRtc : dentry.fileType ≠ 0 := by simp [isFile]
  have taken := acts.taken
  simp only [Kernel.act, Kernel.call, block, Kernel.open, found] at taken
  cases unused : unusedDescriptor (before.pcb (pcbAddr p)).files with
  | none =>
      simp only [unused, Option.map_some, Option.some.injEq, Prod.mk.injEq,
        Reply.returned.injEq, and_true] at taken
      omega
  | some other =>
      simp only [unused, file, if_neg notRtc, Option.map_some, Option.some.injEq,
        Prod.mk.injEq, Reply.returned.injEq, Int.natCast_inj, and_true] at taken
      obtain ⟨rfl, rfl⟩ := taken
      obtain ⟨low, high, _⟩ := unusedDescriptor_eq unused
      constructor
      case holds => exact holds
      case range => exact ⟨low, high⟩
      case operations => simp [Kernel.setFile]
      case isInode => simp [Kernel.setFile]
      case delivers => exact ⟨[], .start, by simp [Kernel.setFile]⟩
      case counts => simp

theorem run (streaming : Streaming s p fd inode trace) (valid : s.fs.ValidFile inode)
    {history : List Entry} {final : Kernel} (run : Run Acts s history final)
    (kept : ∀ entry ∈ history, ¬entry.Closes p fd ∧ ¬entry.Ends p) :
    Streaming final p fd inode (trace ++ history.filterMap (·.readOf p fd)) := by
  induction run with
  | nil => simpa using streaming
  | @snoc earlier middle last entry taken acts induction =>
      have before := induction fun other member => kept other (by simp [member])
      have valid : middle.fs.ValidFile inode := by
        rw [Acts.run_fs taken]
        exact valid
      have after := before.step valid acts (kept entry (by simp))
      rw [List.append_assoc] at after
      rw [List.filterMap_append]
      cases isRead : entry.readOf p fd <;> simpa [isRead] using after

end Streaming

/-- In every run of programs each open regular file is delivered piece by piece,
whatever else runs in between, and a read moves no descriptor but its own. -/
theorem file_streams {start s : Kernel} {history : List Entry} (booted : Booted start)
    (wellFormed : start.fs.WellFormed) (run : Run Acts start history s) :
    (∀ earlier opening later p fd inode, history = earlier ++ opening :: later →
      opening.OpensFile p fd inode →
      (∀ entry ∈ later, ¬entry.Closes p fd ∧ ¬entry.Ends p) →
      Streaming s p fd inode (later.filterMap (·.readOf p fd))) ∧
    ∀ entry next p fd nbytes value stored, Acts s entry next →
      entry.Reads p fd nbytes value stored →
      ∀ q other, 1 ≤ q ∧ q ≤ 6 → q ≠ p ∨ other ≠ fd →
        (next.pcb (pcbAddr q)).files other = (s.pcb (pcbAddr q)).files other := by
  constructor
  · intro earlier opening later p fd inode isHistory opens kept
    rw [isHistory] at run
    obtain ⟨before, toOpening, rest⟩ := run.split
    obtain ⟨opened, acts, reads⟩ := rest.head
    obtain ⟨a, represents⟩ := booted.programs toOpening
    have sameFs : before.fs = start.fs := Acts.run_fs toOpening
    have valid : opened.fs.ValidFile inode := by
      obtain ⟨_, _, filename, index, dentry, _, _, found, isFile, isInode⟩ := opens
      rw [acts.before, sameFs] at found
      obtain ⟨inside, rfl⟩ := FileSystem.readDentryByName_eq found
      rw [acts.fs, sameFs, ← isInode]
      exact wellFormed index inside isFile
    exact Streaming.run (.start represents acts opens) valid reads kept
  · intro entry next p fd nbytes value stored acts reads q other range different
    obtain ⟨a, represents⟩ := booted.programs run
    obtain ⟨b, after, _, program⟩ := represents.programStep acts
    obtain ⟨isRunning, frame, buf, stack, isCall, isReply⟩ := reads
    have noEnd : ¬entry.Ends q := by
      rintro ⟨halts, _⟩
      simp [Entry.Halts, isCall] at halts
    cases program q range with
    | enters started isStart => simp [Entry.Starts, isReply] at isStart
    | restarts _ _ _ ends _ => exact (noEnd ends).elim
    | ends ends _ _ => exact (noEnd ends).elim
    | stays _ _ call =>
        cases call with
        | keeps files => rw [files]
        | opens opens =>
            obtain ⟨_, _, _, isOpen, _⟩ := opens
            simp [isCall] at isOpen
        | closes closes =>
            obtain ⟨_, _, isClose, _⟩ := closes
            simp [isCall] at isClose
        | @reads fd' _ _ _ _ reads _ _ _ files =>
            obtain ⟨isRunning', _, _, _, isCall', _⟩ := reads
            rw [isCall] at isCall'
            simp only [Action.call.injEq, Call.read.injEq, Int.natCast_inj] at isCall'
            have elsewhere : other ≠ fd' := by
              rcases different with notOwn | notFd
              · exact (notOwn (isRunning'.symm.trans isRunning)).elim
              · rw [← isCall'.2.1]
                exact notFd
            simp [files, elsewhere]

theorem sampleFs_wellFormed : sampleFs.WellFormed := by
  intro index inside isFile
  obtain rfl := sampleFs_onlyEntry inside
  have size : (sampleFs.inodeSize (sampleFs.dirEntry 0).inodeNum).toNat = 28 := by decide
  constructor
  case number => decide
  case size => omega
  case blocks =>
    intro index inside
    have first : index = 0 := by omega
    subst first
    decide

/-- The first shell opens its own file and reads it to the end and once more. -/
def sampleReads : List Action :=
  [.call (sampleFrame 1) (.openFile (some shellName)),
    .call (sampleFrame 1) (.read 2 0x8000000 20 fun _ => 0),
    .call (sampleFrame 1) (.read 2 0x8000000 20 fun _ => 0),
    .call (sampleFrame 1) (.read 2 0x8000000 20 fun _ => 0)]

theorem file_streams_sampleReads :
    ∃ opening later final, Run Acts sampleStart (opening :: later) final ∧
      later.map (fun entry => (entry.readOf 1 2).map fun (size, value, _) => (size, value)) =
        [some (20, 20), some (20, 8), some (20, 0)] ∧
      Streaming final 1 2 0 (later.filterMap (·.readOf 1 2)) := by
  obtain ⟨history, final, run, actions, running, result, reads⟩ :=
    @exists_programs sampleStart sampleReads
      (fun history _ => history.map (·.running) = [1, 1, 1, 1] ∧
        history.head?.map (·.reply.result) = some (some (2, [])) ∧
        history.tail.map
            (fun entry => (entry.readOf 1 2).map fun (size, value, _) => (size, value)) =
          [some (20, 20), some (20, 8), some (20, 0)]) _ (by decide +kernel)
  cases history with
  | nil => cases actions
  | cons opening later =>
      obtain ⟨middle, acts, _⟩ := run.head
      obtain ⟨isOpen, areReads⟩ := List.cons_eq_cons.mp actions
      have returned := Reply.eq_of_result (Option.some.inj result)
      have shell : (sampleStart.fs.readDentryByName (some shellName)).any
          fun (_, dentry) => dentry.fileType = 2 ∧ dentry.inodeNum = 0 := by
        decide +kernel
      obtain ⟨⟨index, dentry⟩, found, isFile⟩ := (Option.any_eq_true _ _).mp shell
      have opens : opening.OpensFile 1 2 0 := by
        refine ⟨(List.cons_eq_cons.mp running).1, _, _, index, dentry, isOpen, returned, ?_,
          of_decide_eq_true isFile⟩
        rw [acts.before]
        exact found
      have kept : ∀ entry ∈ later, ¬entry.Closes 1 2 ∧ ¬entry.Ends 1 := by
        intro entry member
        have isRead : ∃ frame buf nbytes stack,
            entry.action = .call frame (.read 2 buf nbytes stack) := by
          have among := List.mem_map_of_mem (f := fun entry : Entry => entry.action) member
          rw [areReads] at among
          simp only [List.mem_cons, List.not_mem_nil, or_false, or_self] at among
          exact ⟨_, _, _, _, among⟩
        obtain ⟨_, _, _, _, isRead⟩ := isRead
        constructor
        · rintro ⟨_, _, isClose, _⟩
          simp [isRead] at isClose
        · rintro ⟨halts, _⟩
          simp [Entry.Halts, isRead] at halts
      have streams := (file_streams sampleStart_booted sampleFs_wellFormed run).1
      exact ⟨opening, later, final, run, reads, streams [] opening later 1 2 0 rfl opens kept⟩

end LightweightOs
