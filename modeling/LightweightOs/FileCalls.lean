import LightweightOs.Kernel

/-!
# open, close, read and write

A process names an open file by its index in the eight descriptors of its
control block.  `open` fills an entry with the operations of the file's type,
and the other three calls go through the operations of the entry.  A call
through a NULL pointer is an outcome of its own.  A read answers with the bytes
it stores; where its buffer lies is compared with NULL only, and `PointerStores`
says what the store does there.
-/

namespace LightweightOs

def dirOperationsTable : FileOperationsTable :=
  ⟨.dirRead, .dirWrite, .dirOpen, .dirClose⟩

def fileOperationsTable : FileOperationsTable :=
  ⟨.fileRead, .fileWrite, .fileOpen, .fileClose⟩

def rtcOperationsTable : FileOperationsTable :=
  ⟨.rtcRead, .rtcWrite, .rtcOpen, .rtcClose⟩

/-- The byte of a directory entry at an offset from its name; past the entry
lies whatever the stack holds. -/
def DirEntry.byteAt (dentry : DirEntry) (stack : Nat → Byte) (i : Nat) : Byte :=
  if inName : i < 32 then dentry.name ⟨i, inName⟩
  else if i < 36 then (dentry.fileType >>> (8 * (i - 32))).setWidth 8
  else if i < 40 then (dentry.inodeNum >>> (8 * (i - 36))).setWidth 8
  else if inside : i - 40 < 24 then dentry.reserved ⟨i - 40, inside⟩
  else stack (i - 64)

/-- The copy loop of `dir_read` from byte `i` on, with `left` bytes of the
request left. -/
def DirEntry.copyName (dentry : DirEntry) (stack : Nat → Byte) (i : Nat) :
    Nat → List Byte
  | 0 => []
  | left + 1 =>
      if dentry.byteAt stack i = nul then []
      else dentry.byteAt stack i :: dentry.copyName stack (i + 1) left

/-- What a read from a file leaves: the value returned, the bytes stored in the
caller's buffer and the descriptor. -/
structure FileResult where
  value : Int
  stored : List Byte
  file : FileDescriptor

def dirRead (fs : FileSystem) (file : FileDescriptor) (nbytes : Word)
    (stack : Nat → Byte) : FileResult :=
  let start := file.filePosition
  if fs.numDirEntries ≤ start then ⟨0, [], { file with filePosition := 0 }⟩
  else
    let file := { file with filePosition := file.filePosition + 1 }
    match fs.readDentryByIndex start with
    | none => ⟨-1, [], file⟩
    | some dentry =>
        let name := dentry.copyName stack 0 nbytes.toNat
        ⟨(BitVec.ofNat 32 name.length).toInt, name, file⟩

def fileRead (fs : FileSystem) (file : FileDescriptor) (nbytes : Word) :
    FileResult :=
  if fs.inodeSize file.inode ≤ file.filePosition then
    ⟨0, [], { file with filePosition := 0 }⟩
  else
    match fs.readData file.inode file.filePosition nbytes with
    | none => ⟨-1, [], file⟩
    | some bytes =>
        let transferSize := BitVec.ofNat 32 bytes.length
        if transferSize = -1 then ⟨-1, bytes, file⟩
        else
          ⟨transferSize.toInt, bytes,
            { file with filePosition := file.filePosition + transferSize }⟩

theorem dirRead_file (fs : FileSystem) (file : FileDescriptor) (nbytes : Word)
    (stack : Nat → Byte) :
    ∃ position, (dirRead fs file nbytes stack).file =
      { file with filePosition := position } := by
  simp only [dirRead]
  split
  · exact ⟨_, rfl⟩
  · split <;> exact ⟨_, rfl⟩

theorem fileRead_file (fs : FileSystem) (file : FileDescriptor) (nbytes : Word) :
    ∃ position, (fileRead fs file nbytes).file =
      { file with filePosition := position } := by
  simp only [fileRead]
  split
  · exact ⟨_, rfl⟩
  · split
    · exact ⟨file.filePosition, rfl⟩
    · split
      · exact ⟨file.filePosition, rfl⟩
      · exact ⟨_, rfl⟩

inductive CallResult where
  | returns (value : Int) (stored : List Byte) (next : Kernel)
  | waits (next : Kernel)
  | null

/-- The scan of `open` for an entry that is not in use. -/
def unusedDescriptor (files : Nat → FileDescriptor) : Option Nat :=
  ([2, 3, 4, 5, 6, 7] : List Nat).find? fun i => (files i).flags = 0

/-- The entry `open` makes of an unused one, by file type.  Only a regular file
sets the inode. -/
def openedFile (file : FileDescriptor) (dentry : DirEntry) :
    Option FileDescriptor :=
  if dentry.fileType = 0 then
    some
      { file with
        operationsTable := rtcOperationsTable
        filePosition := 0
        flags := 1 }
  else if dentry.fileType = 1 then
    some
      { file with
        operationsTable := dirOperationsTable
        filePosition := 0
        flags := 1 }
  else if dentry.fileType = 2 then
    some
      { operationsTable := fileOperationsTable
        inode := dentry.inodeNum
        filePosition := 0
        flags := 1 }
  else none

/-- The little-endian word at the start of a buffer. -/
def bufferWord (input : Nat → Byte) : Word :=
  input 3 ++ input 2 ++ input 1 ++ input 0

namespace Kernel

/-- `current_pcb->files[fd] = file` -/
def setFile (s : Kernel) (current : Word) (fd : Nat) (file : FileDescriptor) :
    Kernel :=
  { s with
    pcb := assign s.pcb current
      { s.pcb current with files := assign (s.pcb current).files fd file } }

/-- `close` -/
def close (s : Kernel) (current : Word) (fd : Int) : CallResult :=
  if fd < 2 ∨ fd > 7 then .returns (-1) [] s
  else
    let file := (s.pcb current).files fd.toNat
    if file.flags = 0 then .returns (-1) [] s
    else
      let s := s.setFile current fd.toNat { file with flags := 0 }
      match file.operationsTable.close with
      | .null => .null
      | .terminalClose | .rtcClose | .dirClose | .fileClose => .returns 0 [] s

/-- `read`; `stack` is what `dir_read` finds behind its local directory entry. -/
def read (s : Kernel) (current : Word) (fd : Int) (buf nbytes : Word)
    (stack : Nat → Byte) : CallResult :=
  if fd < 0 ∨ fd > 7 ∨ buf = 0 ∨ nbytes.toInt < 0 then .returns (-1) [] s
  else if fd = 1 then .returns (-1) [] s
  else
    let file := (s.pcb current).files fd.toNat
    if file.flags = 0 then .returns (-1) [] s
    else
      match file.operationsTable.read with
      | .null => .null
      | .terminalRead =>
          if nbytes = 0 then .returns 0 [] s
          else .waits { s with tty := s.tty.terminalReadStart s.curProcess }
      | .rtcRead =>
          .waits { s with rtc := s.rtc.rtcReadStart (s.curProcess - 1) }
      | .dirRead =>
          let result := dirRead s.fs file nbytes stack
          .returns result.value result.stored
            (s.setFile current fd.toNat result.file)
      | .fileRead =>
          let result := fileRead s.fs file nbytes
          .returns result.value result.stored
            (s.setFile current fd.toNat result.file)

/-- `write` of the bytes `input` at address `buf`. -/
def write (s : Kernel) (current : Word) (fd : Int) (buf nbytes : Word)
    (input : Nat → Byte) : Option CallResult :=
  if fd < 0 ∨ fd > 7 ∨ buf = 0 ∨ nbytes.toInt < 0 then some (.returns (-1) [] s)
  else if fd = 0 then some (.returns (-1) [] s)
  else
    let file := (s.pcb current).files fd.toNat
    if file.flags = 0 then some (.returns (-1) [] s)
    else
      match file.operationsTable.write with
      | .null => some .null
      | .terminalWrite =>
          if nbytes = 0 then some (.returns (-1) [] s)
          else
            (s.terminalWrite current ((List.range nbytes.toNat).map input)).map
              (.returns nbytes.toInt [])
      | .rtcWrite =>
          let (rtc, value) := s.rtc.rtcWrite (s.curProcess - 1) (bufferWord input)
          some (.returns value [] { s with rtc := rtc })
      | .dirWrite | .fileWrite => some (.returns (-1) [] s)

end Kernel

/-- `open`, with `none` for a NULL name. -/
def Kernel.open (s : Kernel) (current : Word) (filename : Option (List Byte)) :
    CallResult :=
  match unusedDescriptor (s.pcb current).files with
  | none => .returns (-1) [] s
  | some i =>
      match s.fs.readDentryByName filename with
      | none => .returns (-1) [] s
      | some (_, dentry) =>
          match openedFile ((s.pcb current).files i) dentry with
          | none => .returns (-1) [] s
          | some file =>
              let s := s.setFile current i file
              -- only the branch of the clock calls the open operation
              if dentry.fileType = 0 then
                .returns i [] { s with rtc := s.rtc.rtcOpen (s.curProcess - 1) }
              else .returns i [] s

/-- What every call leaves alone: all that is not a descriptor of the caller's
block, the display or the clock. -/
structure Kernel.CallKeeps (s next : Kernel) (current : Word) : Prop where
  table : next.table = s.table
  curProcess : next.curProcess = s.curProcess
  pdt : next.pdt = s.pdt
  ptVidmap : next.ptVidmap = s.ptVidmap
  ptVidmapFrame : next.ptVidmapFrame = s.ptVidmapFrame
  tssEsp0 : next.tssEsp0 = s.tssEsp0
  esp : next.esp = s.esp
  fs : next.fs = s.fs
  curTerminal : next.tty.curTerminal = s.tty.curTerminal
  others : ∀ address, address ≠ current → next.pcb address = s.pcb address
  own : ∃ files, next.pcb current = { s.pcb current with files := files }

namespace Kernel.CallKeeps

variable {s next : Kernel} {current : Word}

theorem of_pcb (tty : Tty) (rtc : Rtc) (shown : tty.curTerminal = s.tty.curTerminal) :
    s.CallKeeps { s with tty := tty, rtc := rtc } current :=
  ⟨rfl, rfl, rfl, rfl, rfl, rfl, rfl, rfl, shown, fun _ _ => rfl, (s.pcb current).files, rfl⟩

theorem setFile (s : Kernel) (current : Word) (fd : Nat) (file : FileDescriptor)
    (rtc : Rtc) : s.CallKeeps { s.setFile current fd file with rtc := rtc } current := by
  refine ⟨rfl, rfl, rfl, rfl, rfl, rfl, rfl, rfl, rfl, ?_, ?_⟩
  · intro address other
    simp [Kernel.setFile, other]
  · exact ⟨assign (s.pcb current).files fd file, by simp [Kernel.setFile]⟩

end Kernel.CallKeeps

/-- The operations the loop of `halt` calls, in order. -/
def closedByHalt (files : Nat → FileDescriptor) : List CloseFunc :=
  ((List.range 8).filter fun i =>
    (files i).flags ≠ 0 ∧ (files i).operationsTable.close ≠ .null).map fun i =>
      (files i).operationsTable.close

end LightweightOs
