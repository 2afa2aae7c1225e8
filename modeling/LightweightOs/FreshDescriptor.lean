import LightweightOs.Clock
import LightweightOs.Directory
import LightweightOs.Programs

/-!
# Newly opened descriptors

`open` sets the fields of a descriptor that the operations of its file type read
and leaves the others as the last use of the entry left them.  Two descriptors
of one file are told apart only by what the operations read elsewhere: the
frequency of the terminal, which `rtc_open` does not set back, and the stack
behind a directory entry without a NUL.
-/

namespace LightweightOs

open Terminated Transition

/-- A read or a write on a descriptor that a program has opened. -/
inductive Use where
  | read (buf nbytes : Word)
  | write (buf nbytes : Word) (input : Nat → Byte)

/-- A descriptor of the process whose block is at `current`. -/
structure Handle where
  kernel : Kernel
  current : Word
  fd : Nat

namespace Handle

def file (h : Handle) : FileDescriptor := (h.kernel.pcb h.current).files h.fd

def setFile (h : Handle) (file : FileDescriptor) : Handle :=
  { h with kernel := h.kernel.setFile h.current h.fd file }

def setRtc (h : Handle) (rtc : Rtc) : Handle :=
  { h with kernel := { h.kernel with rtc := rtc } }

/-- The index of the terminal in the arrays of RTC.c. -/
def terminal (h : Handle) : Int := h.kernel.curProcess - 1

/-- The frequency `RTC_handler` uses for the terminal. -/
def virtualFreq (h : Handle) : Word := h.kernel.rtc.rtcFreq h.terminal

/-- One use and, if it waits, the end of its wait; `stack` is what the kernel stack holds
behind the local variables of the call. -/
def use (h : Handle) (stack : Nat → Byte) : Use → Reply × Handle
  | .read buf nbytes =>
      match h.kernel.read h.current h.fd buf nbytes stack with
      | .returns value stored next => (.returned value stored, { h with kernel := next })
      | .waits next =>
          (.waiting,
            { h with
              kernel := { next with rtc := next.rtc.rtcReadEnd (next.curProcess - 1) } })
      | .null => (.null, h)
  | .write buf nbytes input =>
      match h.kernel.write h.current h.fd buf nbytes input with
      | some (.returns value stored next) =>
          (.returned value stored, { h with kernel := next })
      | some (.waits next) => (.waiting, { h with kernel := next })
      | some .null | none => (.null, h)

/-- The replies to a sequence of uses, and the descriptor after them. -/
def uses (h : Handle) : List (Use × (Nat → Byte)) → List Reply × Handle
  | [] => ([], h)
  | (use, stack) :: rest =>
      let (reply, next) := h.use stack use
      let (replies, last) := next.uses rest
      (reply :: replies, last)

@[simp] theorem setFile_file (h : Handle) (file : FileDescriptor) :
    (h.setFile file).file = file := by
  simp [setFile, Handle.file, Kernel.setFile]

@[simp] theorem setRtc_file (h : Handle) (rtc : Rtc) : (h.setRtc rtc).file = h.file := rfl

/-- A descriptor in use that `open` may have filled. -/
structure Used (h : Handle) : Prop where
  range : 2 ≤ h.fd ∧ h.fd ≤ 7
  flags : h.file.flags = 1

/-- The arguments are refused whatever the descriptor is. -/
def Refused (buf nbytes : Word) : Prop := buf = 0 ∨ nbytes.toInt < 0

instance (buf nbytes : Word) : Decidable (Refused buf nbytes) :=
  inferInstanceAs (Decidable (_ ∨ _))

variable {h : Handle} {stack : Nat → Byte} {buf nbytes : Word} {input : Nat → Byte}

theorem use_refused (use : Use)
    (refused : match use with
      | .read buf nbytes | .write buf nbytes _ => Refused buf nbytes) :
    h.use stack use = (.returned (-1) [], h) := by
  cases use with
  | read buf nbytes =>
      rw [Handle.use, Kernel.read, if_pos (.inr (.inr refused))]
  | write buf nbytes input =>
      rw [Handle.use, Kernel.write, if_pos (.inr (.inr refused))]

theorem Used.checks (used : h.Used) (accepted : ¬Refused buf nbytes) :
    ¬((h.fd : Int) < 0 ∨ (h.fd : Int) > 7 ∨ buf = 0 ∨ nbytes.toInt < 0) := by
  obtain ⟨⟨low, high⟩, _⟩ := used
  rintro (negative | large | isRefused)
  · omega
  · omega
  · exact accepted isRefused

theorem Used.inUse (used : h.Used) :
    ¬((h.kernel.pcb h.current).files (h.fd : Int).toNat).flags = 0 := by
  change ¬h.file.flags = 0
  rw [used.flags]
  decide

theorem read_used (used : h.Used) (accepted : ¬Refused buf nbytes) :
    h.kernel.read h.current h.fd buf nbytes stack =
      match h.file.operationsTable.read with
      | .null => .null
      | .terminalRead =>
          if nbytes = 0 then .returns 0 [] h.kernel
          else
            .waits
              { h.kernel with tty := h.kernel.tty.terminalReadStart h.kernel.curProcess }
      | .rtcRead => .waits (h.setRtc (h.kernel.rtc.rtcReadStart h.terminal)).kernel
      | .dirRead =>
          let result := dirRead h.kernel.fs h.file nbytes stack
          .returns result.value result.stored (h.setFile result.file).kernel
      | .fileRead =>
          let result := fileRead h.kernel.fs h.file nbytes
          .returns result.value result.stored (h.setFile result.file).kernel := by
  have range := used.range
  have notOutput : (h.fd : Int) ≠ 1 := by omega
  rw [Kernel.read, if_neg (used.checks accepted), if_neg notOutput]
  simp only [if_neg used.inUse]
  rfl

theorem write_used (used : h.Used) (accepted : ¬Refused buf nbytes)
    (notTerminal : h.file.operationsTable.write ≠ .terminalWrite) :
    h.kernel.write h.current h.fd buf nbytes input =
      match h.file.operationsTable.write with
      | .null | .terminalWrite => some .null
      | .rtcWrite =>
          some (.returns (h.kernel.rtc.rtcWrite h.terminal (bufferWord input)).2 []
            (h.setRtc (h.kernel.rtc.rtcWrite h.terminal (bufferWord input)).1).kernel)
      | .dirWrite | .fileWrite => some (.returns (-1) [] h.kernel) := by
  have range := used.range
  have notInput : (h.fd : Int) ≠ 0 := by omega
  rw [Kernel.write, if_neg (used.checks accepted), if_neg notInput]
  simp only [if_neg used.inUse]
  change (match h.file.operationsTable.write with
    | .null => _ | .terminalWrite => _ | .rtcWrite => _ | .dirWrite | .fileWrite => _) = _
  cases operation : h.file.operationsTable.write with
  | terminalWrite => exact (notTerminal operation).elim
  | null | rtcWrite | dirWrite | fileWrite => rfl

/-- A descriptor that is read through a position and cannot be written. -/
theorem use_reader (used : h.Used) {value : Word → Int} {stored : Word → List Byte}
    {file : Word → FileDescriptor}
    (noWrite : h.file.operationsTable.write = .dirWrite ∨
      h.file.operationsTable.write = .fileWrite)
    (reads : ∀ buf nbytes, ¬Refused buf nbytes →
      h.kernel.read h.current h.fd buf nbytes stack =
        .returns (value nbytes) (stored nbytes) (h.setFile (file nbytes)).kernel)
    (use : Use) :
    h.use stack use =
      match use with
      | .read buf nbytes =>
          if Refused buf nbytes then (.returned (-1) [], h)
          else (.returned (value nbytes) (stored nbytes), h.setFile (file nbytes))
      | .write _ _ _ => (.returned (-1) [], h) := by
  cases use with
  | read buf nbytes =>
      by_cases refused : Refused buf nbytes
      · rw [use_refused _ refused]
        exact (if_pos refused).symm
      · rw [Handle.use, reads buf nbytes refused]
        exact (if_neg refused).symm
  | write buf nbytes input =>
      by_cases refused : Refused buf nbytes
      · exact use_refused _ refused
      · rcases noWrite with isDir | isFile
        · rw [Handle.use, write_used used refused (by rw [isDir]; decide), isDir]
        · rw [Handle.use, write_used used refused (by rw [isFile]; decide), isFile]

theorem use_file (used : h.Used) (isFile : h.file.operationsTable = fileOperationsTable)
    (use : Use) :
    h.use stack use =
      match use with
      | .read buf nbytes =>
          if Refused buf nbytes then (.returned (-1) [], h)
          else
            (.returned (fileRead h.kernel.fs h.file nbytes).value
                (fileRead h.kernel.fs h.file nbytes).stored,
              h.setFile (fileRead h.kernel.fs h.file nbytes).file)
      | .write _ _ _ => (.returned (-1) [], h) := by
  apply use_reader used
  · rw [isFile]
    exact .inr rfl
  · intro buf nbytes accepted
    rw [read_used used accepted, isFile]
    rfl

theorem use_dir (used : h.Used) (isDir : h.file.operationsTable = dirOperationsTable)
    (use : Use) :
    h.use stack use =
      match use with
      | .read buf nbytes =>
          if Refused buf nbytes then (.returned (-1) [], h)
          else
            (.returned (dirRead h.kernel.fs h.file nbytes stack).value
                (dirRead h.kernel.fs h.file nbytes stack).stored,
              h.setFile (dirRead h.kernel.fs h.file nbytes stack).file)
      | .write _ _ _ => (.returned (-1) [], h) := by
  apply use_reader used
  · rw [isDir]
    exact .inl rfl
  · intro buf nbytes accepted
    rw [read_used used accepted, isDir]
    rfl

theorem use_clock (used : h.Used) (isClock : h.file.operationsTable = rtcOperationsTable)
    (use : Use) :
    h.use stack use =
      match use with
      | .read buf nbytes =>
          if Refused buf nbytes then (.returned (-1) [], h)
          else
            (.waiting,
              h.setRtc ((h.kernel.rtc.rtcReadStart h.terminal).rtcReadEnd h.terminal))
      | .write buf nbytes input =>
          if Refused buf nbytes then (.returned (-1) [], h)
          else
            (.returned (h.kernel.rtc.rtcWrite h.terminal (bufferWord input)).2 [],
              h.setRtc (h.kernel.rtc.rtcWrite h.terminal (bufferWord input)).1) := by
  cases use with
  | read buf nbytes =>
      by_cases refused : Refused buf nbytes
      · rw [use_refused _ refused]
        exact (if_pos refused).symm
      · rw [Handle.use, read_used used refused, isClock]
        exact (if_neg refused).symm
  | write buf nbytes input =>
      by_cases refused : Refused buf nbytes
      · rw [use_refused _ refused]
        exact (if_pos refused).symm
      · rw [Handle.use, write_used used refused (by rw [isClock]; decide), isClock]
        exact (if_neg refused).symm

end Handle

namespace FileSystem

/-- Every entry of the directory has a NUL among its 64 bytes. -/
def NamesEnd (fs : FileSystem) : Prop :=
  ∀ index, index < fs.numDirEntries →
    (text nul ((fs.dirEntry index).byteAt fun _ => nul) 0 64).length < 64

end FileSystem

namespace DirEntry

variable {dentry : DirEntry} {stack other : Nat → Byte}

theorem text_stack :
    text nul (dentry.byteAt stack) 0 64 = text nul (dentry.byteAt other) 0 64 := by
  apply text_congr
  intro i inside
  simp only [Nat.zero_add, byteAt]
  have inReserved : i - 40 < 24 := by omega
  simp only [inReserved, dite_true]

theorem copyName_stack (ends : (text nul (dentry.byteAt stack) 0 64).length < 64)
    (count : Nat) : dentry.copyName stack 0 count = dentry.copyName other 0 count := by
  have same := @text_stack dentry stack other
  rw [copyName_eq, copyName_eq]
  rcases Nat.lt_or_ge 64 count with wide | narrow
  · have otherEnds := ends
    rw [same] at otherEnds
    rw [text_of_short (Nat.le_of_lt wide) ends, text_of_short (Nat.le_of_lt wide) otherEnds,
      same]
  · rw [text_take narrow, same, ← text_take narrow]

theorem copyName_unended (ends : ¬(text nul (dentry.byteAt stack) 0 64).length < 64) :
    dentry.copyName stack 0 65 =
      text nul (dentry.byteAt stack) 0 64 ++ if stack 0 = nul then [] else [stack 0] := by
  have whole := @text_length_le _ _ nul (dentry.byteAt stack) 0 64
  have holds := text_holds nul (dentry.byteAt stack) 0 64
  have length : (text nul (dentry.byteAt stack) 0 64).length = 64 := by omega
  have last : dentry.byteAt stack 64 = stack 0 := by simp [byteAt]
  rw [copyName_eq]
  symm
  apply Holds.eq_text
  by_cases ended : stack 0 = nul
  · rw [if_pos ended, List.append_nil]
    refine ⟨holds.plain, by omega, holds.stored, ?_⟩
    intro _
    rw [length, Nat.zero_add, last, ended]
  · rw [if_neg ended]
    constructor
    case plain =>
      rw [List.mem_append, List.mem_singleton]
      rintro (inEntry | onStack)
      · exact holds.plain inEntry
      · exact ended onStack.symm
    case fits =>
      rw [List.length_append, length, List.length_singleton]
    case stored =>
      intro i inside
      rw [List.length_append, length, List.length_singleton] at inside
      rcases Nat.lt_or_ge i 64 with inEntry | atEnd
      · rw [List.getElem_append_left (by omega)]
        exact holds.stored i (by omega)
      · obtain rfl : i = 64 := by omega
        rw [List.getElem_append_right (by omega), Nat.zero_add, last]
        simp
    case ends =>
      intro short
      rw [List.length_append, length, List.length_singleton] at short
      omega

end DirEntry

theorem dirRead_congr {fs : FileSystem} (namesEnd : fs.NamesEnd) {file other : FileDescriptor}
    (position : file.filePosition = other.filePosition) (nbytes : Word)
    (stack otherStack : Nat → Byte) :
    (dirRead fs file nbytes stack).value = (dirRead fs other nbytes otherStack).value ∧
      (dirRead fs file nbytes stack).stored = (dirRead fs other nbytes otherStack).stored ∧
      (dirRead fs file nbytes stack).file.filePosition =
        (dirRead fs other nbytes otherStack).file.filePosition := by
  simp only [dirRead, position, FileSystem.readDentryByIndex]
  by_cases ended : fs.numDirEntries ≤ other.filePosition
  · simp only [if_pos ended, and_self]
  · have ends := namesEnd other.filePosition (BitVec.not_le.mp ended)
    have copied := @DirEntry.copyName_stack (fs.dirEntry other.filePosition)
      (fun _ => nul) stack ends nbytes.toNat
    have otherCopied := @DirEntry.copyName_stack (fs.dirEntry other.filePosition)
      (fun _ => nul) otherStack ends nbytes.toNat
    simp only [if_neg ended, ← copied, ← otherCopied, and_self]

/-- Two descriptors of one file of a type, opened in different pasts. -/
inductive Alike (a b : Handle) : Word → Prop where
  | clock (used : a.Used) (otherUsed : b.Used)
      (isClock : a.file.operationsTable = rtcOperationsTable)
      (otherClock : b.file.operationsTable = rtcOperationsTable)
      (frequency : a.virtualFreq = b.virtualFreq) : Alike a b 0
  | dir (used : a.Used) (otherUsed : b.Used) (fs : a.kernel.fs = b.kernel.fs)
      (namesEnd : a.kernel.fs.NamesEnd)
      (isDir : a.file.operationsTable = dirOperationsTable)
      (otherDir : b.file.operationsTable = dirOperationsTable)
      (position : a.file.filePosition = b.file.filePosition) : Alike a b 1
  | file (used : a.Used) (otherUsed : b.Used) (fs : a.kernel.fs = b.kernel.fs)
      (isFile : a.file.operationsTable = fileOperationsTable) (same : a.file = b.file) :
      Alike a b 2

theorem Handle.Used.setFile {h : Handle} {file : FileDescriptor} (used : h.Used)
    (flags : file.flags = 1) : (h.setFile file).Used :=
  ⟨used.range, by rw [Handle.setFile_file, flags]⟩

theorem Handle.Used.setRtc {h : Handle} (used : h.Used) (rtc : Rtc) : (h.setRtc rtc).Used :=
  ⟨used.range, used.flags⟩

theorem Rtc.rtcWrite_congr (r other : Rtc) (i j : Int) (frequency : Word) :
    (r.rtcWrite i frequency).2 = (other.rtcWrite j frequency).2 ∧
      (r.rtcFreq i = other.rtcFreq j →
        (r.rtcWrite i frequency).1.rtcFreq i = (other.rtcWrite j frequency).1.rtcFreq j) := by
  simp only [rtcWrite]
  split
  · exact ⟨rfl, id⟩
  · split
    · exact ⟨rfl, id⟩
    · split
      · exact ⟨rfl, id⟩
      · refine ⟨rfl, ?_⟩
        intro _
        dsimp only
        rw [assign_self, assign_self]

namespace Alike

variable {a b : Handle} {fileType : Word}

theorem use (alike : Alike a b fileType) (use : Use) (stack otherStack : Nat → Byte) :
    (a.use stack use).1 = (b.use otherStack use).1 ∧
      Alike (a.use stack use).2 (b.use otherStack use).2 fileType := by
  have alike_ := alike
  cases alike with
  | file used otherUsed fs isFile same =>
      rw [Handle.use_file used isFile, Handle.use_file otherUsed (same ▸ isFile), same, fs]
      cases use with
      | write buf nbytes input => exact ⟨rfl, alike_⟩
      | read buf nbytes =>
          simp only
          split
          · exact ⟨rfl, alike_⟩
          · obtain ⟨position, moved⟩ := fileRead_file b.kernel.fs b.file nbytes
            rw [moved]
            refine ⟨rfl, .file (used.setFile ?_) (otherUsed.setFile ?_) fs ?_ ?_⟩
            · exact otherUsed.flags
            · exact otherUsed.flags
            · rw [Handle.setFile_file, ← isFile, same]
            · rw [Handle.setFile_file, Handle.setFile_file]
  | dir used otherUsed fs namesEnd isDir otherDir position =>
      rw [Handle.use_dir used isDir, Handle.use_dir otherUsed otherDir]
      cases use with
      | write buf nbytes input => exact ⟨rfl, alike_⟩
      | read buf nbytes =>
          simp only
          split
          · exact ⟨rfl, alike_⟩
          · obtain ⟨value, stored, next⟩ :=
              dirRead_congr namesEnd position nbytes stack otherStack
            rw [← fs]
            obtain ⟨first, moved⟩ := dirRead_file a.kernel.fs a.file nbytes stack
            obtain ⟨second, otherMoved⟩ := dirRead_file a.kernel.fs b.file nbytes otherStack
            rw [moved, otherMoved] at next
            rw [value, stored, moved, otherMoved]
            refine ⟨rfl, .dir (used.setFile ?_) (otherUsed.setFile ?_) fs namesEnd ?_ ?_ ?_⟩
            · exact used.flags
            · exact otherUsed.flags
            · rw [Handle.setFile_file, ← isDir]
            · rw [Handle.setFile_file, ← otherDir]
            · rw [Handle.setFile_file, Handle.setFile_file]
              exact next
  | clock used otherUsed isClock otherClock frequency =>
      rw [Handle.use_clock used isClock, Handle.use_clock otherUsed otherClock]
      cases use with
      | read buf nbytes =>
          simp only
          split
          · exact ⟨rfl, alike_⟩
          · exact ⟨rfl, .clock (used.setRtc _) (otherUsed.setRtc _) isClock otherClock
              frequency⟩
      | write buf nbytes input =>
          simp only
          split
          · exact ⟨rfl, alike_⟩
          · obtain ⟨value, written⟩ := Rtc.rtcWrite_congr a.kernel.rtc b.kernel.rtc a.terminal
              b.terminal (bufferWord input)
            rw [value]
            exact ⟨rfl, .clock (used.setRtc _) (otherUsed.setRtc _) isClock otherClock
              (written frequency)⟩

theorem uses (alike : Alike a b fileType) {calls otherCalls : List (Use × (Nat → Byte))}
    (same : calls.map Prod.fst = otherCalls.map Prod.fst) :
    (a.uses calls).1 = (b.uses otherCalls).1 ∧
      Alike (a.uses calls).2 (b.uses otherCalls).2 fileType := by
  induction calls generalizing a b otherCalls with
  | nil =>
      obtain rfl := List.map_eq_nil_iff.mp same.symm
      exact ⟨rfl, alike⟩
  | cons call rest induction =>
      cases otherCalls with
      | nil => cases same
      | cons otherCall otherRest =>
          obtain ⟨use, stack⟩ := call
          obtain ⟨otherUse, otherStack⟩ := otherCall
          obtain ⟨rfl, later⟩ := List.cons_eq_cons.mp same
          obtain ⟨reply, next⟩ := alike.use use stack otherStack
          obtain ⟨replies, last⟩ := induction next later
          exact ⟨List.cons_eq_cons.mpr ⟨reply, replies⟩, last⟩

end Alike

/-- A descriptor that has just been opened, by the type of its directory entry. -/
structure Opened (s : Kernel) (dentry : DirEntry) (h : Handle) : Prop where
  used : h.Used
  fs : h.kernel.fs = s.fs
  frequency : h.virtualFreq = s.rtc.rtcFreq (s.curProcess - 1)
  position : h.file.filePosition = 0
  kind : dentry.fileType = 0 ∧ h.file.operationsTable = rtcOperationsTable ∨
    dentry.fileType = 1 ∧ h.file.operationsTable = dirOperationsTable ∨
    dentry.fileType = 2 ∧ h.file = ⟨fileOperationsTable, dentry.inodeNum, 0, 1⟩

theorem openedFile_cases {file opened : FileDescriptor} {dentry : DirEntry}
    (opens : openedFile file dentry = some opened) :
    (opened.flags = 1 ∧ opened.filePosition = 0) ∧
      (dentry.fileType = 0 ∧ opened.operationsTable = rtcOperationsTable ∨
        dentry.fileType = 1 ∧ opened.operationsTable = dirOperationsTable ∨
        dentry.fileType = 2 ∧ opened = ⟨fileOperationsTable, dentry.inodeNum, 0, 1⟩) := by
  rw [openedFile] at opens
  split at opens
  case isTrue isClock =>
    cases opens
    exact ⟨⟨rfl, rfl⟩, .inl ⟨isClock, rfl⟩⟩
  case isFalse =>
    split at opens
    case isTrue isDir =>
      cases opens
      exact ⟨⟨rfl, rfl⟩, .inr (.inl ⟨isDir, rfl⟩)⟩
    case isFalse =>
      split at opens
      case isTrue isFile =>
        cases opens
        exact ⟨⟨rfl, rfl⟩, .inr (.inr ⟨isFile, rfl⟩)⟩
      case isFalse => cases opens

theorem Opened.of_openedFile {s : Kernel} {file opened : FileDescriptor} {dentry : DirEntry}
    {h : Handle} (range : 2 ≤ h.fd ∧ h.fd ≤ 7)
    (opens : openedFile file dentry = some opened) (isFile : h.file = opened)
    (fs : h.kernel.fs = s.fs)
    (frequency : h.virtualFreq = s.rtc.rtcFreq (s.curProcess - 1)) : Opened s dentry h := by
  obtain ⟨⟨flags, position⟩, kind⟩ := openedFile_cases opens
  rw [← isFile] at flags position kind
  exact ⟨⟨range, flags⟩, fs, frequency, position, kind⟩

theorem Opened.of_open {s next : Kernel} {current : Word} {filename : Option (List Byte)}
    {fd : Nat} {index : Word} {dentry : DirEntry}
    (named : s.fs.readDentryByName filename = some (index, dentry))
    (opens : s.open current filename = .returns fd [] next) :
    Opened s dentry ⟨next, current, fd⟩ := by
  rw [Kernel.open] at opens
  split at opens
  · cases opens
  case h_2 i unused =>
    rw [named] at opens
    simp only at opens
    split at opens
    · cases opens
    case h_2 file opened =>
      obtain ⟨low, high, _⟩ := unusedDescriptor_eq unused
      have set : ∀ rtc : Rtc, (⟨{ s.setFile current i file with rtc := rtc }, current, i⟩ :
          Handle).file = file := by
        intro rtc
        simp [Handle.file, Kernel.setFile]
      split at opens
      · obtain ⟨isFd, _, rfl⟩ := CallResult.returns.inj opens
        obtain rfl := Int.ofNat.inj isFd
        exact .of_openedFile ⟨low, high⟩ opened (set _) rfl rfl
      · obtain ⟨isFd, _, rfl⟩ := CallResult.returns.inj opens
        obtain rfl := Int.ofNat.inj isFd
        exact .of_openedFile ⟨low, high⟩ opened (set s.rtc) rfl rfl

/-- How many interrupts a reader waits for, when `RTC_handler` sees these masks of booted
terminals; `none` if it still waits after them. -/
def Rtc.interruptsWaited (r : Rtc) (curProcess : Int) : List Byte → Option Nat
  | [] => none
  | mask :: rest =>
      match r.rtcHandler curProcess mask with
      | none => none
      | some next =>
          if next.ticked curProcess then some 1
          else (next.interruptsWaited curProcess rest).map (· + 1)

theorem Rtc.interruptsWaited_congr {r other : Rtc} {i j : Int}
    (flag : r.rtcFlag i = other.rtcFlag j) (counter : r.rtcCounter i = other.rtcCounter j)
    (frequency : r.rtcFreq i = other.rtcFreq j) (masks : List Byte) :
    r.interruptsWaited i masks = other.interruptsWaited j masks := by
  induction masks generalizing r other with
  | nil => rfl
  | cons mask rest induction =>
      have divides : r.divisor i mask = other.divisor j mask := by
        rw [divisor, divisor, product, product, frequency]
      simp only [interruptsWaited, rtcHandler, divides, product, frequency, counter]
      by_cases zero : other.rtcFreq j * processesActive mask = 0
      · simp only [if_pos zero]
      · by_cases noRest : other.divisor j mask = 0
        · simp only [if_neg zero, if_pos noRest]
        · simp only [if_neg zero, if_neg noRest, ticked]
          by_cases clears : other.rtcCounter j % other.divisor j mask = 0
          · simp only [if_pos clears, assign_self, Bool.not_false, if_true]
          · simp only [if_neg clears, flag]
            split
            · rfl
            · congr 1
              apply induction
              · exact flag
              · simp only [assign_self]
              · exact frequency

namespace Handle

/-- `rtc_counter` of the terminal. -/
def counter (h : Handle) : Word := h.kernel.rtc.rtcCounter h.terminal

/-- The interrupts that a read of the clock waits for. -/
def waits (h : Handle) (masks : List Byte) : Option Nat :=
  (h.kernel.rtc.rtcReadStart h.terminal).interruptsWaited h.terminal masks

theorem waits_congr {a b : Handle} (counter : a.counter = b.counter)
    (frequency : a.virtualFreq = b.virtualFreq) (masks : List Byte) :
    a.waits masks = b.waits masks := by
  apply Rtc.interruptsWaited_congr
  · simp only [Rtc.rtcReadStart, assign_self]
  · exact counter
  · exact frequency

end Handle

/-- The same uses of two descriptors cannot tell them apart, whatever the stack holds in
either case; for a clock the frequency and the interrupts waited for are the same too. -/
structure Indistinguishable (a b : Handle) (isClock : Prop) : Prop where
  replies : ∀ calls otherCalls, calls.map Prod.fst = otherCalls.map Prod.fst →
    (a.uses calls).1 = (b.uses otherCalls).1
  frequency : isClock → ∀ calls otherCalls, calls.map Prod.fst = otherCalls.map Prod.fst →
    (a.uses calls).2.virtualFreq = (b.uses otherCalls).2.virtualFreq
  waits : isClock → ∀ calls otherCalls, calls.map Prod.fst = otherCalls.map Prod.fst →
    (a.uses calls).2.counter = (b.uses otherCalls).2.counter → ∀ masks,
      (a.uses calls).2.waits masks = (b.uses otherCalls).2.waits masks

theorem Alike.frequency {a b : Handle} (alike : Alike a b 0) :
    a.virtualFreq = b.virtualFreq := by
  generalize isClock : (0 : Word) = fileType at alike
  cases alike with
  | clock _ _ _ _ frequency => exact frequency
  | dir => cases isClock
  | file => cases isClock

theorem Alike.indistinguishable {a b : Handle} {fileType : Word}
    (alike : Alike a b fileType) : Indistinguishable a b (fileType = 0) where
  replies := fun _ _ same => (alike.uses same).1
  frequency := by
    rintro rfl calls otherCalls same
    exact (alike.uses same).2.frequency
  waits := by
    rintro rfl calls otherCalls same counter masks
    exact Handle.waits_congr counter (alike.uses same).2.frequency masks

/-- Descriptors of one file are alike when the clock has one frequency, and when the
entries of a listed directory end. -/
theorem Opened.alike {s other : Kernel} {dentry : DirEntry} {a b : Handle}
    (opened : Opened s dentry a) (otherOpened : Opened other dentry b)
    (image : s.fs = other.fs)
    (frequency : dentry.fileType = 0 →
      s.rtc.rtcFreq (s.curProcess - 1) = other.rtc.rtcFreq (other.curProcess - 1))
    (namesEnd : dentry.fileType = 1 → s.fs.NamesEnd) : Alike a b dentry.fileType := by
  have fs : a.kernel.fs = b.kernel.fs :=
    opened.fs.trans (image.trans otherOpened.fs.symm)
  rcases opened.kind with ⟨isType, isClock⟩ | ⟨isType, isDir⟩ | ⟨isType, isFile⟩ <;>
    rcases otherOpened.kind with ⟨otherType, otherClock⟩ | ⟨otherType, otherDir⟩ |
      ⟨otherType, otherFile⟩ <;>
    rw [isType] at otherType frequency namesEnd ⊢
  case inl.inl =>
    refine .clock opened.used otherOpened.used isClock otherClock ?_
    rw [opened.frequency, otherOpened.frequency, frequency rfl]
  case inr.inl.inr.inl =>
    refine .dir opened.used otherOpened.used fs ?_ isDir otherDir ?_
    · rw [opened.fs]
      exact namesEnd rfl
    · rw [opened.position, otherOpened.position]
  case inr.inr.inr.inr =>
    refine .file opened.used otherOpened.used fs ?_ ?_
    · rw [isFile]
    · rw [isFile, otherFile]
  all_goals cases otherType

theorem Handle.uses_append (h : Handle) (calls more : List (Use × (Nat → Byte))) :
    h.uses (calls ++ more) =
      ((h.uses calls).1 ++ ((h.uses calls).2.uses more).1,
        ((h.uses calls).2.uses more).2) := by
  induction calls generalizing h with
  | nil => rfl
  | cons call rest induction =>
      obtain ⟨use, stack⟩ := call
      simp only [List.cons_append, Handle.uses, induction]

/-- The descriptor lists the directory of the image and is at a position of it. -/
structure Handle.At (h : Handle) (fs : FileSystem) (position : Word) : Prop where
  used : h.Used
  isDir : h.file.operationsTable = dirOperationsTable
  fs : h.kernel.fs = fs
  position : h.file.filePosition = position

theorem Handle.At.skip {h : Handle} {fs : FileSystem} {position : Word}
    (place : h.At fs position) (inside : position < fs.numDirEntries)
    (stack : Nat → Byte) : (h.use stack (.read 1 0)).2.At fs (position + 1) := by
  obtain ⟨used, isDir, image, isPosition⟩ := place
  have accepted : ¬Refused 1 0 := by decide
  have entry : (dirRead fs h.file 0 stack).file =
      { h.file with filePosition := position + 1 } := by
    have notEnded : ¬fs.numDirEntries ≤ position := BitVec.not_le.mpr inside
    simp only [dirRead, isPosition, if_neg notEnded, FileSystem.readDentryByIndex]
  rw [use_dir used isDir]
  simp only [if_neg accepted, image, entry]
  refine ⟨used.setFile used.flags, ?_, image, ?_⟩
  · rw [setFile_file]
    exact isDir
  · rw [setFile_file]

/-- The uses that skip entries of a directory. -/
def skips (count : Nat) : List (Use × (Nat → Byte)) :=
  List.replicate count (.read 1 0, fun _ => nul)

theorem Handle.At.skips {h : Handle} {fs : FileSystem} {position : Word}
    (place : h.At fs position) {count : Nat}
    (inside : position.toNat + count < fs.numDirEntries.toNat) :
    (h.uses (skips count)).2.At fs (position + BitVec.ofNat 32 count) := by
  induction count generalizing h position with
  | zero =>
      rw [BitVec.add_zero]
      exact place
  | succ count induction =>
      have bound := fs.numDirEntries.isLt
      have before : position < fs.numDirEntries := by
        rw [BitVec.lt_def]
        omega
      have next := place.skip before fun _ => nul
      have successor : (position + 1).toNat = position.toNat + 1 := toNat_add_one (by omega)
      have later := induction next (by omega)
      rw [add_one_add_ofNat] at later
      exact later

theorem Handle.At.shows {h : Handle} {fs : FileSystem} {position : Word}
    (place : h.At fs position) (inside : position < fs.numDirEntries)
    (stack : Nat → Byte) :
    ∃ value, (h.use stack (.read 1 65)).1 =
      .returned value ((fs.dirEntry position).copyName stack 0 65) := by
  obtain ⟨used, isDir, image, isPosition⟩ := place
  have accepted : ¬Refused 1 65 := by decide
  have notEnded : ¬fs.numDirEntries ≤ position := BitVec.not_le.mpr inside
  have asked : (65 : Word).toNat = 65 := rfl
  rw [use_dir used isDir]
  simp only [if_neg accepted, image, dirRead, isPosition, if_neg notEnded,
    FileSystem.readDentryByIndex, asked]
  exact ⟨_, rfl⟩

/-- Two listings that no stack can tell apart are of a directory whose entries end. -/
theorem Indistinguishable.namesEnd {a b : Handle} {fs : FileSystem} {isClock : Prop}
    (place : a.At fs 0) (otherPlace : b.At fs 0)
    (same : Indistinguishable a b isClock) : fs.NamesEnd := by
  intro index inside
  by_contra unended
  have bound := BitVec.lt_def.mp inside
  have zero : (0 : Word).toNat = 0 := rfl
  have isIndex : (0 : Word) + BitVec.ofNat 32 index.toNat = index := by
    apply (BitVec.zero_add _).trans
    rw [BitVec.ofNat_toNat, BitVec.setWidth_eq]
  have within : (0 : Word).toNat + index.toNat < fs.numDirEntries.toNat := by omega
  have skipped := place.skips within
  have otherSkipped := otherPlace.skips within
  rw [isIndex] at skipped otherSkipped
  obtain ⟨value, shown⟩ := skipped.shows inside fun _ => nul
  obtain ⟨otherValue, otherShown⟩ := otherSkipped.shows inside fun _ => space
  have replies := same.replies (skips index.toNat ++ [(.read 1 65, fun _ => nul)])
    (skips index.toNat ++ [(.read 1 65, fun _ => space)])
    (by rw [List.map_append, List.map_append]; rfl)
  rw [Handle.uses_append, Handle.uses_append] at replies
  obtain ⟨_, lastReply⟩ := List.append_inj' replies rfl
  have last : ((a.uses (skips index.toNat)).2.use (fun _ => nul) (.read 1 65)).1 =
      ((b.uses (skips index.toNat)).2.use (fun _ => space) (.read 1 65)).1 :=
    List.head_eq_of_cons_eq lastReply
  rw [shown, otherShown] at last
  have stored := (Reply.returned.inj last).2
  have otherUnended : ¬(text nul ((fs.dirEntry index).byteAt fun _ => space) 0 64).length <
      64 := by
    rw [@DirEntry.text_stack _ (fun _ => space) fun _ => nul]
    exact unended
  rw [DirEntry.copyName_unended unended, DirEntry.copyName_unended otherUnended,
    @DirEntry.text_stack _ (fun _ => space) fun _ => nul] at stored
  have lengths := congrArg List.length stored
  rw [List.length_append, List.length_append] at lengths
  simp [nul, space] at lengths

/-- Two descriptors of one file behave alike, whatever came before either `open`, if and only
if a clock has the same frequency in both cases and a directory has no entry without a NUL. -/
theorem fresh_descriptor {s other next otherNext : Kernel} {current otherCurrent : Word}
    {filename : Option (List Byte)} {fd otherFd : Nat} {index : Word} {dentry : DirEntry}
    (image : s.fs = other.fs)
    (named : s.fs.readDentryByName filename = some (index, dentry))
    (opens : s.open current filename = .returns fd [] next)
    (otherOpens : other.open otherCurrent filename = .returns otherFd [] otherNext) :
    Indistinguishable ⟨next, current, fd⟩ ⟨otherNext, otherCurrent, otherFd⟩
        (dentry.fileType = 0) ↔
      (dentry.fileType = 0 →
        s.rtc.rtcFreq (s.curProcess - 1) = other.rtc.rtcFreq (other.curProcess - 1)) ∧
      (dentry.fileType = 1 → s.fs.NamesEnd) := by
  have opened := Opened.of_open named opens
  rw [image] at named
  have otherOpened := Opened.of_open named otherOpens
  constructor
  · intro same
    constructor
    · intro isClock
      have frequency : (⟨next, current, fd⟩ : Handle).virtualFreq =
          (⟨otherNext, otherCurrent, otherFd⟩ : Handle).virtualFreq :=
        same.frequency isClock [] [] rfl
      rwa [opened.frequency, otherOpened.frequency] at frequency
    · intro isDir
      have isTable : ∀ {state : Kernel} {h : Handle}, Opened state dentry h →
          h.file.operationsTable = dirOperationsTable := by
        intro state h isOpened
        rcases isOpened.kind with ⟨isType, _⟩ | ⟨_, isDir⟩ | ⟨isType, _⟩
        · rw [isDir] at isType
          cases isType
        · exact isDir
        · rw [isDir] at isType
          cases isType
      exact Indistinguishable.namesEnd
        ⟨opened.used, isTable opened, opened.fs, opened.position⟩
        ⟨otherOpened.used, isTable otherOpened, otherOpened.fs.trans image.symm,
          otherOpened.position⟩ same
  · rintro ⟨frequency, namesEnd⟩
    exact (opened.alike otherOpened image frequency namesEnd).indistinguishable

/-- The descriptor an `open` would return. -/
def Kernel.opensAs (s : Kernel) (current : Word) (filename : Option (List Byte)) :
    Option Int :=
  match s.open current filename with
  | .returns value [] _ => some value
  | .returns _ (_ :: _) _ | .waits _ | .null => none

theorem Kernel.open_of_opensAs {s : Kernel} {current : Word}
    {filename : Option (List Byte)} {value : Int}
    (opens : s.opensAs current filename = some value) :
    ∃ next, s.open current filename = .returns value [] next := by
  rw [Kernel.opensAs] at opens
  split at opens
  case h_1 returned next isResult =>
    cases opens
    exact ⟨next, isResult⟩
  all_goals cases opens

/-- The first shell opens its own file, reads 20 bytes of it and closes it. -/
def sampleReading : List Action :=
  [.call (sampleFrame 1) (.openFile (some shellName)),
    .call (sampleFrame 1) (.read 2 0x8000000 20 fun _ => 0),
    .call (sampleFrame 1) (.close 2)]

/-- After that the file opens as it did at first. -/
theorem fresh_descriptor_sampleReading :
    ∃ history s next otherNext, Run Acts sampleStart history s ∧
      history.map (·.action) = sampleReading ∧
      sampleStart.open (pcbAddr 1) (some shellName) = .returns 2 [] next ∧
      s.open (pcbAddr 1) (some shellName) = .returns 2 [] otherNext ∧
      Indistinguishable ⟨next, pcbAddr 1, 2⟩ ⟨otherNext, pcbAddr 1, 2⟩ False := by
  obtain ⟨history, s, run, actions, reopens⟩ :=
    @exists_programs sampleStart sampleReading
      (fun _ s => s.opensAs (pcbAddr 1) (some shellName) = some 2) _ (by decide +kernel)
  have first : sampleStart.opensAs (pcbAddr 1) (some shellName) = some 2 := by
    decide +kernel
  obtain ⟨next, opens⟩ := Kernel.open_of_opensAs first
  obtain ⟨otherNext, otherOpens⟩ := Kernel.open_of_opensAs reopens
  have named : sampleStart.fs.readDentryByName (some shellName) =
      some (0, sampleFs.dirEntry 0) := rfl
  have regular : (sampleFs.dirEntry 0).fileType = 2 := by decide
  have same : s.fs = sampleStart.fs := Acts.run_fs run
  have fresh := @fresh_descriptor sampleStart s next otherNext (pcbAddr 1) (pcbAddr 1)
    (some shellName) 2 2 0 _ same.symm named opens otherOpens
  rw [regular] at fresh
  have noClock : ((2 : Word) = 0) = False := eq_false (by decide)
  rw [noClock] at fresh
  refine ⟨history, s, next, otherNext, run, actions, opens, otherOpens, fresh.mpr ?_⟩
  refine ⟨False.elim, ?_⟩
  intro isDir
  cases isDir

def rtcName : List Byte := [0x72#8, 0x74#8, 0x63#8]

/-- The image with a second entry, "rtc". -/
def rtcImage : List (Nat × Byte) :=
  [(0, 2#8), (128, 0x72#8), (129, 0x74#8), (130, 0x63#8)] ++ sampleImage

def rtcFs : FileSystem where
  image := fun offset => (rtcImage.lookup offset.toNat).getD 0

def rtcStart : Kernel := { sampleStart with fs := rtcFs }

theorem rtcStart_booted : Booted rtcStart := by
  apply booted_of_validShell
  refine ⟨0, rtcFs.dirEntry 0, rtcFs.copyData 0 28 0 28, ?_, ?_, ?_⟩
  · rfl
  · rfl
  · decide

/-- The first shell opens the clock, sets 2 Hz and closes it. -/
def sampleSlowing : List Action :=
  [.call (sampleFrame 1) (.openFile (some rtcName)),
    .call (sampleFrame 1) (.write 2 0x8000000 4 fun i => if i = 0 then 2 else 0),
    .call (sampleFrame 1) (.close 2)]

/-- A clock that is opened again has the frequency of its last user. -/
theorem fresh_descriptor_rtc :
    ¬∀ start otherStart s other next otherNext history otherHistory filename fd otherFd
        index dentry, Booted start → Booted otherStart → Run Acts start history s →
      Run Acts otherStart otherHistory other → s.runningPid = other.runningPid →
      s.fs = other.fs → s.fs.readDentryByName filename = some (index, dentry) →
      s.open (currentPcb s.esp) filename = .returns (fd : Nat) [] next →
      other.open (currentPcb other.esp) filename = .returns (otherFd : Nat) [] otherNext →
        Indistinguishable ⟨next, currentPcb s.esp, fd⟩
          ⟨otherNext, currentPcb other.esp, otherFd⟩ (dentry.fileType = 0) := by
  intro fresh
  obtain ⟨history, s, run, _, reopens, running, slow⟩ :=
    @exists_programs rtcStart sampleSlowing
      (fun _ s => s.opensAs (currentPcb s.esp) (some rtcName) = some 2 ∧
        rtcStart.runningPid = s.runningPid ∧ s.rtc.rtcFreq (s.curProcess - 1) = 2)
      _ (by decide +kernel)
  have first : rtcStart.opensAs (currentPcb rtcStart.esp) (some rtcName) = some 2 := by
    decide +kernel
  obtain ⟨next, opens⟩ := Kernel.open_of_opensAs first
  obtain ⟨otherNext, otherOpens⟩ := Kernel.open_of_opensAs reopens
  have named : rtcStart.fs.readDentryByName (some rtcName) =
      some (1, rtcFs.dirEntry 1) := rfl
  have isClock : (rtcFs.dirEntry 1).fileType = 0 := by decide
  have same : s.fs = rtcStart.fs := Acts.run_fs run
  have frequency := (fresh _ _ _ _ _ _ _ _ _ 2 2 _ _ rtcStart_booted rtcStart_booted .nil run
    running same.symm named opens otherOpens).frequency isClock [] [] rfl
  have opened := Opened.of_open named opens
  rw [← same] at named
  have otherOpened := Opened.of_open named otherOpens
  have rate : rtcStart.rtc.rtcFreq (rtcStart.curProcess - 1) =
      s.rtc.rtcFreq (s.curProcess - 1) :=
    opened.frequency.symm.trans (frequency.trans otherOpened.frequency)
  rw [slow] at rate
  revert rate
  decide

end LightweightOs
