import LightweightOs.AddressSpace
import LightweightOs.Executables

/-!
# Loading a program

`execute` maps the user page of the new process and lets `read_data` copy the
whole file to `PROGRAM_START`, which lies 0x48000 bytes into that page.  The
size is the one recorded in the inode; nothing compares it with the room that
is left.
-/

namespace LightweightOs

/-- The file is in user memory from `PROGRAM_START` on, and the load wrote only to the page
at 128MB, which the new process owns. -/
structure Started.Loads (started : Started) (next : Kernel) (contents : List Byte)
    (memory : Word → Byte) : Prop where
  loaded : ∀ i, (inside : i < contents.length) →
    storeBytes memory programStart started.image (programStart + BitVec.ofNat 32 i) =
      contents[i]
  inPage : ∀ address ∈ storeAddresses programStart started.image,
    0x08000000 ≤ address.toNat ∧ address.toNat ≤ 0x083FFFFF
  own : pageFrame (next.pdt 32) = userFrame started.pid

theorem storeAddresses_inPage {bytes : List Byte} :
    (∀ address ∈ storeAddresses programStart bytes, OnUserPage address) ↔
      bytes.length ≤ 0x3B8000 := by
  rw [← faultAddress_eq_none, faultAddress_programStart]
  split
  case isTrue fits => simp [fits]
  case isFalse long => simp [long]

namespace Kernel

variable {s next : Kernel} {frame : Frame} {locals : Locals} {commandUser : Nat → Byte}
  {started : Started}

/-- The page that `execute` maps is the one of the process it starts. -/
theorem execute_pdt
    (executes : s.execute frame locals commandUser = some (.starts started next)) :
    pageFrame (next.pdt 32) = userFrame started.pid := by
  simp only [execute, take_nameEnd] at executes
  split at executes
  · cases executes
  · simp only [runProgram, take_nameEnd] at executes
    split at executes
    · obtain ⟨_, _, isReturn⟩ := Option.map_eq_some_iff.mp executes
      cases isReturn
    · cases executes
      simp only [install, assign_self, startedProcess]
      rw [pageFrame_pdtEntryPageSetup, userFrame]
      apply BitVec.eq_of_toNat_eq
      rw [BitVec.toNat_setWidth, BitVec.toNat_ofInt, BitVec.toNat_ofInt]
      omega

/-- The bytes loaded are the contents of the file that the first word names. -/
theorem execute_image
    (executes : s.execute frame locals commandUser = some (.starts started next))
    {index : Word} {dentry : DirEntry}
    (named : s.fs.readDentryByName (some (firstWord (localCommand commandUser))) =
      some (index, dentry))
    (valid : s.fs.ValidFile dentry.inodeNum) :
    started.image = s.fs.contents dentry.inodeNum := by
  obtain ⟨program, found, rfl⟩ := execute_starts_eq executes
  obtain ⟨place, entry, isEntry, _, _, rfl⟩ := findProgram_eq_some.mp found
  rw [named] at isEntry
  cases isEntry
  have zero : (0 : Word).toNat = 0 := rfl
  rw [startedProcess]
  simp only
  rw [FileSystem.readData_eq valid _ (Nat.zero_le _), zero, List.drop_zero,
    ← FileSystem.contents_length, List.take_length]
  rfl

end Kernel

/-- A valid file that `execute` starts is loaded in order into the page of its process if
and only if it fits above `PROGRAM_START`. -/
theorem image_loading {s next : Kernel} {frame : Frame} {locals : Locals}
    {commandUser : Nat → Byte} {started : Started}
    (executes : s.execute frame locals commandUser = some (.starts started next))
    {index : Word} {dentry : DirEntry}
    (named : s.fs.readDentryByName (some (firstWord (localCommand commandUser))) =
      some (index, dentry))
    (valid : s.fs.ValidFile dentry.inodeNum) (memory : Word → Byte) :
    started.Loads next (s.fs.contents dentry.inodeNum) memory ↔
      (s.fs.inodeSize dentry.inodeNum).toNat ≤ 0x3B8000 := by
  have size := valid.size
  have image := Kernel.execute_image executes named valid
  have length := @FileSystem.contents_length s.fs dentry.inodeNum
  have fits := @storeAddresses_inPage (s.fs.contents dentry.inodeNum)
  rw [length] at fits
  constructor
  · intro loads
    apply fits.mp
    rw [← image]
    exact loads.inPage
  · intro small
    constructor
    case loaded =>
      intro i inside
      rw [image]
      exact storeBytes_getElem (by omega) inside
    case inPage =>
      rw [image]
      exact fits.mpr small
    case own => exact Kernel.execute_pdt executes

/-- The second shell of the machine with one program. -/
theorem image_loading_sampleStart :
    ∃ started next, sampleStart.execute (sampleFrame 1) sampleLocals sampleCommand =
        some (.starts started next) ∧
      started.Loads next (sampleFs.contents 0) fun _ => 0 := by
  have starts : ∃ started next, sampleStart.execute (sampleFrame 1) sampleLocals
      sampleCommand = some (.starts started next) :=
    Kernel.execute_starts_iff.mpr (by decide +kernel)
  obtain ⟨started, next, executes⟩ := starts
  have named : sampleStart.fs.readDentryByName
      (some (firstWord (localCommand sampleCommand))) =
      some (0, sampleFs.dirEntry 0) := by rfl
  have size : (sampleFs.inodeSize 0).toNat ≤ 0x3B8000 := by decide
  exact ⟨started, next, executes,
    (image_loading executes named sampleFs_validFile fun _ => 0).mpr size⟩

/-- The shell with a recorded size of one byte more than there is room for. -/
def bigFs : FileSystem where
  image := fun offset =>
    (([(4096, 1#8), (4097, 0x80#8), (4098, 0x3B#8)] ++ sampleImage).lookup
      offset.toNat).getD 0

theorem bigFs_image {offset : Word} (low : 4099 ≤ offset.toNat) (high : offset.toNat < 8192) :
    bigFs.image offset = 0 := by
  have apart : ∀ entry ∈ [(4096, 1#8), (4097, 0x80#8), (4098, 0x3B#8)] ++ sampleImage,
      entry.1 < 4099 ∨ 8192 ≤ entry.1 := by
    decide
  have absent : ([(4096, 1#8), (4097, 0x80#8), (4098, 0x3B#8)] ++ sampleImage).lookup
      offset.toNat = none := by
    rw [List.lookup_eq_none_iff]
    intro entry member
    have outside := apart entry member
    rw [bne_iff_ne]
    omega
  rw [bigFs]
  simp only [absent, Option.getD_none]

theorem bigFs_inodeBlock {index : Nat} (inside : index < 1023) :
    bigFs.inodeBlock 0 (BitVec.ofNat 32 index) = 0 := by
  have first : FileSystem.inodeOffset 0 + 4 = 4100#32 := rfl
  have four : (4 : Word).toNat = 4 := rfl
  have place : (4100#32 + 4 * BitVec.ofNat 32 index).toNat = 4100 + 4 * index := by
    rw [BitVec.toNat_add, BitVec.toNat_mul, BitVec.toNat_ofNat, BitVec.toNat_ofNat, four]
    omega
  have zero : ∀ step : Word, step.toNat < 4 →
      bigFs.image (4100#32 + 4 * BitVec.ofNat 32 index + step) = 0 := by
    intro step small
    have sum : (4100#32 + 4 * BitVec.ofNat 32 index + step).toNat =
        4100 + 4 * index + step.toNat := by
      rw [BitVec.toNat_add, place]
      omega
    apply bigFs_image <;> omega
  rw [FileSystem.inodeBlock, first, FileSystem.wordAt, zero 3 (by decide), zero 2 (by decide),
    zero 1 (by decide), bigFs_image (by omega) (by omega)]
  rfl

theorem bigFs_validFile : bigFs.ValidFile 0 := by
  have size : (bigFs.inodeSize 0).toNat = 0x3B8001 := by decide
  constructor
  case number => decide
  case size =>
    rw [size]
    decide
  case blocks =>
    intro index inside
    rw [bigFs_inodeBlock (by omega)]
    decide

/-- The last byte of that file is written behind the page. -/
theorem image_loading_big :
    ¬∀ (s next : Kernel) (frame : Frame) (locals : Locals) (commandUser : Nat → Byte)
        (started : Started) (index : Word) (dentry : DirEntry) (memory : Word → Byte),
      s.execute frame locals commandUser = some (.starts started next) →
      s.fs.readDentryByName (some (firstWord (localCommand commandUser))) =
        some (index, dentry) →
      s.fs.ValidFile dentry.inodeNum →
        started.Loads next (s.fs.contents dentry.inodeNum) memory := by
  intro loads
  have starts : ∃ started next, ({ sampleStart with fs := bigFs } : Kernel).execute
      (sampleFrame 1) sampleLocals sampleCommand = some (.starts started next) :=
    Kernel.execute_starts_iff.mpr (by decide +kernel)
  obtain ⟨started, next, executes⟩ := starts
  have named : bigFs.readDentryByName (some (firstWord (localCommand sampleCommand))) =
      some (0, bigFs.dirEntry 0) := by rfl
  have isInode : (bigFs.dirEntry 0).inodeNum = 0 := by decide
  have valid : bigFs.ValidFile (bigFs.dirEntry 0).inodeNum := by
    rw [isInode]
    exact bigFs_validFile
  have size : (bigFs.inodeSize (bigFs.dirEntry 0).inodeNum).toNat = 0x3B8001 := by decide
  have inPage := (loads _ _ _ _ _ _ _ _ (fun _ => 0) executes named valid).inPage
  have fits := storeAddresses_inPage.mp inPage
  rw [Kernel.execute_image executes named valid, FileSystem.contents_length] at fits
  change (bigFs.inodeSize (bigFs.dirEntry 0).inodeNum).toNat ≤ 0x3B8000 at fits
  omega

end LightweightOs
