import LightweightOs.FileStreams

/-!
# read_data on every offset and on every image

The clamp of `read_data` subtracts the offset from the size and its loop bound
adds the length to the offset, both in 32 bits.  Up to the end of a file this
is the slice that was asked for.  An offset behind the end is clamped to a huge
length, and the loop looks up a block number that the file does not have.  The
same lookup leaves the 1023 entries of the inode when the recorded size is
larger than they can hold.
-/

namespace LightweightOs

namespace FileSystem

variable {fs : FileSystem} {inode offset length : Word}

/-- The return value of `read_data`. -/
def readDataValue (fs : FileSystem) (inode offset length : Word) : Int :=
  match fs.readData inode offset length with
  | none => -1
  | some bytes => (BitVec.ofNat 32 bytes.length).toInt

/-- The bytes from `offset` on, at most `length` of them. -/
def slice (fs : FileSystem) (inode offset length : Word) : List Byte :=
  ((fs.contents inode).drop offset.toNat).take length.toNat

theorem slice_length :
    (fs.slice inode offset length).length =
      min length.toNat ((fs.inodeSize inode).toNat - offset.toNat) := by
  rw [slice, List.length_take, List.length_drop, contents_length]

/-- `read_data` writes the slice and returns its length, as integers. -/
def ReadsSlice (fs : FileSystem) (inode offset length : Word) : Prop :=
  fs.readData inode offset length = some (fs.slice inode offset length) ∧
    fs.readDataValue inode offset length =
      max 0 (min (length.toNat : Int) ((fs.inodeSize inode).toNat - offset.toNat))

/-- The loop stores nothing when it has no turn or stops in the first one. -/
theorem copyData_eq_nil {stop index : Word} {left : Nat} :
    fs.copyData inode stop index left = [] ↔
      left = 0 ∨ stop ≤ index ∨
        fs.numDataBlocks ≤ fs.inodeBlock inode (index / blockSize) := by
  cases left with
  | zero => simp [copyData]
  | succ left =>
      rw [copyData]
      by_cases before : index < stop
      · have notAfter : ¬stop ≤ index := BitVec.not_le.mpr before
        rw [if_pos before]
        by_cases bad : fs.numDataBlocks ≤ fs.inodeBlock inode (index / blockSize)
        · simp [bad]
        · simp [bad, notAfter]
      · rw [if_neg before]
        simp [BitVec.not_lt.mp before]

theorem readsSlice_of_readData (valid : fs.ValidFile inode)
    (reads : fs.readData inode offset length = some (fs.slice inode offset length)) :
    fs.ReadsSlice inode offset length := by
  refine ⟨reads, ?_⟩
  have size := valid.size
  have isLength := @slice_length fs inode offset length
  have small : (BitVec.ofNat 32 (fs.slice inode offset length).length).toNat =
      (fs.slice inode offset length).length := by
    rw [BitVec.toNat_ofNat]
    omega
  rw [readDataValue, reads]
  simp only
  rw [BitVec.toInt_eq_toNat_of_lt (by omega), small]
  omega

theorem slice_behind (behind : (fs.inodeSize inode).toNat < offset.toNat) :
    fs.slice inode offset length = [] := by
  rw [slice, List.drop_of_length_le (by rw [contents_length]; omega), List.take_nil]

theorem readData_behind (valid : fs.ValidFile inode)
    (behind : (fs.inodeSize inode).toNat < offset.toNat) :
    fs.readData inode offset length = some [] ↔
      length = 0 ∨ 2 ^ 32 ≤ offset.toNat + length.toNat ∨
        fs.numDataBlocks ≤ fs.inodeBlock inode (offset / blockSize) := by
  have below := offset.isLt
  have rest : (fs.inodeSize inode - offset).toNat =
      2 ^ 32 + (fs.inodeSize inode).toNat - offset.toNat := by
    rw [BitVec.toNat_sub]
    omega
  have zero : length = 0 ↔ length.toNat = 0 := by
    constructor
    · rintro rfl
      rfl
    · intro none
      exact BitVec.eq_of_toNat_eq none
  rw [readData, if_neg (BitVec.not_le.mpr valid.number), zero]
  simp only [Option.some.injEq]
  by_cases clamped : fs.inodeSize inode - offset < length
  · rw [if_pos clamped, copyData_eq_nil]
    rw [BitVec.lt_def, rest] at clamped
    have wraps : offset + (fs.inodeSize inode - offset) ≤ offset := by
      rw [BitVec.le_def, BitVec.toNat_add, rest]
      omega
    constructor
    · intro _
      exact .inr (.inl (by omega))
    · intro _
      exact .inr (.inl wraps)
  · rw [if_neg clamped, copyData_eq_nil]
    rw [BitVec.lt_def, rest] at clamped
    have stops : offset + length ≤ offset ↔
        length.toNat = 0 ∨ 2 ^ 32 ≤ offset.toNat + length.toNat := by
      rw [BitVec.le_def, BitVec.toNat_add]
      omega
    rw [stops]
    constructor
    · rintro (none | (none | wraps) | bad)
      · exact .inl none
      · exact .inl none
      · exact .inr (.inl wraps)
      · exact .inr (.inr bad)
    · rintro (none | wraps | bad)
      · exact .inl none
      · exact .inr (.inl (.inr wraps))
      · exact .inr (.inr bad)

end FileSystem

/-- In a valid file `read_data` gives the requested slice unless it is asked for bytes
behind the end and finds a number there that passes for a block. -/
theorem read_data_slice {fs : FileSystem} {inode : Word} (valid : fs.ValidFile inode)
    (offset length : Word) :
    fs.ReadsSlice inode offset length ↔
      offset ≤ fs.inodeSize inode ∨ length = 0 ∨
        2 ^ 32 ≤ offset.toNat + length.toNat ∨
        fs.numDataBlocks ≤ fs.inodeBlock inode (offset / blockSize) := by
  by_cases inside : offset ≤ fs.inodeSize inode
  · have reads := FileSystem.readData_eq valid length (BitVec.le_def.mp inside)
    constructor
    · exact fun _ => .inl inside
    · exact fun _ => FileSystem.readsSlice_of_readData valid reads
  · have behind : (fs.inodeSize inode).toNat < offset.toNat := by
      rw [BitVec.le_def] at inside
      omega
    have nothing := @FileSystem.slice_behind fs inode offset length behind
    rw [← FileSystem.readData_behind valid behind]
    constructor
    · rintro ⟨reads, _⟩
      rw [nothing] at reads
      exact .inr reads
    · rintro (within | reads)
      · exact (inside within).elim
      · apply FileSystem.readsSlice_of_readData valid
        rw [nothing]
        exact reads

theorem sampleFs_validFile : sampleFs.ValidFile 0 := by
  have isFile : (sampleFs.dirEntry 0).fileType = 2 := by decide
  have isInode : (sampleFs.dirEntry 0).inodeNum = 0 := by decide
  rw [← isInode]
  exact sampleFs_wellFormed 0 (by decide) isFile

theorem read_data_slice_sampleFs : sampleFs.ReadsSlice 0 8 100 :=
  (read_data_slice sampleFs_validFile 8 100).mpr (.inl (by decide))

/-- One byte behind the end of a file of 28 bytes. -/
theorem read_data_behind_end :
    ¬∀ (fs : FileSystem) (inode offset length : Word), fs.ValidFile inode →
      fs.ReadsSlice inode offset length := by
  intro reads
  obtain ⟨isSlice, _⟩ := reads sampleFs 0 29 1 sampleFs_validFile
  revert isSlice
  decide

/-- A turn of the loop of `read_data`: the index into the inode's block numbers, the number
found there, and the byte copied when it is in range. -/
structure BlockAccess where
  blockIndex : Word
  number : Word
  copied : Option Byte

namespace FileSystem

variable {fs : FileSystem} {inode offset length : Word}

/-- The turns of the loop that `copyData` models. -/
def blockAccesses (fs : FileSystem) (inode stop index : Word) : Nat → List BlockAccess
  | 0 => []
  | left + 1 =>
      if index < stop then
        let block := fs.inodeBlock inode (index / blockSize)
        if fs.numDataBlocks ≤ block then [⟨index / blockSize, block, none⟩]
        else
          ⟨index / blockSize, block, some (fs.dataByte block (index % blockSize))⟩ ::
            blockAccesses fs inode stop (index + 1) left
      else []

/-- The turns of the loop in a call of `read_data`. -/
def readDataAccesses (fs : FileSystem) (inode offset length : Word) : List BlockAccess :=
  if fs.numInodes ≤ inode then []
  else
    let rest := fs.inodeSize inode - offset
    let length := if rest < length then rest else length
    fs.blockAccesses inode (offset + length) offset length.toNat

theorem blockAccesses_copied (stop index : Word) (left : Nat) :
    (fs.blockAccesses inode stop index left).filterMap (·.copied) =
      fs.copyData inode stop index left := by
  induction left generalizing index with
  | zero => rfl
  | succ left induction =>
      rw [blockAccesses, copyData]
      split
      · dsimp only
        split
        · rfl
        · rw [List.filterMap_cons, induction]
      · rfl

/-- What holds of the turns of the loop on every image. -/
structure Checked (fs : FileSystem) (accesses : List BlockAccess) : Prop where
  inRange : ∀ access ∈ accesses, access.copied.isSome → access.number < fs.numDataBlocks
  stops : ∀ earlier access later, accesses = earlier ++ access :: later →
    fs.numDataBlocks ≤ access.number →
      later = [] ∧ (accesses.filterMap (·.copied)).length = earlier.length

theorem blockAccesses_checked (stop index : Word) (left : Nat) :
    fs.Checked (fs.blockAccesses inode stop index left) := by
  induction left generalizing index with
  | zero => exact ⟨by simp [blockAccesses], by simp [blockAccesses]⟩
  | succ left induction =>
      rw [blockAccesses]
      split
      case isTrue =>
        dsimp only
        split
        case isTrue bad =>
          constructor
          · intro access member copied
            obtain rfl := List.mem_singleton.mp member
            simp at copied
          · intro earlier access later isList _
            cases earlier with
            | nil =>
                obtain ⟨rfl, rfl⟩ := List.cons_eq_cons.mp isList
                exact ⟨rfl, rfl⟩
            | cons first rest => simp at isList
        case isFalse good =>
          obtain ⟨inRange, stops⟩ := induction (index + 1)
          constructor
          · intro access member copied
            rcases List.mem_cons.mp member with rfl | inRest
            · exact BitVec.not_le.mp good
            · exact inRange access inRest copied
          · intro earlier access later isList bad
            cases earlier with
            | nil =>
                obtain ⟨rfl, _⟩ := List.cons_eq_cons.mp isList
                exact (good bad).elim
            | cons first rest =>
                obtain ⟨rfl, isRest⟩ := List.cons_eq_cons.mp isList
                obtain ⟨isLast, count⟩ := stops rest access later isRest bad
                refine ⟨isLast, ?_⟩
                rw [List.filterMap_cons, List.length_cons, List.length_cons, count]
      case isFalse => exact ⟨by simp, by simp⟩

/-- The loop stays inside the inode's block numbers when its last byte does, or when it
meets a number out of range on the way. -/
theorem blockAccesses_inside {stop index : Word} {left : Nat}
    (covers : index.toNat + left = stop.toNat) :
    (∀ access ∈ fs.blockAccesses inode stop index left, access.blockIndex.toNat < 1023) ↔
      left = 0 ∨ stop.toNat ≤ 1023 * 4096 ∨
        ∃ block : Nat, index.toNat / 4096 ≤ block ∧ block < 1023 ∧
          fs.numDataBlocks ≤ fs.inodeBlock inode (BitVec.ofNat 32 block) := by
  induction left generalizing index with
  | zero => simp [blockAccesses]
  | succ left induction =>
      obtain ⟨before, next⟩ := turn_left covers
      have blockIndex := toNat_div_blockSize index
      have isIndex := div_blockSize index
      rw [blockAccesses, if_pos before]
      dsimp only
      by_cases bad : fs.numDataBlocks ≤ fs.inodeBlock inode (index / blockSize)
      · rw [if_pos bad]
        simp only [List.mem_singleton, forall_eq, blockIndex]
        constructor
        · intro inside
          exact .inr (.inr ⟨index.toNat / 4096, Nat.le_refl _, inside, isIndex ▸ bad⟩)
        · rintro (none | short | ⟨block, atLeast, inside, _⟩) <;> omega
      · rw [if_neg bad]
        simp only [List.mem_cons, forall_eq_or_imp, blockIndex]
        rw [induction (by omega), next]
        constructor
        · rintro ⟨inside, last | short | ⟨block, atLeast, below, outOfRange⟩⟩
          · exact .inr (.inl (by omega))
          · exact .inr (.inl short)
          · exact .inr (.inr ⟨block, by omega, below, outOfRange⟩)
        · rintro (none | short | ⟨block, atLeast, below, outOfRange⟩)
          · omega
          · exact ⟨by omega, .inr (.inl short)⟩
          · have later : block ≠ index.toNat / 4096 := by
              rintro rfl
              exact bad (isIndex ▸ outOfRange)
            exact ⟨by omega, .inr (.inr ⟨block, by omega, below, outOfRange⟩)⟩

theorem blockAccesses_blockIndex {stop index : Word} {left : Nat}
    (covers : index.toNat + left = stop.toNat) {earlier later : List BlockAccess}
    {access : BlockAccess}
    (isList : fs.blockAccesses inode stop index left = earlier ++ access :: later) :
    access.blockIndex.toNat = (index.toNat + earlier.length) / 4096 := by
  induction left generalizing index earlier with
  | zero => simp [blockAccesses] at isList
  | succ left induction =>
      obtain ⟨before, next⟩ := turn_left covers
      have blockIndex := toNat_div_blockSize index
      rw [blockAccesses, if_pos before] at isList
      dsimp only at isList
      cases earlier with
      | nil =>
          split at isList <;> obtain ⟨rfl, _⟩ := List.cons_eq_cons.mp isList <;>
            exact blockIndex
      | cons first rest =>
          split at isList
          · simp at isList
          · obtain ⟨_, isRest⟩ := List.cons_eq_cons.mp isList
            rw [induction (by omega) isRest, next, List.length_cons]
            congr 1
            omega

/-- On this image the block numbers consulted are the inode's own, the blocks read exist,
and a number out of range ends the read with the count so far. -/
structure ReadsSafely (fs : FileSystem) (inode offset length : Word) : Prop where
  own : ∀ access ∈ fs.readDataAccesses inode offset length, access.blockIndex.toNat < 1023
  inRange : ∀ access ∈ fs.readDataAccesses inode offset length,
    access.copied.isSome → access.number < fs.numDataBlocks
  stops : ∀ earlier access later,
    fs.readDataAccesses inode offset length = earlier ++ access :: later →
      fs.numDataBlocks ≤ access.number →
        later = [] ∧ fs.readDataValue inode offset length = earlier.length

theorem clamp_toNat (inside : offset ≤ fs.inodeSize inode) :
    (if fs.inodeSize inode - offset < length then fs.inodeSize inode - offset
      else length).toNat =
      min length.toNat ((fs.inodeSize inode).toNat - offset.toNat) := by
  rw [BitVec.le_def] at inside
  have rest : (fs.inodeSize inode - offset).toNat =
      (fs.inodeSize inode).toNat - offset.toNat := by
    rw [BitVec.toNat_sub]
    omega
  split
  case isTrue clamped =>
    rw [BitVec.lt_def, rest] at clamped
    omega
  case isFalse fits =>
    rw [BitVec.lt_def, rest] at fits
    omega

/-- Once the block numbers are the inode's own, the rest follows on every image. -/
theorem readsSafely_of_own (inside : offset ≤ fs.inodeSize inode)
    (own : ∀ access ∈ fs.readDataAccesses inode offset length,
      access.blockIndex.toNat < 1023) : fs.ReadsSafely inode offset length := by
  by_cases exists_ : fs.numInodes ≤ inode
  · have none : fs.readDataAccesses inode offset length = [] := by
      rw [readDataAccesses, if_pos exists_]
    constructor
    case own => exact own
    case inRange => simp [none]
    case stops => simp [none]
  · have clamp := @clamp_toNat fs inode offset length inside
    rw [BitVec.le_def] at inside
    have size := (fs.inodeSize inode).isLt
    rw [readDataAccesses, if_neg exists_] at own
    dsimp only at own
    generalize isClamped : (if fs.inodeSize inode - offset < length
      then fs.inodeSize inode - offset else length) = clamped at own clamp
    have covers : offset.toNat + clamped.toNat = (offset + clamped).toNat := by
      rw [BitVec.toNat_add, clamp]
      omega
    have accesses : fs.readDataAccesses inode offset length =
        fs.blockAccesses inode (offset + clamped) offset clamped.toNat := by
      rw [readDataAccesses, if_neg exists_]
      simp only [isClamped]
    have reads : fs.readData inode offset length =
        some (fs.copyData inode (offset + clamped) offset clamped.toNat) := by
      rw [readData, if_neg exists_]
      simp only [isClamped]
    have checked : fs.Checked (fs.blockAccesses inode (offset + clamped) offset
        clamped.toNat) := blockAccesses_checked _ _ _
    constructor
    case own =>
      rw [accesses]
      exact own
    case inRange =>
      rw [accesses]
      exact checked.inRange
    case stops =>
      rw [accesses]
      intro earlier access later isList bad
      obtain ⟨isLast, count⟩ := checked.stops earlier access later isList bad
      have isIndex := blockAccesses_blockIndex covers isList
      have below := own access (by simp [isList])
      rw [blockAccesses_copied] at count
      have small : (BitVec.ofNat 32 earlier.length).toNat = earlier.length := by
        rw [BitVec.toNat_ofNat]
        omega
      refine ⟨isLast, ?_⟩
      rw [readDataValue, reads]
      simp only
      rw [count, BitVec.toInt_eq_toNat_of_lt (by omega), small]

end FileSystem

/-- From an offset inside the recorded size `read_data` is safe unless its last byte lies
behind the 1023 blocks of the inode and every block number before is in range. -/
theorem read_data_corrupt {fs : FileSystem} {inode offset : Word} (length : Word)
    (inside : offset ≤ fs.inodeSize inode) :
    fs.ReadsSafely inode offset length ↔
      fs.numInodes ≤ inode ∨
        min length.toNat ((fs.inodeSize inode).toNat - offset.toNat) = 0 ∨
        offset.toNat + min length.toNat ((fs.inodeSize inode).toNat - offset.toNat) ≤
          1023 * 4096 ∨
        ∃ block : Nat, offset.toNat / 4096 ≤ block ∧ block < 1023 ∧
          fs.numDataBlocks ≤ fs.inodeBlock inode (BitVec.ofNat 32 block) := by
  have clamp := @FileSystem.clamp_toNat fs inode offset length inside
  have own : (∀ access ∈ fs.readDataAccesses inode offset length,
      access.blockIndex.toNat < 1023) ↔ fs.ReadsSafely inode offset length :=
    ⟨FileSystem.readsSafely_of_own inside, fun safe => safe.own⟩
  rw [← own]
  by_cases exists_ : fs.numInodes ≤ inode
  · rw [FileSystem.readDataAccesses, if_pos exists_]
    simp [exists_]
  · rw [FileSystem.readDataAccesses, if_neg exists_]
    dsimp only
    rw [BitVec.le_def] at inside
    have size := (fs.inodeSize inode).isLt
    generalize (if fs.inodeSize inode - offset < length
      then fs.inodeSize inode - offset else length) = clamped at clamp ⊢
    have covers : offset.toNat + clamped.toNat = (offset + clamped).toNat := by
      rw [BitVec.toNat_add, clamp]
      omega
    rw [FileSystem.blockAccesses_inside covers, ← covers, clamp]
    simp only [exists_, false_or]

/-- An image of ones: the recorded size of inode 0 is far beyond its block numbers. -/
def onesFs : FileSystem where
  image := fun _ => 0xFF

theorem read_data_corrupt_onesFs : onesFs.ReadsSafely 0 0 100 :=
  (read_data_corrupt 100 (by decide)).mpr (.inr (.inr (.inl (by decide))))

/-- The first byte behind the 1023 blocks. -/
theorem read_data_leaves_inode :
    ¬∀ (fs : FileSystem) (inode offset length : Word), offset ≤ fs.inodeSize inode →
      fs.ReadsSafely inode offset length := by
  intro safe
  have own := (safe onesFs 0 4190208 1 (by decide)).own
  revert own
  decide

end LightweightOs
