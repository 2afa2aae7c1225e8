import LightweightOs.Words

/-!
# The read-only file system

The image is the byte at every offset from `fs_start`; pointer arithmetic on
offsets wraps at 32 bits, as `g_inodes` and `g_data_blocks` do.  Indices taken
from a corrupt image are not checked beyond what the source checks, so a read
past an array reaches whatever the image holds there.
-/

namespace LightweightOs

def blockSize : Word := 4096#32

theorem toNat_div_blockSize (index : Word) :
    (index / blockSize).toNat = index.toNat / 4096 := by
  rw [BitVec.toNat_udiv]
  rfl

theorem div_blockSize (index : Word) :
    index / blockSize = BitVec.ofNat 32 (index.toNat / 4096) := by
  rw [← toNat_div_blockSize, BitVec.ofNat_toNat, BitVec.setWidth_eq]

def maxFileName : Nat := 32

/-- The characters of a NUL-terminated string: its bytes, then its NUL. -/
def cString (text : List Byte) (index : Nat) : Byte :=
  text.getD index nul

def strlen (text : List Byte) : Nat :=
  (text.takeWhile (· ≠ nul)).length

/-- The comparison loop of `strncmp` from `index` on, with `count` bytes left. -/
def strncmpFrom (s1 s2 : Nat → Byte) (index : Nat) : Nat → Int
  | 0 => 0
  | count + 1 =>
      if s1 index ≠ s2 index ∨ s1 index = nul then
        (s1 index).toInt - (s2 index).toInt
      else strncmpFrom s1 s2 (index + 1) count

def strncmp (s1 s2 : Nat → Byte) (count : Nat) : Int :=
  strncmpFrom s1 s2 0 count

structure FileSystem where
  image : Word → Byte

/-- `dir_entry_t` -/
structure DirEntry where
  name : Fin 32 → Byte
  fileType : Word
  inodeNum : Word
  reserved : Fin 24 → Byte

namespace FileSystem

/-- The little-endian word at an offset of the image. -/
def wordAt (fs : FileSystem) (offset : Word) : Word :=
  fs.image (offset + 3) ++ fs.image (offset + 2) ++ fs.image (offset + 1) ++
    fs.image offset

def numDirEntries (fs : FileSystem) : Word := fs.wordAt 0

def numInodes (fs : FileSystem) : Word := fs.wordAt 4

def numDataBlocks (fs : FileSystem) : Word := fs.wordAt 8

/-- The offset of `g_boot_block->dir_entries[index]`. -/
def dirEntryOffset (index : Word) : Word := 64 + 64 * index

/-- The offset of `g_inodes[inode]`. -/
def inodeOffset (inode : Word) : Word := blockSize + blockSize * inode

/-- `g_inodes[inode].size` -/
def inodeSize (fs : FileSystem) (inode : Word) : Word :=
  fs.wordAt (inodeOffset inode)

/-- `g_inodes[inode].blocks[index]` -/
def inodeBlock (fs : FileSystem) (inode index : Word) : Word :=
  fs.wordAt (inodeOffset inode + 4 + 4 * index)

/-- `g_data_blocks[block].data[offset]` -/
def dataByte (fs : FileSystem) (block offset : Word) : Byte :=
  fs.image ((1 + fs.numInodes) * blockSize + blockSize * block + offset)

def dirEntry (fs : FileSystem) (index : Word) : DirEntry :=
  { name := fun position =>
      fs.image (dirEntryOffset index + BitVec.ofNat 32 position)
    fileType := fs.wordAt (dirEntryOffset index + 32)
    inodeNum := fs.wordAt (dirEntryOffset index + 36)
    reserved := fun position =>
      fs.image (dirEntryOffset index + 40 + BitVec.ofNat 32 position) }

def readDentryByIndex (fs : FileSystem) (index : Word) : Option DirEntry :=
  if fs.numDirEntries ≤ index then none else some (fs.dirEntry index)

/-- The search loop of `read_dentry_by_name` from `index` on. -/
def searchDentry (fs : FileSystem) (fname : List Byte) (index : Word) :
    Nat → Option (Word × DirEntry)
  | 0 => none
  | left + 1 =>
      let stored := fun position =>
        fs.image (dirEntryOffset index + BitVec.ofNat 32 position)
      if strncmp (cString fname) stored maxFileName = 0 then
        (fs.readDentryByIndex index).map (index, ·)
      else searchDentry fs fname (index + 1) left

/-- The entry's index and contents; `none` is the return value -1.  A NULL
name is `none`. -/
def readDentryByName (fs : FileSystem) (fname : Option (List Byte)) :
    Option (Word × DirEntry) :=
  match fname with
  | none => none
  | some fname =>
      if strlen fname < 1 ∨ strlen fname > maxFileName then none
      else fs.searchDentry fname 0 fs.numDirEntries.toNat

/-- The copy loop of `read_data` from byte `index` of the file up to `stop`.
It runs at most `length` times, which is the fuel it is given. -/
def copyData (fs : FileSystem) (inode stop index : Word) : Nat → List Byte
  | 0 => []
  | left + 1 =>
      if index < stop then
        let block := fs.inodeBlock inode (index / blockSize)
        if fs.numDataBlocks ≤ block then []
        else
          fs.dataByte block (index % blockSize) ::
            copyData fs inode stop (index + 1) left
      else []

/-- The bytes stored at the start of the buffer; `none` is the return value
-1. -/
def readData (fs : FileSystem) (inode offset length : Word) :
    Option (List Byte) :=
  if fs.numInodes ≤ inode then none
  else
    let rest := fs.inodeSize inode - offset
    let length := if rest < length then rest else length
    some (fs.copyData inode (offset + length) offset length.toNat)

end FileSystem

end LightweightOs
