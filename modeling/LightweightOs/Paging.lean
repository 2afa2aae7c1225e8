import LightweightOs.Words
import LightweightOs.Library.BitField

/-!
# Page directory and page table entries

An entry is assembled in a local union and then stored as a word.  The local is
not initialised, so every builder takes the word the local held before; the
members it does not assign keep those bits.
-/

namespace LightweightOs

open BitField

/-- `pdt_entry_page_setup`: an entry for a 4MB page. -/
def pdtEntryPageSetup (page : Word) (physical : Word) (user : Word) : Word :=
  let page := setField page 0 1#1                       -- p
  let page := setField page 1 1#1                       -- rw
  let page := setField page 2 (user.setWidth 1)         -- us
  let page := setField page 3 0#1                       -- pwt
  let page := setField page 4 0#1                       -- pcd
  let page := setField page 5 0#1                       -- a
  let page := setField page 6 0#1                       -- d
  let page := setField page 7 1#1                       -- ps
  let page := setField page 8 0#1                       -- g
  let page := setField page 12 0#1                      -- pat
  let page := setField page 21 0#1                      -- reserved
  setField page 22 (physical.setWidth 10)               -- address_22_31

/-- The directory entry `vidmap` builds for `pt_vidmap`, whose page frame is
`frame`. -/
def vidmapTableEntry (vidmem : Word) (frame : BitVec 20) : Word :=
  let vidmem := setField vidmem 0 1#1                   -- p
  let vidmem := setField vidmem 2 1#1                   -- us
  let vidmem := setField vidmem 1 1#1                   -- rw
  setField vidmem 12 frame                              -- address

/-- The table entry `vidmap` and `pit_handler` build for a video page; the
assignment to `address_31_12` keeps the low 20 bits of `address`. -/
def videoPageEntry (vidmemPt : Word) (address : Word) : Word :=
  let vidmemPt := setField vidmemPt 0 1#1               -- p
  let vidmemPt := setField vidmemPt 2 1#1               -- us
  let vidmemPt := setField vidmemPt 1 1#1               -- rw
  setField vidmemPt 12 (address.setWidth 20)            -- address_31_12

/-- `address_22_31` -/
def pageFrame (entry : Word) : BitVec 10 := field entry 22 10

def present (entry : Word) : BitVec 1 := field entry 0 1

def userAccess (entry : Word) : BitVec 1 := field entry 2 1

def pageSize (entry : Word) : BitVec 1 := field entry 7 1

/-- `address_31_12` -/
def tableFrame (entry : Word) : BitVec 20 := field entry 12 20

section Fields

variable (page physical user : Word)

theorem pageFrame_pdtEntryPageSetup :
    pageFrame (pdtEntryPageSetup page physical user) = physical.setWidth 10 := by
  simp [pageFrame, pdtEntryPageSetup]

theorem present_pdtEntryPageSetup :
    present (pdtEntryPageSetup page physical user) = 1 := by
  simp [present, pdtEntryPageSetup, field_setField_of_disjoint]

theorem userAccess_pdtEntryPageSetup :
    userAccess (pdtEntryPageSetup page physical user) = user.setWidth 1 := by
  simp [userAccess, pdtEntryPageSetup, field_setField_of_disjoint]

theorem pageSize_pdtEntryPageSetup :
    pageSize (pdtEntryPageSetup page physical user) = 1 := by
  simp [pageSize, pdtEntryPageSetup, field_setField_of_disjoint]

@[simp] theorem tableFrame_videoPageEntry (vidmemPt address : Word) :
    tableFrame (videoPageEntry vidmemPt address) = address.setWidth 20 := by
  simp [tableFrame, videoPageEntry]

end Fields

end LightweightOs
