import LightweightOs.System
import LightweightOs.UserStores

/-!
# The pointer check of vidmap

`vidmap` stores a four-byte address through its argument but checks only the
argument itself, and lets both ends of the user page through.  The four
addresses at the upper end are accepted although the store leaves the page and
faults.
-/

namespace LightweightOs

open Transition

/-- The four bytes from the address on lie in the user page. -/
def InUserPage (address : Word) : Prop :=
  ∀ i < 4, 0x8000000#32 ≤ address + BitVec.ofNat 32 i ∧
    address + BitVec.ofNat 32 i ≤ 0x83FFFFF#32

/-- The address passes the check of `vidmap`, and the bytes behind it do not all lie in
the page. -/
def AtPageEnd (address : Word) : Prop :=
  0x83FFFFD#32 ≤ address ∧ address ≤ 0x8400000#32

instance (address : Word) : Decidable (AtPageEnd address) :=
  inferInstanceAs (Decidable (_ ∧ _))

namespace Kernel

/-- The call changes nothing and returns -1, or stores `VID_MEM` in the user page and
returns 0. -/
structure ChecksPointer (s : Kernel) (frame : Frame) (locals : Locals)
    (screenStart : Word) : Prop where
  stores : ∃ next value store,
    s.vidmap frame locals screenStart = some (next, value, store) ∧
      (value = -1 ∧ next.pdt = s.pdt ∧ next.ptVidmap = s.ptVidmap ∧ store = none ∨
        value = 0 ∧ store = some ⟨screenStart, 0x8800000#32⟩ ∧ InUserPage screenStart)
  accepts : InUserPage screenStart →
    ∃ next store, s.vidmap frame locals screenStart = some (next, 0, store)

end Kernel

section Addresses

variable {address : Word}

theorem inUserPage_iff :
    InUserPage address ↔ 0x8000000#32 ≤ address ∧ address ≤ 0x83FFFFC#32 := by
  have bound := address.isLt
  simp only [InUserPage, BitVec.le_def, BitVec.toNat_add, BitVec.toNat_ofNat]
  constructor
  · intro inside
    have first := inside 0 (by decide)
    have last := inside 3 (by decide)
    omega
  · intro inside i less
    omega

/-- The two tests of `vidmap`. -/
def Refused (address : Word) : Prop :=
  address = 0 ∨ userStack < address ∨ address < userStack - 0x400000#32

theorem not_refused_iff :
    ¬Refused address ↔ 0x8000000#32 ≤ address ∧ address ≤ 0x8400000#32 := by
  have top : userStack.toNat = 0x8400000 := rfl
  have bottom : (userStack - 0x400000#32).toNat = 0x8000000 := rfl
  have zero : (0 : Word).toNat = 0 := rfl
  rw [Refused, ← BitVec.toNat_inj, BitVec.lt_def, BitVec.lt_def, BitVec.le_def,
    BitVec.le_def, top, bottom, zero]
  have low : (0x8000000#32).toNat = 0x8000000 := rfl
  have high : (0x8400000#32).toNat = 0x8400000 := rfl
  rw [low, high]
  omega

theorem InUserPage.not_refused (inside : InUserPage address) : ¬Refused address := by
  obtain ⟨low, high⟩ := inUserPage_iff.mp inside
  apply not_refused_iff.mpr
  have below : 0x83FFFFC#32 ≤ 0x8400000#32 := by decide
  exact ⟨low, BitVec.le_trans high below⟩

theorem inUserPage_of_not_refused (accepted : ¬Refused address) :
    InUserPage address ↔ ¬AtPageEnd address := by
  obtain ⟨low, high⟩ := not_refused_iff.mp accepted
  rw [inUserPage_iff, AtPageEnd]
  simp only [BitVec.le_def, BitVec.toNat_ofNat] at low high ⊢
  omega

theorem AtPageEnd.not_refused (atEnd : AtPageEnd address) : ¬Refused address := by
  apply not_refused_iff.mpr
  have above : 0x8000000#32 ≤ 0x83FFFFD#32 := by decide
  exact ⟨BitVec.le_trans above atEnd.1, atEnd.2⟩

theorem faultAddress_of_not_refused (accepted : ¬Refused address) (value : Word) :
    faultAddress address (wordBytes value) =
      if AtPageEnd address then some 0x8400000#32 else none := by
  obtain ⟨low, high⟩ := not_refused_iff.mp accepted
  simp only [BitVec.le_def, BitVec.toNat_ofNat] at low high
  have length : (wordBytes value).length = 4 := rfl
  by_cases behind : address = 0x8400000#32
  · rw [behind, if_pos (by decide)]
    exact List.find?_cons_of_pos (by decide)
  · have different : address.toNat ≠ 0x8400000 := fun same =>
      behind (BitVec.eq_of_toNat_eq same)
    have on : OnUserPage address := ⟨by omega, by omega⟩
    have atEnd : AtPageEnd address ↔ ¬address.toNat + 4 ≤ 0x8400000 := by
      simp only [AtPageEnd, BitVec.le_def, BitVec.toNat_ofNat]
      omega
    rw [faultAddress_of_onUserPage on, length, if_congr atEnd rfl rfl, ite_not]

end Addresses

namespace Kernel

variable {s : Kernel} {frame : Frame} {base : Word}

theorem vidmap_refused (found : getBaseProcessPcb s.pcb (currentPcb frame.esp) = some base)
    (locals : Locals) {screenStart : Word} (refused : Refused screenStart) :
    s.vidmap frame locals screenStart = some (s, -1, none) := by
  rw [vidmap, found, Option.map_some]
  by_cases isNull : screenStart = 0
  · simp only [if_pos isNull]
  · have outside := refused.resolve_left isNull
    simp only [if_neg isNull, if_pos outside]

theorem vidmap_accepted (found : getBaseProcessPcb s.pcb (currentPcb frame.esp) = some base)
    (locals : Locals) {screenStart : Word} (accepted : ¬Refused screenStart) :
    s.vidmap frame locals screenStart =
      some (s.mapVideo locals (s.pcb base).processId, 0, some ⟨screenStart, vidMem⟩) := by
  rw [Refused, not_or] at accepted
  rw [vidmap, found, Option.map_some]
  simp only [if_neg accepted.1, if_neg accepted.2]
  rfl

theorem checksPointer_iff
    (found : getBaseProcessPcb s.pcb (currentPcb frame.esp) = some base) (locals : Locals)
    (screenStart : Word) :
    s.ChecksPointer frame locals screenStart ↔ ¬AtPageEnd screenStart := by
  by_cases refused : Refused screenStart
  · have result := vidmap_refused found locals refused
    constructor
    · intro _ atEnd
      exact atEnd.not_refused refused
    · intro _
      constructor
      case stores => exact ⟨s, -1, none, result, .inl ⟨rfl, rfl, rfl, rfl⟩⟩
      case accepts => exact fun inside => (inside.not_refused refused).elim
  · have result := vidmap_accepted found locals refused
    rw [← inUserPage_of_not_refused refused]
    constructor
    · rintro ⟨⟨next, value, store, returns, unchanged | stored⟩, _⟩
      · rw [result, unchanged.1] at returns
        cases returns
      · exact stored.2.2
    · intro inside
      constructor
      case stores => exact ⟨_, 0, _, result, .inr ⟨rfl, rfl, inside⟩⟩
      case accepts => exact fun _ => ⟨_, _, result⟩

end Kernel

/-- The addresses that pass the check and leave the page are those at which the call does
not return. -/
theorem vidmapEnding_eq_pageFault {start s : Kernel} {history : List Record}
    (booted : Booted start) (run : Run Step start history s) {frame : Frame}
    (on : frame.On s) (locals : Locals) (screenStart : Word) :
    s.vidmapEnding frame locals screenStart = some (.pageFault 0x8400000#32) ↔
      AtPageEnd screenStart := by
  obtain ⟨a, _, represents⟩ := booted.run run
  obtain ⟨found, _⟩ := represents.base on.esp
  by_cases refused : Refused screenStart
  · have notAtEnd : ¬AtPageEnd screenStart := fun atEnd => atEnd.not_refused refused
    rw [Kernel.vidmapEnding, Kernel.vidmap_refused found locals refused]
    simp [notAtEnd]
  · rw [Kernel.vidmapEnding, Kernel.vidmap_accepted found locals refused]
    simp only [Option.map_some, Option.bind_some, faultAddress_of_not_refused refused]
    by_cases atEnd : AtPageEnd screenStart
    · simp [atEnd]
    · simp [atEnd]

theorem vidmap_pointer {start s : Kernel} {history : List Record} (booted : Booted start)
    (run : Run Step start history s) {frame : Frame} (on : frame.On s) (locals : Locals)
    (screenStart : Word) :
    s.ChecksPointer frame locals screenStart ↔ ¬AtPageEnd screenStart := by
  obtain ⟨a, _, represents⟩ := booted.run run
  obtain ⟨found, _⟩ := represents.base on.esp
  exact Kernel.checksPointer_iff found locals screenStart

/-- The first shell calls `vidmap` with the first address of its page. -/
theorem vidmap_pointer_sampleStart :
    sampleStart.ChecksPointer (sampleFrame 1) sampleLocals 0x8000000#32 :=
  (vidmap_pointer sampleStart_booted .nil (by decide) sampleLocals 0x8000000#32).mpr
    (by decide)

/-- The first shell passes the end of its page. -/
theorem vidmap_stores_outside :
    ¬∀ start s history frame locals screenStart, Booted start → Run Step start history s →
      frame.On s → s.ChecksPointer frame locals screenStart := by
  intro checks
  have onStack : (sampleFrame 1).On sampleStart := by decide
  obtain ⟨found, _⟩ := sampleStart_booted.represents.base onStack.esp
  have atEnd := (Kernel.checksPointer_iff found sampleLocals 0x8400000#32).mp
    (checks _ _ [] _ _ _ sampleStart_booted .nil onStack)
  exact atEnd (by decide)

end LightweightOs
