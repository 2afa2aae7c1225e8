import LightweightOs.VidmapPointer

/-!
# The words of the page tables

Each entry is built in a local variable that nothing initialises, and no builder
assigns all of its members.  The members that are left out keep what the stack
held: in 4MB entries these include eight address bits, and in the directory
entry of `vidmap` the page-size bit.
-/

namespace LightweightOs

open Transition BitField

/-- `set_pt_entry` -/
def setPtEntry (ptentry : Word) (user offset : Word) : Word :=
  let ptentry := setField ptentry 0 1#1                 -- p
  let ptentry := setField ptentry 1 1#1                 -- rw
  let ptentry := setField ptentry 2 (user.setWidth 1)   -- us
  let ptentry := setField ptentry 3 0#1                 -- pwt
  let ptentry := setField ptentry 4 0#1                 -- pcd
  let ptentry := setField ptentry 5 0#1                 -- a
  let ptentry := setField ptentry 6 0#1                 -- d
  let ptentry := setField ptentry 7 0#1                 -- pat
  let ptentry := setField ptentry 8 0#1                 -- g
  setField ptentry 12 ((0xB8#32 + offset).setWidth 20)  -- address_31_12

/-- The directory entry for the first 4MB, whose page table is in the frame `pt0`. -/
def firstTableEntry (firstMb : Word) (pt0 : BitVec 20) : Word :=
  let firstMb := setField firstMb 0 1#1                 -- p
  let firstMb := setField firstMb 1 1#1                 -- rw
  let firstMb := setField firstMb 2 0#1                 -- us
  let firstMb := setField firstMb 3 0#1                 -- pwt
  let firstMb := setField firstMb 4 0#1                 -- pcd
  let firstMb := setField firstMb 5 0#1                 -- a
  let firstMb := setField firstMb 7 0#1                 -- ps
  setField firstMb 12 pt0                               -- address

/-- What the stack holds in place of the locals of `setup_kernel_paging`. -/
structure KernelLocals where
  kernalPage : Word
  firstMb : Word
  videoMemoryPage : Word
  videoMemoryPage1 : Word
  videoMemoryPage2 : Word
  videoMemoryPage3 : Word

/-- The page directory and the page table of the first 4MB. -/
structure KernelTables where
  pdt : Nat → Word
  pt0 : Nat → Word

/-- `setup_kernel_paging`, with the address of `pt0`. -/
def KernelTables.setupKernelPaging (tables : KernelTables) (pt0 : Word)
    (locals : KernelLocals) : KernelTables :=
  let pdt := assign tables.pdt 1 (pdtEntryPageSetup locals.kernalPage 1 0)
  let pdt := assign pdt 0 (firstTableEntry locals.firstMb ((pt0 >>> 12).setWidth 20))
  let table := assign tables.pt0 0xB8 (setPtEntry locals.videoMemoryPage 0 0)
  let table := assign table (0xB8 + 1) (setPtEntry locals.videoMemoryPage1 0 1)
  let table := assign table (0xB8 + 2) (setPtEntry locals.videoMemoryPage2 0 2)
  let table := assign table (0xB8 + 3) (setPtEntry locals.videoMemoryPage3 0 3)
  { pdt := pdt, pt0 := table }

/-- An entry by the frame and the access rights it is meant to have. -/
inductive PagingEntry where
  /-- `pdt[32]`: the page of a process. -/
  | userPage (pid : Int)
  /-- `pdt[1]` -/
  | kernelPage
  /-- `pdt[0]` -/
  | firstTable (pt0 : BitVec 20)
  /-- `pt0[0xB8 + offset]` -/
  | videoPage (offset : Word)
  /-- `pdt[34]` -/
  | vidmapTable (ptVidmap : BitVec 20)
  /-- `pt_vidmap[0]` -/
  | vidmapPage (address : Word)

namespace PagingEntry

/-- The word that the entry's builder makes of a local that holds `prior`. -/
def word : PagingEntry → Word → Word
  | .userPage pid, prior => pdtEntryPageSetup prior (BitVec.ofInt 32 (pid + 1)) 1
  | .kernelPage, prior => pdtEntryPageSetup prior 1 0
  | .firstTable pt0, prior => firstTableEntry prior pt0
  | .videoPage offset, prior => setPtEntry prior 0 offset
  | .vidmapTable ptVidmap, prior => vidmapTableEntry prior ptVidmap
  | .vidmapPage address, prior => videoPageEntry prior address

/-- The entry points to a page table. -/
def PointsToTable : PagingEntry → Prop
  | .firstTable _ | .vidmapTable _ => True
  | .userPage _ | .kernelPage | .videoPage _ | .vidmapPage _ => False

/-- The entry maps a page of 4MB. -/
def MapsLargePage : PagingEntry → Prop
  | .userPage _ | .kernelPage => True
  | .firstTable _ | .videoPage _ | .vidmapTable _ | .vidmapPage _ => False

/-- The bits of the members that the builder does not assign. -/
def unassigned : PagingEntry → Word
  -- avl and address_13_20
  | .userPage _ | .kernelPage => 0x1FEE00#32
  -- avl_6 and avl_8_11
  | .firstTable _ => 0xF40#32
  -- avl
  | .videoPage _ => 0xE00#32
  -- everything between us and address
  | .vidmapTable _ | .vidmapPage _ => 0xFF8#32

end PagingEntry

/-- `address_13_20` -/
def highAddress (entry : Word) : BitVec 8 := field entry 13 8

/-- A call has installed the word for an entry, built in a local that held `prior`. -/
inductive Installs : PagingEntry → (prior word : Word) → Prop where
  | execute {s next : Kernel} {frame : Frame} {locals : Locals} {command : Nat → Byte}
      {started : Started}
      (starts : s.execute frame locals command = some (.starts started next)) :
      Installs (.userPage started.pid) locals.newPage (next.pdt 32)
  | halt {s next : Kernel} {frame inner : Frame} {locals : Locals} {status : Word}
      {after : Nat → Byte} {parentEbp value : Word}
      (resumes : s.halt frame inner locals status after =
        some (.resumes parentEbp value next)) :
      Installs (.userPage (s.pcb (s.pcb (currentPcb frame.esp)).parentPcb).processId)
        locals.newPage (next.pdt 32)
  | pitPage {s next : Kernel} {frame : Frame} {locals : Locals} {schedEbp top : Word}
      (switches : s.pitHandler frame locals = some (.switches schedEbp next))
      (found : getTopProcessPcb s.pcb (pcbAddr next.curProcess) = some top) :
      Installs (.userPage (s.pcb top).processId) locals.newPage (next.pdt 32)
  | pitVideo {s next : Kernel} {frame : Frame} {locals : Locals} {schedEbp : Word}
      (switches : s.pitHandler frame locals = some (.switches schedEbp next)) :
      Installs (.vidmapPage next.pitVideoAddress) locals.vidmemPt (next.ptVidmap 0)
  | vidmapTable {s next : Kernel} {frame : Frame} {locals : Locals} {screenStart : Word}
      {store : Option UserStore}
      (maps : s.vidmap frame locals screenStart = some (next, 0, store)) :
      Installs (.vidmapTable s.ptVidmapFrame) locals.vidmem (next.pdt vidPdtIdx)
  | vidmapPage {s next : Kernel} {frame : Frame} {locals : Locals} {screenStart base : Word}
      {store : Option UserStore}
      (maps : s.vidmap frame locals screenStart = some (next, 0, store))
      (found : getBaseProcessPcb s.pcb (currentPcb frame.esp) = some base) :
      Installs (.vidmapPage (s.vidmapAddress (s.pcb base).processId)) locals.vidmemPt
        (next.ptVidmap 0)
  | kernelPage (tables : KernelTables) (pt0 : Word) (locals : KernelLocals) :
      Installs .kernelPage locals.kernalPage ((tables.setupKernelPaging pt0 locals).pdt 1)
  | firstTable (tables : KernelTables) (pt0 : Word) (locals : KernelLocals) :
      Installs (.firstTable ((pt0 >>> 12).setWidth 20)) locals.firstMb
        ((tables.setupKernelPaging pt0 locals).pdt 0)
  | videoPage (tables : KernelTables) (pt0 : Word) (locals : KernelLocals) :
      Installs (.videoPage 0) locals.videoMemoryPage
        ((tables.setupKernelPaging pt0 locals).pt0 0xB8)
  | videoPage1 (tables : KernelTables) (pt0 : Word) (locals : KernelLocals) :
      Installs (.videoPage 1) locals.videoMemoryPage1
        ((tables.setupKernelPaging pt0 locals).pt0 0xB9)
  | videoPage2 (tables : KernelTables) (pt0 : Word) (locals : KernelLocals) :
      Installs (.videoPage 2) locals.videoMemoryPage2
        ((tables.setupKernelPaging pt0 locals).pt0 0xBA)
  | videoPage3 (tables : KernelTables) (pt0 : Word) (locals : KernelLocals) :
      Installs (.videoPage 3) locals.videoMemoryPage3
        ((tables.setupKernelPaging pt0 locals).pt0 0xBB)

/-- Two words installed for one entry are the same, and the bits that decide what the
entry maps are as intended. -/
structure Determined (entry : PagingEntry) (word other : Word) : Prop where
  same : word = other
  tables : entry.PointsToTable → pageSize word = 0
  pages : entry.MapsLargePage → highAddress word = 0

/-- The two locals agree on the members that are not assigned, and these hold zero where
the processor looks at them. -/
structure CleanLocals (entry : PagingEntry) (prior other : Word) : Prop where
  agree : prior &&& entry.unassigned = other &&& entry.unassigned
  tables : ∀ ptVidmap, entry = .vidmapTable ptVidmap → pageSize prior = 0
  pages : entry.MapsLargePage → highAddress prior = 0

/-- The assignments of `pdt_entry_page_setup`. -/
def largePageMembers (physical user : Word) : List Member :=
  [⟨0, 1, 1⟩, ⟨1, 1, 1⟩, ⟨2, 1, user.setWidth 1⟩, ⟨3, 1, 0⟩, ⟨4, 1, 0⟩, ⟨5, 1, 0⟩,
    ⟨6, 1, 0⟩, ⟨7, 1, 1⟩, ⟨8, 1, 0⟩, ⟨12, 1, 0⟩, ⟨21, 1, 0⟩, ⟨22, 10, physical.setWidth 10⟩]

namespace PagingEntry

/-- The assignments of the entry's builder. -/
def members : PagingEntry → List Member
  | .userPage pid => largePageMembers (BitVec.ofInt 32 (pid + 1)) 1
  | .kernelPage => largePageMembers 1 0
  | .firstTable pt0 =>
      [⟨0, 1, 1⟩, ⟨1, 1, 1⟩, ⟨2, 1, 0⟩, ⟨3, 1, 0⟩, ⟨4, 1, 0⟩, ⟨5, 1, 0⟩, ⟨7, 1, 0⟩,
        ⟨12, 20, pt0⟩]
  | .videoPage offset =>
      [⟨0, 1, 1⟩, ⟨1, 1, 1⟩, ⟨2, 1, (0 : Word).setWidth 1⟩, ⟨3, 1, 0⟩, ⟨4, 1, 0⟩,
        ⟨5, 1, 0⟩, ⟨6, 1, 0⟩, ⟨7, 1, 0⟩, ⟨8, 1, 0⟩,
        ⟨12, 20, (0xB8#32 + offset).setWidth 20⟩]
  | .vidmapTable ptVidmap => [⟨0, 1, 1⟩, ⟨2, 1, 1⟩, ⟨1, 1, 1⟩, ⟨12, 20, ptVidmap⟩]
  | .vidmapPage address => [⟨0, 1, 1⟩, ⟨2, 1, 1⟩, ⟨1, 1, 1⟩, ⟨12, 20, address.setWidth 20⟩]

theorem word_eq_assemble (entry : PagingEntry) (prior : Word) :
    entry.word prior = assemble prior entry.members := by
  cases entry <;> rfl

theorem unassigned_iff (entry : PagingEntry) :
    ∀ index < 32, (¬Covers entry.members index ↔ entry.unassigned.getLsbD index = true) := by
  cases entry <;>
    simp only [covers_iff_places, members, largePageMembers, unassigned, List.map_cons,
      List.map_nil] <;>
    decide

theorem word_eq_iff (entry : PagingEntry) (prior other : Word) :
    entry.word prior = entry.word other ↔
      prior &&& entry.unassigned = other &&& entry.unassigned := by
  rw [word_eq_assemble, word_eq_assemble, assemble_eq_iff]
  constructor
  · intro agree
    apply BitVec.eq_of_getLsbD_eq
    intro index inside
    rw [BitVec.getLsbD_and, BitVec.getLsbD_and]
    cases free : entry.unassigned.getLsbD index with
    | false => rw [Bool.and_false, Bool.and_false]
    | true => rw [agree index inside ((entry.unassigned_iff index inside).mpr free)]
  · intro same index inside outside
    have free := (entry.unassigned_iff index inside).mp outside
    have bit := congrArg (fun word => word.getLsbD index) same
    rwa [BitVec.getLsbD_and, BitVec.getLsbD_and, free, Bool.and_true, Bool.and_true] at bit

/-- The page-size bit of an entry for a page table: `vidmap` leaves it as it was. -/
theorem pageSize_word (entry : PagingEntry) (prior : Word) :
    (entry.PointsToTable → pageSize (entry.word prior) = 0) ↔
      ∀ ptVidmap, entry = .vidmapTable ptVidmap → pageSize prior = 0 := by
  cases entry with
  | firstTable pt0 =>
      have cleared : pageSize (firstTableEntry prior pt0) = 0 := by
        simp [pageSize, firstTableEntry, field_setField_of_disjoint]
      apply iff_of_true (fun _ => cleared)
      intro ptVidmap other
      cases other
  | vidmapTable ptVidmap =>
      have kept : pageSize (vidmapTableEntry prior ptVidmap) = pageSize prior := by
        simp [pageSize, vidmapTableEntry, field_setField_of_disjoint]
      simp only [word, PointsToTable, kept, true_implies, vidmapTable.injEq, forall_eq']
  | userPage _ | kernelPage | videoPage _ | vidmapPage _ =>
      apply iff_of_true False.elim
      intro ptVidmap other
      cases other

theorem highAddress_pdtEntryPageSetup (page physical user : Word) :
    highAddress (pdtEntryPageSetup page physical user) = highAddress page := by
  simp [highAddress, pdtEntryPageSetup, field_setField_of_disjoint]

/-- The builder of 4MB entries leaves eight address bits as they were. -/
theorem highAddress_word {entry : PagingEntry} (large : entry.MapsLargePage)
    (prior : Word) : highAddress (entry.word prior) = highAddress prior := by
  cases entry with
  | userPage pid => exact highAddress_pdtEntryPageSetup _ _ _
  | kernelPage => exact highAddress_pdtEntryPageSetup _ _ _
  | firstTable _ | videoPage _ | vidmapTable _ | vidmapPage _ => exact large.elim

end PagingEntry

/-- `execute` changes the page directory by installing the page of the process it
starts. -/
theorem Kernel.execute_userEntry {s next : Kernel} {frame : Frame} {locals : Locals}
    {command : Nat → Byte} {started : Started}
    (starts : s.execute frame locals command = some (.starts started next)) :
    next.pdt = assign s.pdt 32 ((PagingEntry.userPage started.pid).word locals.newPage) := by
  rcases execute_cases starts with
    other | ⟨choice, rfl, ⟨_, _, _, other⟩ | ⟨program, isStart⟩⟩
  · cases other
  · cases other
  · cases isStart
    rfl

theorem Installs.word_eq {entry : PagingEntry} {prior word : Word}
    (installs : Installs entry prior word) : word = entry.word prior := by
  cases installs with
  | execute starts => rw [Kernel.execute_userEntry starts, assign_self]
  | @halt s next frame inner locals status after parentEbp value resumes =>
      simp only [Kernel.halt] at resumes
      split at resumes
      · split at resumes <;> cases resumes
      · cases resumes
        simp only [Kernel.haltAux, assign_self, closeProcess_processId,
          closeProcess_parentPcb]
        rfl
  | pitPage switches found =>
      rcases Kernel.pitHandler_cases switches with ⟨_, other⟩ | ⟨t, top, _, _, isTop, result⟩
      · cases other
      · cases result
        cases Option.some.inj (found.symm.trans isTop)
        simp only [Kernel.switchTo, assign_self, saveSched_processId]
        rfl
  | pitVideo switches =>
      rcases Kernel.pitHandler_cases switches with ⟨_, other⟩ | ⟨t, top, _, _, _, result⟩
      · cases other
      · cases result
        simp only [Kernel.switchTo, assign_self]
        rfl
  | vidmapTable maps =>
      rcases Kernel.vidmap_cases maps with ⟨_, failed⟩ | ⟨base, _, rfl, _⟩
      · cases failed
      · simp only [Kernel.mapVideo, assign_self]
        rfl
  | vidmapPage maps found =>
      rcases Kernel.vidmap_cases maps with ⟨_, failed⟩ | ⟨base, isBase, rfl, _⟩
      · cases failed
      · cases Option.some.inj (found.symm.trans isBase)
        simp only [Kernel.mapVideo, assign_self]
        rfl
  | kernelPage tables pt0 locals => rfl
  | firstTable tables pt0 locals => rfl
  | videoPage tables pt0 locals => rfl
  | videoPage1 tables pt0 locals => rfl
  | videoPage2 tables pt0 locals => rfl
  | videoPage3 tables pt0 locals => rfl

/-- A word of a page table is as before, or a call has just installed it. -/
def InstalledOrKept (word next : Word) : Prop :=
  next = word ∨ ∃ entry prior, Installs entry prior next

theorem installedOrKept_assign {table : Nat → Word} {index : Nat} {word : Word}
    {entry : PagingEntry} {prior : Word}
    (installs : Installs entry prior (assign table index word index)) (slot : Nat) :
    InstalledOrKept (table slot) (assign table index word slot) := by
  by_cases here : slot = index
  · rw [here]
    exact .inr ⟨entry, prior, installs⟩
  · exact .inl (assign_of_ne here _ _)

/-- `execute` leaves the page directory alone unless it starts a process. -/
theorem Kernel.execute_installs {s : Kernel} {frame : Frame} {locals : Locals}
    {command : Nat → Byte} {result : ExecuteResult}
    (executes : s.execute frame locals command = some result) (slot : Nat) :
    InstalledOrKept (s.pdt slot) (result.next.pdt slot) := by
  cases result with
  | returns value next =>
      left
      rcases execute_cases executes with
        isNext | ⟨choice, _, ⟨_, written, writes, isNext⟩ | ⟨program, isNext⟩⟩
      · cases isNext
        rfl
      · cases isNext
        obtain ⟨_, _, rfl⟩ := Option.map_eq_some_iff.mp writes
        rfl
      · cases isNext
  | starts started next =>
      have changed := execute_userEntry executes
      have installs := Installs.execute executes
      change InstalledOrKept _ (next.pdt slot)
      rw [changed] at installs ⊢
      exact installedOrKept_assign installs slot

theorem Kernel.halt_installs {s : Kernel} {frame inner : Frame} {locals : Locals}
    {status : Word} {after : Nat → Byte} {result : HaltResult}
    (halts : s.halt frame inner locals status after = some result) (slot : Nat) :
    InstalledOrKept (s.pdt slot) (result.next.pdt slot) := by
  have halted := halts
  simp only [halt] at halts
  split at halts
  · split at halts
    case h_1 executes =>
      cases halts
      exact execute_installs executes slot
    case h_2 => cases halts
  · cases halts
    exact installedOrKept_assign (Installs.halt halted) slot

theorem Kernel.keyboardHandler_installs {s : Kernel} {frame inner : Frame}
    {locals : Locals} {scanCode : Byte} {after : Nat → Byte} {result : KeyResult}
    (handles : s.keyboardHandler frame inner locals scanCode after = some result)
    (slot : Nat) : InstalledOrKept (s.pdt slot) (result.next.pdt slot) := by
  simp only [keyboardHandler] at handles
  split at handles
  · cases handles
  · split at handles
    · cases handles
      exact .inl rfl
    · split at handles
      · cases handles
        exact .inl rfl
      · simp only [bootTerminal] at handles
        split at handles
        case h_1 executes =>
          cases handles
          exact execute_installs executes slot
        case h_2 => cases handles

theorem Kernel.pitHandler_installs {s : Kernel} {frame : Frame} {locals : Locals}
    {result : PitResult} (ticks : s.pitHandler frame locals = some result) (slot : Nat) :
    InstalledOrKept (s.pdt slot) (result.next.pdt slot) ∧
      InstalledOrKept (s.ptVidmap slot) (result.next.ptVidmap slot) := by
  rcases pitHandler_cases ticks with ⟨_, rfl⟩ | ⟨t, top, _, _, found, rfl⟩
  · exact ⟨.inl rfl, .inl rfl⟩
  · exact ⟨installedOrKept_assign (Installs.pitPage ticks found) slot,
      installedOrKept_assign (Installs.pitVideo ticks) slot⟩

theorem Kernel.vidmap_installs {s next : Kernel} {frame : Frame} {locals : Locals}
    {screenStart : Word} {value : Int} {store : Option UserStore}
    (maps : s.vidmap frame locals screenStart = some (next, value, store)) (slot : Nat) :
    InstalledOrKept (s.pdt slot) (next.pdt slot) ∧
      InstalledOrKept (s.ptVidmap slot) (next.ptVidmap slot) := by
  rcases vidmap_cases maps with ⟨rfl, _⟩ | ⟨base, found, rfl, rfl⟩
  · exact ⟨.inl rfl, .inl rfl⟩
  · exact ⟨installedOrKept_assign (Installs.vidmapTable maps) slot,
      installedOrKept_assign (Installs.vidmapPage maps found) slot⟩

/-- Every word that a step changes in the page tables is installed by one of the
calls. -/
theorem Step.installs {s next : Kernel} {record : Record} (step : Step s record next)
    (slot : Nat) :
    InstalledOrKept (s.pdt slot) (next.pdt slot) ∧
      InstalledOrKept (s.ptVidmap slot) (next.ptVidmap slot) := by
  obtain ⟨before, event, outcome⟩ := record
  obtain ⟨_, _, taken⟩ := step
  dsimp only at taken
  cases event with
  | execute frame locals commandUser =>
      obtain ⟨result, executes, isNext⟩ := Option.map_eq_some_iff.mp taken
      have kept := (Kernel.execute_keepsDevices executes).ptVidmap
      have installed := Kernel.execute_installs executes slot
      cases result <;> cases isNext <;> exact ⟨installed, .inl (congrFun kept slot)⟩
  | halt frame inner locals status after =>
      obtain ⟨result, halts, isNext⟩ := Option.map_eq_some_iff.mp taken
      have kept := (Kernel.halt_keepsDevices halts).ptVidmap
      have installed := Kernel.halt_installs halts slot
      cases result <;> cases isNext <;> exact ⟨installed, .inl (congrFun kept slot)⟩
  | pit frame locals =>
      obtain ⟨result, ticks, isNext⟩ := Option.map_eq_some_iff.mp taken
      have installed := Kernel.pitHandler_installs ticks slot
      cases result <;> cases isNext <;> exact installed
  | key frame inner locals scanCode after =>
      obtain ⟨result, handles, isNext⟩ := Option.map_eq_some_iff.mp taken
      have kept := (Kernel.keyboardHandler_keepsDevices handles).ptVidmap
      have installed := Kernel.keyboardHandler_installs handles slot
      cases result <;> cases isNext <;> exact ⟨installed, .inl (congrFun kept slot)⟩
  | vidmap frame locals screenStart =>
      obtain ⟨⟨mapped, value, store⟩, maps, isNext⟩ := Option.map_eq_some_iff.mp taken
      cases isNext
      exact Kernel.vidmap_installs maps slot
  | terminalWrite frame input =>
      obtain ⟨written, writes, isNext⟩ := Option.map_eq_some_iff.mp taken
      cases isNext
      obtain ⟨_, _, rfl⟩ := Option.map_eq_some_iff.mp writes
      exact ⟨.inl rfl, .inl rfl⟩
  | readStart bytes =>
      simp only [Kernel.step] at taken
      split at taken <;> cases taken <;> exact ⟨.inl rfl, .inl rfl⟩
  | readLine bytes =>
      cases taken
      exact ⟨.inl rfl, .inl rfl⟩
  | rtcWrite frequency =>
      cases taken
      exact ⟨.inl rfl, .inl rfl⟩
  | rtc =>
      obtain ⟨ticked, _, isNext⟩ := Option.map_eq_some_iff.mp taken
      cases isNext
      exact ⟨.inl rfl, .inl rfl⟩

theorem paging_entries {entry : PagingEntry} {prior word other result : Word}
    (first : Installs entry prior word) (second : Installs entry other result) :
    Determined entry word result ↔ CleanLocals entry prior other := by
  rw [first.word_eq, second.word_eq]
  have same := entry.word_eq_iff prior other
  have tables := entry.pageSize_word prior
  constructor
  · intro determined
    constructor
    case agree => exact same.mp determined.same
    case tables => exact tables.mp determined.tables
    case pages =>
      intro large
      rw [← PagingEntry.highAddress_word large]
      exact determined.pages large
  · intro clean
    constructor
    case same => exact same.mpr clean.agree
    case tables => exact tables.mpr clean.tables
    case pages =>
      intro large
      rw [PagingEntry.highAddress_word large]
      exact clean.pages large

theorem sampleVidmapTable (vidmem : Word) :
    Installs (.vidmapTable sampleStart.ptVidmapFrame) vidmem
      (vidmapTableEntry vidmem sampleStart.ptVidmapFrame) := by
  have onStack : (sampleFrame 1).On sampleStart := by decide
  obtain ⟨found, _⟩ := sampleStart_booted.represents.base onStack.esp
  exact Installs.vidmapTable (Kernel.vidmap_accepted found { sampleLocals with vidmem := vidmem }
    (show ¬Refused 0x8000000#32 by rw [not_refused_iff]; decide))

/-- The reserved members of the local are zero in one run and one in another. -/
theorem paging_entries_sampleVidmap :
    Determined (.vidmapTable sampleStart.ptVidmapFrame)
      (vidmapTableEntry 0 sampleStart.ptVidmapFrame)
      (vidmapTableEntry 0xFFFFF007#32 sampleStart.ptVidmapFrame) := by
  apply (paging_entries (sampleVidmapTable 0) (sampleVidmapTable 0xFFFFF007#32)).mpr
  exact ⟨by decide, fun _ _ => by decide, False.elim⟩

/-- Whether the entry maps a page of 4MB is up to what was on the stack. -/
theorem paging_entries_dirtyStack :
    ¬∀ entry prior other word result, Installs entry prior word →
      Installs entry other result → Determined entry word result := by
  intro determined
  have same := (determined _ _ _ _ _ (sampleVidmapTable 0) (sampleVidmapTable 0x80#32)).same
  exact absurd same (by decide)

end LightweightOs
