import LightweightOs.PageTableOps
import LightweightOs.PointerStores

/-!
# Address translation

What the processor makes of the page tables while processes come and go.  The
address space the kernel means a process to run in has four parts: the text
pages and the kernel, each at its own address and for the kernel only, the page
of the process at 128MB, and the video page once any process has called
`vidmap`.
-/

namespace LightweightOs

open PageWalk BitField Transition

/-- The address space of the process `pid`, with the frame of the video page if there
is one. -/
def addressMap (pid : Int) (video : Option (BitVec 20)) (linear : Word) : Option Target :=
  let address := linear.toNat
  if 0xB8000 ≤ address ∧ address < 0xBC000 then
    some { physical := address, user := false, writable := true }
  else if 0x400000 ≤ address ∧ address < 0x800000 then
    some { physical := address, user := false, writable := true }
  else if 0x8000000 ≤ address ∧ address < 0x8400000 then
    some
      { physical := (userFrame pid).toNat * 0x400000 + (address - 0x8000000)
        user := true
        writable := true }
  else if 0x8800000 ≤ address ∧ address < 0x8801000 then
    video.map fun frame =>
      { physical := frame.toNat * 0x1000 + (address - 0x8800000)
        user := true
        writable := true }
  else none

structure PagedKernel where
  kernel : Kernel
  mmu : Mmu

/-- The event that an action is. -/
def MemoryAction.event? : MemoryAction → Option Event
  | .act (.event event) _ => some event
  | .act _ _ | .getargs _ _ _ => none

/-- The stores and flushes of an action; only events have any. -/
def Kernel.actionOps (s : Kernel) (action : MemoryAction) : List TableOp :=
  match action.event? with
  | some event => s.tableOps event
  | none => []

/-- A system call or an interrupt that leaves the kernel's page alone but for the kernel's
own variables, and what the MMU does in it, before it and after it. -/
structure PagedStep (frames : TableFrames) (m : PagedKernel)
    (event : MemoryEntry × List MmuEvent) (next : PagedKernel) : Prop where
  step : ActsOutside m.kernel event.1 next.kernel
  carries : Carries event.2
    ((m.kernel.actionOps event.1.action).map (TableOp.action frames))
  runs : Run Mmu.Step m.mmu event.2 next.mmu

/-- Where an entry keeps bits of the stack, the processor finds zeros: the address bits
from 32 on of a 4MB page, and the page-size bit of the entry for `pt_vidmap`. -/
def CleanStack (action : MemoryAction) : Prop :=
  ∀ event ∈ action.event?, ∀ locals ∈ event.locals?,
    highAddress locals.newPage = 0 ∧ pageSize locals.vidmem = 0

/-- The entry is a `vidmap` call that returns 0. -/
def MemoryEntry.vidmaps (entry : MemoryEntry) : Bool :=
  match entry.action.event?, entry.reply with
  | some event, .event outcome => (⟨entry.before, event, outcome⟩ : Record).vidmaps
  | _, _ => false

structure LargeEntry (entry : Word) (frame : BitVec 10) (user : Bool) : Prop where
  present : isPresent entry = true
  large : isLarge entry = true
  valid : isReserved entry = false
  base : largeBase entry = frame.toNat * 0x400000
  user : isUser entry = user
  writable : isWritable entry = true

/-- An entry for a page of 4KB. -/
structure SmallEntry (entry : Word) (frame : BitVec 20) (user : Bool) : Prop where
  present : isPresent entry = true
  frame : smallFrame entry = frame
  user : isUser entry = user
  writable : isWritable entry = true

/-- An entry for a page table. -/
structure TableEntry (entry : Word) (frame : BitVec 20) (user : Bool) : Prop
    extends SmallEntry entry frame user where
  small : isLarge entry = false

theorem largeEntry_pdtEntryPageSetup {page : Word} (clean : highAddress page = 0)
    (physical user : Word) :
    LargeEntry (pdtEntryPageSetup page physical user) (physical.setWidth 10)
      (user.setWidth 1 = 1#1) where
  present := by simp [isPresent, pdtEntryPageSetup, field_setField_of_disjoint]
  large := by simp [isLarge, pdtEntryPageSetup, field_setField_of_disjoint]
  valid := by simp [isReserved, pdtEntryPageSetup, field_setField_of_disjoint]
  base := by
    have high : field (pdtEntryPageSetup page physical user) 13 8 = 0 :=
      (PagingEntry.highAddress_pdtEntryPageSetup page physical user).trans clean
    have low : field (pdtEntryPageSetup page physical user) 22 10 = physical.setWidth 10 :=
      pageFrame_pdtEntryPageSetup page physical user
    rw [largeBase, high, low]
    exact Nat.zero_add _
  user := by simp [isUser, pdtEntryPageSetup, field_setField_of_disjoint]
  writable := by simp [isWritable, pdtEntryPageSetup, field_setField_of_disjoint]

theorem tableEntry_firstTableEntry (firstMb : Word) (pt0 : BitVec 20) :
    TableEntry (firstTableEntry firstMb pt0) pt0 false where
  present := by simp [isPresent, firstTableEntry, field_setField_of_disjoint]
  frame := by simp [smallFrame, firstTableEntry]
  user := by simp [isUser, firstTableEntry, field_setField_of_disjoint]
  writable := by simp [isWritable, firstTableEntry, field_setField_of_disjoint]
  small := by simp [isLarge, firstTableEntry, field_setField_of_disjoint]

theorem tableEntry_vidmapTableEntry {vidmem : Word} (clean : pageSize vidmem = 0)
    (frame : BitVec 20) : TableEntry (vidmapTableEntry vidmem frame) frame true where
  present := by simp [isPresent, vidmapTableEntry, field_setField_of_disjoint]
  frame := by simp [smallFrame, vidmapTableEntry]
  user := by simp [isUser, vidmapTableEntry, field_setField_of_disjoint]
  writable := by simp [isWritable, vidmapTableEntry, field_setField_of_disjoint]
  small := by
    have cleared : field vidmem 7 1 = 0 := clean
    simp [isLarge, vidmapTableEntry, field_setField_of_disjoint, cleared]

theorem smallEntry_videoPageEntry (vidmemPt address : Word) :
    SmallEntry (videoPageEntry vidmemPt address) (address.setWidth 20) true where
  present := by simp [isPresent, videoPageEntry, field_setField_of_disjoint]
  frame := tableFrame_videoPageEntry vidmemPt address
  user := by simp [isUser, videoPageEntry, field_setField_of_disjoint]
  writable := by simp [isWritable, videoPageEntry, field_setField_of_disjoint]

/-- The frames the video page can have: the text pages, and those that `pit_handler`
computes without dividing by the page size. -/
def videoFrames : List (BitVec 20) :=
  [0xB8, 0xB9, 0xBA, 0xBB, 0xB8001, 0xB8002, 0xB8003]

/-- The tables while processes run; `video` says that `vidmap` has mapped its page. -/
structure Paged (frames : TableFrames) (s : Kernel) (video : Bool) : Prop where
  frame : s.ptVidmapFrame = frames.ptVidmap
  first : TableEntry (s.pdt 0) frames.pt0 false
  kernelPage : LargeEntry (s.pdt 1) 1 false
  userPage : LargeEntry (s.pdt 32) (pageFrame (s.pdt 32)) true
  vidmapTable : video = true → TableEntry (s.pdt vidPdtIdx) frames.ptVidmap true
  videoPage : video = true → ∃ frame ∈ videoFrames, SmallEntry (s.ptVidmap 0) frame true
  unmapped : video = false → s.pdt vidPdtIdx = 0
  rest : ∀ index, index ∉ [0, 1, 32, vidPdtIdx] → s.pdt index = 0
  restVideo : ∀ index, index ≠ 0 → s.ptVidmap index = 0

/-- What `setup_kernel_paging` leaves in `pt0`. -/
structure TextPages (pt0 : Nat → Word) : Prop where
  text : ∀ i < 4, SmallEntry (pt0 (0xB8 + i)) (BitVec.ofNat 20 (0xB8 + i)) false
  rest : ∀ index, index < 0xB8 ∨ 0xBC ≤ index → pt0 index = 0

namespace Paged

variable {frames : TableFrames} {s next : Kernel} {video : Bool}

theorem congr (paged : Paged frames s video) (pdt : next.pdt = s.pdt)
    (ptVidmap : next.ptVidmap = s.ptVidmap) (frame : next.ptVidmapFrame = s.ptVidmapFrame) :
    Paged frames next video where
  frame := frame.trans paged.frame
  first := pdt ▸ paged.first
  kernelPage := pdt ▸ paged.kernelPage
  userPage := pdt ▸ paged.userPage
  vidmapTable := pdt ▸ paged.vidmapTable
  videoPage := ptVidmap ▸ paged.videoPage
  unmapped := pdt ▸ paged.unmapped
  rest := pdt ▸ paged.rest
  restVideo := ptVidmap ▸ paged.restVideo

theorem user (paged : Paged frames s video) {locals : Locals}
    (clean : highAddress locals.newPage = 0) {pid : Int}
    (after : TablesAfter s (userPageOps locals pid) next) : Paged frames next video := by
  obtain ⟨pdt, ptVidmap, frame⟩ := after
  have isNext : next.pdt = assign s.pdt 32
      (pdtEntryPageSetup locals.newPage (BitVec.ofInt 32 (pid + 1)) 1) := pdt
  have kept : next.ptVidmap = s.ptVidmap := ptVidmap
  have other : ∀ index, index ≠ 32 → next.pdt index = s.pdt index := by
    intro index different
    rw [isNext, assign_of_ne different]
  have entry := largeEntry_pdtEntryPageSetup clean (BitVec.ofInt 32 (pid + 1)) 1
  rw [← pageFrame_pdtEntryPageSetup locals.newPage _ 1] at entry
  constructor
  case frame => exact frame.trans paged.frame
  case first => rw [other 0 (by decide)]; exact paged.first
  case kernelPage => rw [other 1 (by decide)]; exact paged.kernelPage
  case userPage => rw [isNext, assign_self]; exact entry
  case vidmapTable => rw [other vidPdtIdx (by decide)]; exact paged.vidmapTable
  case videoPage => rw [kept]; exact paged.videoPage
  case unmapped => rw [other vidPdtIdx (by decide)]; exact paged.unmapped
  case rest =>
    intro index outside
    have different : index ≠ 32 := by
      intro same
      apply outside
      rw [same]
      decide
    rw [other index different]
    exact paged.rest index outside
  case restVideo => rw [kept]; exact paged.restVideo

/-- The video page of the process that goes on, in a table that may not be in use. -/
theorem videoEntry (paged : Paged frames s video) {vidmemPt address : Word}
    (isVideo : address.setWidth 20 ∈ videoFrames) (pdt : next.pdt = s.pdt)
    (ptVidmap : next.ptVidmap = assign s.ptVidmap 0 (videoPageEntry vidmemPt address))
    (frame : next.ptVidmapFrame = s.ptVidmapFrame) : Paged frames next video where
  frame := frame.trans paged.frame
  first := pdt ▸ paged.first
  kernelPage := pdt ▸ paged.kernelPage
  userPage := pdt ▸ paged.userPage
  vidmapTable := pdt ▸ paged.vidmapTable
  videoPage := by
    intro _
    refine ⟨_, isVideo, ?_⟩
    rw [ptVidmap, assign_self]
    exact smallEntry_videoPageEntry vidmemPt address
  unmapped := pdt ▸ paged.unmapped
  rest := pdt ▸ paged.rest
  restVideo := by
    intro index different
    rw [ptVidmap, assign_of_ne different]
    exact paged.restVideo index different

theorem vidmap (paged : Paged frames s video) {locals : Locals}
    (clean : pageSize locals.vidmem = 0) {address : Word}
    (isVideo : address.setWidth 20 ∈ videoFrames)
    (after : TablesAfter s (vidmapOps locals s.ptVidmapFrame address) next) :
    Paged frames next true := by
  obtain ⟨pdt, ptVidmap, frame⟩ := after
  have isNext : next.pdt =
      assign s.pdt vidPdtIdx (vidmapTableEntry locals.vidmem s.ptVidmapFrame) := pdt
  have isTable : next.ptVidmap =
      assign s.ptVidmap 0 (videoPageEntry locals.vidmemPt address) := ptVidmap
  have other : ∀ index, index ≠ vidPdtIdx → next.pdt index = s.pdt index := by
    intro index different
    rw [isNext, assign_of_ne different]
  constructor
  case frame => exact frame.trans paged.frame
  case first => rw [other 0 (by decide)]; exact paged.first
  case kernelPage => rw [other 1 (by decide)]; exact paged.kernelPage
  case userPage => rw [other 32 (by decide)]; exact paged.userPage
  case vidmapTable =>
    intro _
    rw [isNext, assign_self, ← paged.frame]
    exact tableEntry_vidmapTableEntry clean s.ptVidmapFrame
  case videoPage =>
    intro _
    refine ⟨_, isVideo, ?_⟩
    rw [isTable, assign_self]
    exact smallEntry_videoPageEntry locals.vidmemPt address
  case unmapped => exact fun unused => absurd unused (by decide)
  case rest =>
    intro index outside
    have different : index ≠ vidPdtIdx := by
      intro same
      apply outside
      rw [same]
      decide
    rw [other index different]
    exact paged.rest index outside
  case restVideo =>
    intro index different
    rw [isTable, assign_of_ne different]
    exact paged.restVideo index different

end Paged

section Frames

variable {t : Int}

theorem pitFrame_mem (low : 1 ≤ t) (high : t ≤ 3) (shown : Int) :
    (if shown = t then vidMemPhysical / 4096#32
      else vidMemPhysical + BitVec.ofInt 32 t).setWidth 20 ∈ videoFrames := by
  split
  · decide
  · interval_cases t <;> decide

theorem vidmapFrame_mem (low : 1 ≤ t) (high : t ≤ 3) (shown : Int) :
    (if shown = t then vidMemPhysical / 4096#32
      else vidMemPhysical / 4096#32 + BitVec.ofInt 32 t).setWidth 20 ∈ videoFrames := by
  split
  · decide
  · interval_cases t <;> decide

end Frames

namespace Represents

variable {s next : Kernel} {a : Session} {frame : Frame} {locals : Locals}

theorem pitVideoAddress_mem (represents : Represents s a) {schedEbp : Word}
    (ticks : s.pitHandler frame locals = some (.switches schedEbp next)) :
    next.pitVideoAddress.setWidth 20 ∈ videoFrames := by
  obtain ⟨low, high⟩ := represents.terminal
  rw [← represents.current] at low high
  rcases Kernel.pitHandler_cases ticks with ⟨_, other⟩ | ⟨t, top, chosen, _, _, isNext⟩
  · cases other
  · cases isNext
    have range : 1 ≤ t ∧ t ≤ 3 := by
      rw [← chosen]
      rcases nextProcess_cases s.table.baseShellBootedBitmask low high with
        first | ⟨second, _⟩ | ⟨third, _⟩ <;> omega
    exact pitFrame_mem range.1 range.2 s.tty.curTerminal

theorem vidmapAddress_mem (represents : Represents s a) (on : frame.On s) {base : Word}
    (found : LightweightOs.getBaseProcessPcb s.pcb (currentPcb frame.esp) = some base) :
    (s.vidmapAddress (s.pcb base).processId).setWidth 20 ∈ videoFrames := by
  obtain ⟨low, high⟩ := represents.terminal
  rw [← represents.current] at low high
  obtain ⟨atBase, named⟩ := represents.base on.esp
  have isBase : base = pcbAddr s.curProcess := Option.some.inj (found.symm.trans atBase)
  rw [isBase, named]
  exact vidmapFrame_mem low high s.tty.curTerminal

end Represents

/-- A call of `vidmap` that returns 0 stores two entries and flushes. -/
theorem Record.tableOps_of_vidmaps {record : Record} (maps : record.vidmaps = true) :
    (record.before.tableOps record.event).length = 3 := by
  obtain ⟨before, event, outcome⟩ := record
  cases event with
  | vidmap frame locals screenStart =>
      simp only [Record.vidmaps] at maps
      split at maps
      case h_1 next value store result =>
        rw [decide_eq_true_eq] at maps
        subst maps
        rcases Kernel.vidmap_cases result with ⟨_, other⟩ | ⟨base, found, _, _⟩
        · cases other
        · simp only [Kernel.tableOps, result, found]
          rfl
      case h_2 => cases maps
  | _ => cases maps

theorem Paged.step {frames : TableFrames} {s next : Kernel} {video : Bool} {a : Session}
    (paged : Paged frames s video) (represents : Represents s a) {record : Record}
    (step : Step s record next) (clean : ∀ locals ∈ record.event.locals?,
      highAddress locals.newPage = 0 ∧ pageSize locals.vidmem = 0) :
    Paged frames next (video || record.vidmaps) := by
  have after := step.tables
  have legal := step.legal
  have isBefore := step.before
  have other : (s.tableOps record.event).length ≠ 3 → record.vidmaps = false := by
    intro length
    rw [← Bool.not_eq_true]
    intro maps
    apply length
    rw [← isBefore]
    exact Record.tableOps_of_vidmaps maps
  rcases s.tableOps_cases record.event with
    none | ⟨locals, pid, isLocals, user⟩ |
    ⟨frame, locals, _, switched, pid, isEvent, ticks, switch⟩ |
    ⟨frame, locals, screenStart, mapped, _, base, isEvent, maps, found, vidmap⟩
  · have noMap := other (by rw [none]; decide)
    rw [none] at after
    rw [noMap, Bool.or_false]
    exact paged.congr after.pdt after.ptVidmap after.frame
  · have noMap := other (by rw [user]; exact (by decide : 2 ≠ 3))
    rw [user] at after
    rw [noMap, Bool.or_false]
    exact paged.user (clean locals isLocals).1 after
  · have noMap := other (by rw [switch]; exact (by decide : 4 ≠ 3))
    rw [switch] at after
    rw [noMap, Bool.or_false]
    have isLocals : locals ∈ record.event.locals? := by rw [isEvent]; rfl
    have first := @Paged.user frames s (s.applyOps (userPageOps locals pid)) video paged locals
      (clean locals isLocals).1 pid ⟨rfl, rfl, rfl⟩
    exact first.videoEntry (represents.pitVideoAddress_mem ticks) after.pdt after.ptVidmap
      after.frame
  · rw [vidmap] at after
    have isMap : record.vidmaps = true := by
      simp only [Record.vidmaps, isEvent, isBefore, maps, decide_true]
    rw [isMap, Bool.or_true]
    have isLocals : locals ∈ record.event.locals? := by rw [isEvent]; rfl
    rw [isEvent] at legal
    exact paged.vidmap (clean locals isLocals).2 (represents.vidmapAddress_mem legal found) after

section Actions

variable {s next : Kernel} {entry : MemoryEntry}

theorem MemoryAction.event?_eq_none {action : MemoryAction}
    (noEvent : ∀ event lineBuf, action ≠ .act (.event event) lineBuf) :
    action.event? = none := by
  cases action with
  | getargs => rfl
  | act inner lineBuf =>
      cases inner with
      | event event => exact (noEvent event lineBuf rfl).elim
      | call | rtcReadEnd => rfl

theorem ActsOutside.tables (step : ActsOutside s entry next) :
    TablesAfter s (s.actionOps entry.action) next := by
  obtain ⟨after, vram, rfl, ⟨event, lineBuf, outcome, isAction, _, taken⟩ |
    ⟨noEvent, keeps⟩⟩ := step.cases
  · have tables := taken.tables
    rw [isAction]
    exact ⟨tables.pdt, tables.ptVidmap, tables.frame⟩
  · rw [Kernel.actionOps, MemoryAction.event?_eq_none noEvent]
    exact ⟨keeps.pdt, keeps.ptVidmap, keeps.ptVidmapFrame⟩

theorem Paged.outside {frames : TableFrames} {video : Bool} {a : Session}
    (paged : Paged frames s video) (represents : Represents s a)
    (step : ActsOutside s entry next) (clean : CleanStack entry.action) :
    Paged frames next (video || entry.vidmaps) := by
  have isBefore := step.2.before
  obtain ⟨after, vram, rfl, ⟨event, lineBuf, outcome, isAction, isReply, taken⟩ |
    ⟨noEvent, keeps⟩⟩ := step.cases
  · have isEvent : entry.action.event? = some event := by rw [isAction]; rfl
    have isMap : entry.vidmaps = (⟨s, event, outcome⟩ : Record).vidmaps := by
      rw [MemoryEntry.vidmaps, isEvent, isReply, isBefore]
    rw [isMap]
    exact (paged.step represents taken (clean event isEvent)).congr rfl rfl rfl
  · have isMap : entry.vidmaps = false := by
      rw [MemoryEntry.vidmaps, MemoryAction.event?_eq_none noEvent]
    rw [isMap, Bool.or_false]
    exact paged.congr keeps.pdt keeps.ptVidmap keeps.ptVidmapFrame

theorem Represents.outside {a : Session} (represents : Represents s a)
    (step : ActsOutside s entry next) : ∃ b, Represents next b := by
  obtain ⟨after, vram, rfl, ⟨event, lineBuf, outcome, _, _, taken⟩ | ⟨_, keeps⟩⟩ := step.cases
  · obtain ⟨b, _, _, still⟩ := represents.step taken
    exact ⟨b, still.withVram vram⟩
  · exact ⟨a, (represents.call keeps).withVram vram⟩

end Actions

/-- The frame of the video page, once it is mapped. -/
def Kernel.videoPage (s : Kernel) (video : Bool) : Option (BitVec 20) :=
  if video then some (tableFrame (s.ptVidmap 0)) else none

theorem isPresent_zero : isPresent 0 = false := by decide

section Walk

variable {frames : TableFrames} {s : Kernel} {video : Bool} {pt0 : Nat → Word}
  {others : BitVec 20 → BitVec 10 → Word} {linear : Word} {p : Int}

theorem Kernel.tables_directory :
    (s.tables frames pt0 others).directory (directoryIndex linear) =
      s.pdt (linear.toNat / 2 ^ 22) := by
  rw [← directoryIndex_toNat]
  rfl

theorem Kernel.tables_pt0 :
    (s.tables frames pt0 others).table frames.pt0 (tableIndex linear) =
      pt0 (linear.toNat / 2 ^ 12 % 2 ^ 10) := by
  rw [← tableIndex_toNat]
  exact if_pos rfl

theorem Kernel.tables_ptVidmap :
    (s.tables frames pt0 others).table frames.ptVidmap (tableIndex linear) =
      s.ptVidmap (linear.toNat / 2 ^ 12 % 2 ^ 10) := by
  rw [← tableIndex_toNat]
  exact (if_neg frames.apart.symm).trans (if_pos rfl)

theorem Paged.walk_first (paged : Paged frames s video) (text : TextPages pt0)
    (inside : linear.toNat < 0x400000) (page : Option (BitVec 20)) :
    (s.tables frames pt0 others).walk linear = addressMap p page linear := by
  have isIndex : linear.toNat / 2 ^ 22 = 0 := by omega
  have isTable : linear.toNat / 2 ^ 12 % 2 ^ 10 = linear.toNat / 2 ^ 12 := by omega
  have isEntry : (s.tables frames pt0 others).directory (directoryIndex linear) = s.pdt 0 := by
    rw [Kernel.tables_directory, isIndex]
  have isPage : (s.tables frames pt0 others).table (smallFrame (s.pdt 0))
      (tableIndex linear) = pt0 (linear.toNat / 2 ^ 12) := by
    rw [paged.first.frame, Kernel.tables_pt0, isTable]
  rw [Tables.walk_of_small isEntry paged.first.present paged.first.small isPage]
  by_cases isText : 0xB8000 ≤ linear.toNat ∧ linear.toNat < 0xBC000
  · obtain ⟨i, less, isI⟩ : ∃ i < 4, linear.toNat / 2 ^ 12 = 0xB8 + i :=
      ⟨linear.toNat / 2 ^ 12 - 0xB8, by omega, by omega⟩
    have entry := text.text i less
    have number : (BitVec.ofNat 20 (0xB8 + i)).toNat = 0xB8 + i := by
      rw [BitVec.toNat_ofNat]
      omega
    have own : (0xB8 + i) * 2 ^ 12 + linear.toNat % 2 ^ 12 = linear.toNat := by omega
    rw [isI, entry.present, if_pos rfl, entry.frame, number, own, paged.first.user,
      entry.writable, paged.first.writable, addressMap, if_pos isText]
    rfl
  · have absent : pt0 (linear.toNat / 2 ^ 12) = 0 := text.rest _ (by omega)
    rw [absent, isPresent_zero, if_neg Bool.false_ne_true, addressMap, if_neg isText,
      if_neg (by omega), if_neg (by omega), if_neg (by omega)]

theorem Paged.walk_video (paged : Paged frames s video)
    (inside : 0x8800000 ≤ linear.toNat ∧ linear.toNat < 0x8C00000) :
    (s.tables frames pt0 others).walk linear =
      addressMap p (s.videoPage video) linear := by
  have isIndex : linear.toNat / 2 ^ 22 = vidPdtIdx := by
    have number : vidPdtIdx = 34 := rfl
    omega
  have isEntry : (s.tables frames pt0 others).directory (directoryIndex linear) =
      s.pdt vidPdtIdx := by
    rw [Kernel.tables_directory, isIndex]
  rw [addressMap, if_neg (by omega), if_neg (by omega), if_neg (by omega)]
  cases video with
  | false =>
      rw [Tables.walk_of_absent (by rw [isEntry, paged.unmapped rfl]; exact isPresent_zero)]
      split <;> rfl
  | true =>
      have table := paged.vidmapTable rfl
      have isPage : (s.tables frames pt0 others).table (smallFrame (s.pdt vidPdtIdx))
          (tableIndex linear) = s.ptVidmap (linear.toNat / 2 ^ 12 % 2 ^ 10) := by
        rw [table.frame, Kernel.tables_ptVidmap]
      rw [Tables.walk_of_small isEntry table.present table.small isPage]
      by_cases first : linear.toNat < 0x8801000
      · obtain ⟨frame, _, entry⟩ := paged.videoPage rfl
        have isZero : linear.toNat / 2 ^ 12 % 2 ^ 10 = 0 := by omega
        have offset : linear.toNat % 2 ^ 12 = linear.toNat - 0x8800000 := by omega
        have isFrame : tableFrame (s.ptVidmap 0) = frame := entry.frame
        rw [isZero, entry.present, if_pos rfl, entry.frame, offset, table.user, entry.user,
          table.writable, entry.writable, if_pos ⟨inside.1, first⟩, Kernel.videoPage,
          if_pos rfl, isFrame]
        rfl
      · have absent : s.ptVidmap (linear.toNat / 2 ^ 12 % 2 ^ 10) = 0 :=
          paged.restVideo _ (by omega)
        rw [absent, isPresent_zero, if_neg Bool.false_ne_true,
          if_neg fun within => first within.2]

theorem Paged.walk_eq (paged : Paged frames s video) (text : TextPages pt0)
    (mapped : Mapped s p) :
    (s.tables frames pt0 others).walk linear = addressMap p (s.videoPage video) linear := by
  have bound := linear.isLt
  by_cases first : linear.toNat < 0x400000
  · exact paged.walk_first text first _
  by_cases isVideo : 0x8800000 ≤ linear.toNat ∧ linear.toNat < 0x8C00000
  · exact paged.walk_video isVideo
  by_cases isKernel : linear.toNat < 0x800000
  · have isEntry : (s.tables frames pt0 others).directory (directoryIndex linear) =
        s.pdt 1 := by
      rw [Kernel.tables_directory, (by omega : linear.toNat / 2 ^ 22 = 1)]
    have entry := paged.kernelPage
    have own : (1 : BitVec 10).toNat * 0x400000 + linear.toNat % 2 ^ 22 = linear.toNat := by
      have one : (1 : BitVec 10).toNat = 1 := rfl
      omega
    rw [Tables.walk_of_large isEntry entry.present entry.large entry.valid, entry.base,
      entry.user, entry.writable, own, addressMap, if_neg (by omega), if_pos (by omega)]
  · by_cases isUser : 0x8000000 ≤ linear.toNat ∧ linear.toNat < 0x8400000
    · have isEntry : (s.tables frames pt0 others).directory (directoryIndex linear) =
          s.pdt 32 := by
        rw [Kernel.tables_directory, (by omega : linear.toNat / 2 ^ 22 = 32)]
      have entry := paged.userPage
      have offset : linear.toNat % 2 ^ 22 = linear.toNat - 0x8000000 := by omega
      rw [Tables.walk_of_large isEntry entry.present entry.large entry.valid, entry.base,
        entry.user, entry.writable, mapped.frame, offset, addressMap, if_neg (by omega),
        if_neg (by omega), if_pos isUser]
    · have absent : s.pdt (linear.toNat / 2 ^ 22) = 0 := by
        apply paged.rest
        have number : vidPdtIdx = 34 := rfl
        simp only [List.mem_cons, List.not_mem_nil, or_false, not_or, number]
        omega
      rw [Tables.walk_of_absent (by
          rw [Kernel.tables_directory, absent]
          exact isPresent_zero),
        addressMap, if_neg (by omega), if_neg (by omega), if_neg isUser, if_neg (by omega)]

end Walk

/-- The tables before the first `execute`: those of `setup_kernel_paging`, and an empty
`pt_vidmap`. -/
structure PagedBefore (frames : TableFrames) (pt0 : Nat → Word) (pre : Kernel) : Prop where
  tables : ∃ (address : Word) (locals : KernelLocals),
    (address >>> 12).setWidth 20 = frames.pt0 ∧ highAddress locals.kernalPage = 0 ∧
      (⟨fun _ => 0, fun _ => 0⟩ : KernelTables).setupKernelPaging address locals =
        ⟨pre.pdt, pt0⟩
  ptVidmap : ∀ index, pre.ptVidmap index = 0
  frame : pre.ptVidmapFrame = frames.ptVidmap

/-- The first shell has just been started on these tables. -/
structure PagedBoot (frames : TableFrames) (pt0 : Nat → Word) (start : Kernel) : Prop where
  booted : Booted start
  boots : ∃ pre frame locals command started, PagedBefore frames pt0 pre ∧
    pre.execute frame locals command = some (.starts started start) ∧
      highAddress locals.newPage = 0

namespace PagedBefore

variable {frames : TableFrames} {pt0 : Nat → Word} {pre : Kernel}

/-- The shell's page is the only one that the first `execute` adds. -/
theorem paged (before : PagedBefore frames pt0 pre) {start : Kernel} {frame : Frame}
    {locals : Locals} {command : Nat → Byte} {started : Started}
    (executes : pre.execute frame locals command = some (.starts started start))
    (clean : highAddress locals.newPage = 0) : Paged frames start false := by
  obtain ⟨address, kernelLocals, isFrame, isClean, setup⟩ := before.tables
  have isTable := congrArg KernelTables.pdt setup
  dsimp only [KernelTables.setupKernelPaging] at isTable
  have after := Kernel.execute_tables executes
  have isNext : start.pdt = assign pre.pdt 32
      (pdtEntryPageSetup locals.newPage (BitVec.ofInt 32 (started.pid + 1)) 1) := after.pdt
  have kept : start.ptVidmap = pre.ptVidmap := after.ptVidmap
  have entry := largeEntry_pdtEntryPageSetup clean (BitVec.ofInt 32 (started.pid + 1)) 1
  rw [← pageFrame_pdtEntryPageSetup locals.newPage _ 1] at entry
  constructor
  case frame => exact after.frame.trans before.frame
  case first =>
    rw [isNext, assign_of_ne (by decide), ← isTable, assign_self, isFrame]
    exact tableEntry_firstTableEntry _ _
  case kernelPage =>
    rw [isNext, assign_of_ne (by decide), ← isTable, assign_of_ne (by decide), assign_self]
    exact largeEntry_pdtEntryPageSetup isClean 1 0
  case userPage => rw [isNext, assign_self]; exact entry
  case vidmapTable => exact fun mapped => absurd mapped (by decide)
  case videoPage => exact fun mapped => absurd mapped (by decide)
  case unmapped =>
    intro _
    rw [isNext, assign_of_ne (by decide), ← isTable, assign_of_ne (by decide),
      assign_of_ne (by decide)]
  case rest =>
    intro index outside
    simp only [List.mem_cons, List.not_mem_nil, or_false, not_or] at outside
    rw [isNext, assign_of_ne outside.2.2.1, ← isTable, assign_of_ne outside.1,
      assign_of_ne outside.2.1]
  case restVideo =>
    intro index _
    rw [kept]
    exact before.ptVidmap index

end PagedBefore

/-- `vidmap` has returned 0 in a history. -/
def videoMapped (history : List (MemoryEntry × List MmuEvent)) : Bool :=
  history.any fun event => event.1.vidmaps

theorem videoMapped_concat (history : List (MemoryEntry × List MmuEvent))
    (event : MemoryEntry × List MmuEvent) :
    videoMapped (history ++ [event]) = (videoMapped history || event.1.vidmaps) := by
  rw [videoMapped, List.any_append]
  simp [videoMapped]

section Runs

variable {frames : TableFrames} {pt0 : Nat → Word} {others : BitVec 20 → BitVec 10 → Word}
  {start m : PagedKernel} {history : List (MemoryEntry × List MmuEvent)}

theorem Kernel.actionOps_requested (s : Kernel) (action : MemoryAction) (frames : TableFrames) :
    ∀ event ∈ (s.actionOps action).map (TableOp.action frames), event.isRequested = true := by
  intro event member
  obtain ⟨op, _, rfl⟩ := List.mem_map.mp member
  cases op <;> rfl

theorem PagedStep.exists_run {s final : Kernel} {entries : List MemoryEntry}
    (run : Run ActsOutside s entries final) (frames : TableFrames) (mmu : Mmu) :
    ∃ history mmuAfter, Run (PagedStep frames) ⟨s, mmu⟩ history ⟨final, mmuAfter⟩ ∧
      history.map Prod.fst = entries := by
  induction run with
  | nil => exact ⟨[], mmu, .nil, rfl⟩
  | @snoc entries middle final entry _ taken earlier =>
      obtain ⟨history, between, paged, isHistory⟩ := earlier
      have requested := middle.actionOps_requested entry.action frames
      obtain ⟨after, runs⟩ := between.exists_run _ requested
      refine ⟨history ++ [(entry, _)], after,
        paged.snoc ⟨taken, List.filter_eq_self.mpr requested, runs⟩, ?_⟩
      rw [List.map_append, isHistory]
      rfl

/-- The start of a run with an MMU: it has read the tables, and kept nothing else. -/
structure PagedStart (frames : TableFrames) (pt0 : Nat → Word)
    (others : BitVec 20 → BitVec 10 → Word) (start : PagedKernel) : Prop where
  boot : PagedBoot frames pt0 start.kernel
  tables : start.mmu.tables = start.kernel.tables frames pt0 others
  coherent : start.mmu.Coherent

/-- What a run preserves of the tables and of the MMU. -/
structure PagedInvariant (frames : TableFrames) (pt0 : Nat → Word)
    (others : BitVec 20 → BitVec 10 → Word) (m : PagedKernel) (video : Bool) : Prop where
  represents : ∃ a, Represents m.kernel a
  paged : Paged frames m.kernel video
  tables : m.mmu.tables = m.kernel.tables frames pt0 others
  coherent : m.mmu.Coherent

theorem Kernel.actionOps_inside (s : Kernel) (action : MemoryAction) :
    ∀ op ∈ s.actionOps action, op.Inside := by
  rw [actionOps]
  split
  · exact s.tableOps_inside _
  · simp

theorem Kernel.actionOps_flushed (s : Kernel) (action : MemoryAction) (frames : TableFrames) :
    ¬Unflushed ((s.actionOps action).map (TableOp.action frames)) := by
  rw [actionOps]
  split
  · exact s.tableOps_flushed _ frames
  · exact id

theorem PagedStep.tables {next : PagedKernel} {event : MemoryEntry × List MmuEvent}
    (step : PagedStep frames m event next)
    (tables : m.mmu.tables = m.kernel.tables frames pt0 others) :
    next.mmu.tables = next.kernel.tables frames pt0 others := by
  have after := step.step.tables
  rw [Mmu.run_tables step.runs, step.carries.changeTables, tables,
    Kernel.tables_applyOps (m.kernel.actionOps_inside event.1.action), Kernel.tables,
    Kernel.tables, after.pdt, after.ptVidmap]

theorem PagedInvariant.step {next : PagedKernel} {video : Bool}
    (holds : PagedInvariant frames pt0 others m video) {event : MemoryEntry × List MmuEvent}
    (step : PagedStep frames m event next) (clean : CleanStack event.1.action) :
    PagedInvariant frames pt0 others next (video || event.1.vidmaps) := by
  obtain ⟨⟨a, represents⟩, paged, tables, coherent⟩ := holds
  constructor
  case represents => exact represents.outside step.step
  case paged => exact paged.outside represents step.step clean
  case tables => exact step.tables tables
  case coherent =>
    apply coherent.run step.runs
    rw [step.carries.unflushed_iff]
    exact m.kernel.actionOps_flushed event.1.action frames

theorem PagedStart.run (begins : PagedStart frames pt0 others start)
    (run : Run (PagedStep frames) start history m)
    (clean : ∀ event ∈ history, CleanStack event.1.action) :
    PagedInvariant frames pt0 others m (videoMapped history) := by
  induction run with
  | nil =>
      obtain ⟨pre, frame, locals, command, started, before, executes, isClean⟩ :=
        begins.boot.boots
      exact
        { represents := ⟨_, begins.boot.booted.represents⟩
          paged := before.paged executes isClean
          tables := begins.tables
          coherent := begins.coherent }
  | @snoc history middle next event _ taken earlier =>
      rw [videoMapped_concat]
      have before := earlier fun other member => clean other (List.mem_append_left _ member)
      exact before.step taken (clean event (by simp))

/-- Whatever translations the processor has kept, it answers as the address map says. -/
theorem PagedInvariant.translates_iff {video : Bool}
    (holds : PagedInvariant frames pt0 others m video) (text : TextPages pt0) (linear : Word)
    (target : Target) :
    m.mmu.Translates linear target ↔
      addressMap m.kernel.runningPid (m.kernel.videoPage video) linear = some target := by
  obtain ⟨⟨a, represents⟩, paged, tables, coherent⟩ := holds
  rw [coherent.translates_iff, tables, paged.walk_eq text represents.mapped]

/-- A store of the kernel outside its own page comes through when its address has a
translation, and faults otherwise. -/
theorem PagedInvariant.storeByte_isSome {video : Bool}
    (holds : PagedInvariant frames pt0 others m video) (text : TextPages pt0) {address : Word}
    (outside : ¬InKernel address) (byte : Byte) :
    (m.kernel.storeByte address byte).isSome ↔ ∃ target, m.mmu.Translates address target := by
  simp only [holds.translates_iff text]
  have mapped : present (m.kernel.pdt vidPdtIdx) = 1 ↔ video = true := by
    cases video with
    | true =>
        have isPresent := (holds.paged.vidmapTable rfl).present
        rw [PageWalk.isPresent, decide_eq_true_eq] at isPresent
        exact ⟨fun _ => rfl, fun _ => isPresent⟩
    | false =>
        rw [holds.paged.unmapped rfl]
        decide
  rw [Kernel.storeByte_isSome outside, mapped, Kernel.videoPage]
  have inKernel : ¬(0x400000 ≤ address.toNat ∧ address.toNat < 0x800000) := outside
  have isTarget : ∀ target : Target, ∃ other, some target = some other :=
    fun target => ⟨target, rfl⟩
  rw [addressMap, InTextPages, OnUserPage, InVideoPage]
  by_cases isText : 0xB8000 ≤ address.toNat ∧ address.toNat < 0xBC000
  · rw [if_pos isText]
    exact ⟨fun _ => isTarget _, fun _ => .inl isText⟩
  by_cases onPage : 0x8000000 ≤ address.toNat ∧ address.toNat < 0x8400000
  · rw [if_neg isText, if_neg inKernel, if_pos onPage]
    exact ⟨fun _ => isTarget _, fun _ => .inr (.inl (by omega))⟩
  by_cases inVideo : 0x8800000 ≤ address.toNat ∧ address.toNat < 0x8801000
  · rw [if_neg isText, if_neg inKernel, if_neg onPage, if_pos inVideo]
    cases video with
    | true => exact ⟨fun _ => isTarget _, fun _ => .inr (.inr ⟨inVideo, rfl⟩)⟩
    | false =>
        simp
        omega
  · rw [if_neg isText, if_neg inKernel, if_neg onPage, if_neg inVideo]
    simp
    omega

end Runs

end LightweightOs
