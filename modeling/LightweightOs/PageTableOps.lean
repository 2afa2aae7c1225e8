import LightweightOs.Library.PageWalk
import LightweightOs.PagingEntries
import LightweightOs.AddressSpace
import LightweightOs.VideoMapping

/-!
# Stores to the page tables

The stores and flushes that each function makes while processes come and go, as
the kernel's own state and as the MMU see them.  Whatever a function stores, its
last operation is a flush.
-/

namespace LightweightOs

open PageWalk Transition

/-- Where the linker put the two page tables. -/
structure TableFrames where
  pt0 : BitVec 20
  ptVidmap : BitVec 20
  apart : pt0 ≠ ptVidmap

/-- The tables that the processor walks; `pt0` is written at boot only, and a frame that
holds neither table may hold anything. -/
def Kernel.tables (s : Kernel) (frames : TableFrames) (pt0 : Nat → Word)
    (others : BitVec 20 → BitVec 10 → Word) : Tables where
  directory := fun index => s.pdt index.toNat
  table := fun frame index =>
    if frame = frames.pt0 then pt0 index.toNat
    else if frame = frames.ptVidmap then s.ptVidmap index.toNat
    else others frame index

/-- A store to the page directory or to `pt_vidmap`, or a call of `flush_tlb`. -/
inductive TableOp where
  | pdt (index : Nat) (word : Word)
  | ptVidmap (index : Nat) (word : Word)
  | flushTlb

/-- The operation as the MMU sees it. -/
def TableOp.action (frames : TableFrames) : TableOp → MmuEvent
  | .pdt index word =>
      .store fun tables =>
        { tables with directory := assign tables.directory (BitVec.ofNat 10 index) word }
  | .ptVidmap index word =>
      .store fun tables =>
        { tables with
          table := assign tables.table frames.ptVidmap
            (assign (tables.table frames.ptVidmap) (BitVec.ofNat 10 index) word) }
  | .flushTlb => .flush

/-- `execute` and `halt` map the page of the process they go on in. -/
def userPageOps (locals : Locals) (pid : Int) : List TableOp :=
  [.pdt 32 (pdtEntryPageSetup locals.newPage (BitVec.ofInt 32 (pid + 1)) 1), .flushTlb]

/-- `pit_handler` maps the page of the process it switches to, and then the video page. -/
def switchOps (locals : Locals) (pid : Int) (address : Word) : List TableOp :=
  userPageOps locals pid ++ [.ptVidmap 0 (videoPageEntry locals.vidmemPt address), .flushTlb]

def vidmapOps (locals : Locals) (frame : BitVec 20) (address : Word) : List TableOp :=
  [.pdt vidPdtIdx (vidmapTableEntry locals.vidmem frame),
    .ptVidmap 0 (videoPageEntry locals.vidmemPt address), .flushTlb]

/-- The stores and flushes of an event. -/
def Kernel.tableOps (s : Kernel) : Event → List TableOp
  | .execute frame locals commandUser =>
      match s.execute frame locals commandUser with
      | some (.starts started _) => userPageOps locals started.pid
      | _ => []
  | .halt frame inner locals status after =>
      match s.halt frame inner locals status after with
      | some (.resumes _ _ _) =>
          userPageOps locals (s.pcb (s.pcb (currentPcb frame.esp)).parentPcb).processId
      | some (.restarts started _) => userPageOps locals started.pid
      | none => []
  | .pit frame locals =>
      match s.pitHandler frame locals with
      | some (.switches _ next) =>
          match getTopProcessPcb s.pcb (pcbAddr next.curProcess) with
          | some top => switchOps locals (s.pcb top).processId next.pitVideoAddress
          | none => []
      | _ => []
  | .key frame inner locals scanCode after =>
      match s.keyboardHandler frame inner locals scanCode after with
      | some (.boots started _) => userPageOps locals started.pid
      | _ => []
  | .vidmap frame locals screenStart =>
      match s.vidmap frame locals screenStart with
      | some (_, 0, _) =>
          match getBaseProcessPcb s.pcb (currentPcb frame.esp) with
          | some base =>
              vidmapOps locals s.ptVidmapFrame (s.vidmapAddress (s.pcb base).processId)
          | none => []
      | _ => []
  | .terminalWrite _ _ | .readStart _ | .readLine _ | .rtcWrite _ | .rtc => []

/-- The locals that an event builds entries in. -/
def Event.locals? : Event → Option Locals
  | .execute _ locals _ | .halt _ _ locals _ _ | .pit _ locals | .key _ _ locals _ _
  | .vidmap _ locals _ => some locals
  | .terminalWrite _ _ | .readStart _ | .readLine _ | .rtcWrite _ | .rtc => none

/-- The tables after a list of operations. -/
def Kernel.applyOps (s : Kernel) (ops : List TableOp) : Kernel :=
  ops.foldl
    (fun s op =>
      match op with
      | .pdt index word => { s with pdt := assign s.pdt index word }
      | .ptVidmap index word => { s with ptVidmap := assign s.ptVidmap index word }
      | .flushTlb => s)
    s
/-- The tables of `next` are those of `s` after some operations. -/
structure TablesAfter (s : Kernel) (ops : List TableOp) (next : Kernel) : Prop where
  pdt : next.pdt = (s.applyOps ops).pdt
  ptVidmap : next.ptVidmap = (s.applyOps ops).ptVidmap
  frame : next.ptVidmapFrame = s.ptVidmapFrame

namespace Kernel

variable {s : Kernel} {frame inner : Frame} {locals : Locals}

theorem execute_tables {commandUser : Nat → Byte} {result : ExecuteResult}
    (executes : s.execute frame locals commandUser = some result) :
    TablesAfter s
      (match result with
        | .starts started _ => userPageOps locals started.pid
        | .returns _ _ => [])
      result.next := by
  rcases execute_cases executes with
    rfl | ⟨choice, _, ⟨_, next, writes, rfl⟩ | ⟨program, rfl⟩⟩
  · exact ⟨rfl, rfl, rfl⟩
  · obtain ⟨_, _, rfl⟩ := Option.map_eq_some_iff.mp writes
    exact ⟨rfl, rfl, rfl⟩
  · exact ⟨rfl, rfl, rfl⟩

theorem halt_tables {status : Word} {after : Nat → Byte} {result : HaltResult}
    (halts : s.halt frame inner locals status after = some result) :
    TablesAfter s (s.tableOps (.halt frame inner locals status after)) result.next := by
  simp only [tableOps, halts]
  simp only [halt] at halts
  split at halts
  · split at halts
    case h_1 started next executes =>
      cases halts
      have after := execute_tables executes
      exact ⟨after.pdt, after.ptVidmap, after.frame⟩
    case h_2 => cases halts
  · cases halts
    refine ⟨?_, rfl, rfl⟩
    simp only [HaltResult.next, haltAux, closeProcess_processId, closeProcess_parentPcb]
    rfl

theorem keyboardHandler_tables {scanCode : Byte} {after : Nat → Byte} {result : KeyResult}
    (handles : s.keyboardHandler frame inner locals scanCode after = some result) :
    TablesAfter s (s.tableOps (.key frame inner locals scanCode after)) result.next := by
  simp only [tableOps, handles]
  simp only [keyboardHandler] at handles
  split at handles
  · cases handles
  · split at handles
    · cases handles
      exact ⟨rfl, rfl, rfl⟩
    · split at handles
      · cases handles
        exact ⟨rfl, rfl, rfl⟩
      · simp only [bootTerminal] at handles
        split at handles
        case h_1 started next executes =>
          cases handles
          have after := execute_tables executes
          exact ⟨after.pdt, after.ptVidmap, after.frame⟩
        case h_2 => cases handles

theorem pitHandler_tables {result : PitResult}
    (ticks : s.pitHandler frame locals = some result) :
    TablesAfter s (s.tableOps (.pit frame locals)) result.next := by
  simp only [tableOps, ticks]
  rcases pitHandler_cases ticks with ⟨_, rfl⟩ | ⟨t, top, _, _, found, rfl⟩
  · exact ⟨rfl, rfl, rfl⟩
  · have isTop : getTopProcessPcb s.pcb
        (pcbAddr (({ s with curProcess := t } : Kernel).switchTo frame locals
          top).curProcess) = some top := found
    simp only [isTop]
    refine ⟨?_, ?_, rfl⟩
    · simp only [PitResult.next, switchTo, saveSched_processId]
      rfl
    · rfl

theorem vidmap_tables {next : Kernel} {screenStart : Word} {value : Int}
    {store : Option UserStore}
    (maps : s.vidmap frame locals screenStart = some (next, value, store)) :
    TablesAfter s (s.tableOps (.vidmap frame locals screenStart)) next := by
  simp only [tableOps, maps]
  rcases vidmap_cases maps with ⟨rfl, rfl⟩ | ⟨base, found, rfl, rfl⟩
  · exact ⟨rfl, rfl, rfl⟩
  · simp only [found]
    exact ⟨rfl, rfl, rfl⟩

end Kernel

/-- The tables change by the operations of the event, and by nothing else. -/
theorem Step.tables {s next : Kernel} {record : Record} (step : Step s record next) :
    TablesAfter s (s.tableOps record.event) next := by
  obtain ⟨before, event, outcome⟩ := record
  obtain ⟨_, _, taken⟩ := step
  dsimp only at taken ⊢
  cases event with
  | execute frame locals commandUser =>
      obtain ⟨result, executes, isNext⟩ := Option.map_eq_some_iff.mp taken
      have after := Kernel.execute_tables executes
      simp only [Kernel.tableOps, executes]
      cases result <;> cases isNext <;> exact after
  | halt frame inner locals status memory =>
      obtain ⟨result, halts, isNext⟩ := Option.map_eq_some_iff.mp taken
      have after := Kernel.halt_tables halts
      cases result <;> cases isNext <;> exact after
  | pit frame locals =>
      obtain ⟨result, ticks, isNext⟩ := Option.map_eq_some_iff.mp taken
      have after := Kernel.pitHandler_tables ticks
      cases result <;> cases isNext <;> exact after
  | key frame inner locals scanCode memory =>
      obtain ⟨result, handles, isNext⟩ := Option.map_eq_some_iff.mp taken
      have after := Kernel.keyboardHandler_tables handles
      cases result <;> cases isNext <;> exact after
  | vidmap frame locals screenStart =>
      obtain ⟨⟨mapped, value, store⟩, maps, isNext⟩ := Option.map_eq_some_iff.mp taken
      cases isNext
      exact Kernel.vidmap_tables maps
  | terminalWrite frame input =>
      obtain ⟨written, writes, isNext⟩ := Option.map_eq_some_iff.mp taken
      cases isNext
      obtain ⟨_, _, rfl⟩ := Option.map_eq_some_iff.mp writes
      exact ⟨rfl, rfl, rfl⟩
  | readStart bytes =>
      simp only [Kernel.step] at taken
      split at taken <;> cases taken <;> exact ⟨rfl, rfl, rfl⟩
  | readLine bytes =>
      cases taken
      exact ⟨rfl, rfl, rfl⟩
  | rtcWrite frequency =>
      cases taken
      exact ⟨rfl, rfl, rfl⟩
  | rtc =>
      obtain ⟨ticked, _, isNext⟩ := Option.map_eq_some_iff.mp taken
      cases isNext
      exact ⟨rfl, rfl, rfl⟩

theorem Kernel.tableOps_cases (s : Kernel) (event : Event) :
    s.tableOps event = [] ∨
      (∃ locals pid, event.locals? = some locals ∧
        s.tableOps event = userPageOps locals pid) ∨
      (∃ frame locals schedEbp next pid, event = .pit frame locals ∧
        s.pitHandler frame locals = some (.switches schedEbp next) ∧
        s.tableOps event = switchOps locals pid next.pitVideoAddress) ∨
      ∃ frame locals screenStart next store base, event = .vidmap frame locals screenStart ∧
        s.vidmap frame locals screenStart = some (next, 0, store) ∧
        getBaseProcessPcb s.pcb (currentPcb frame.esp) = some base ∧
        s.tableOps event =
          vidmapOps locals s.ptVidmapFrame (s.vidmapAddress (s.pcb base).processId) := by
  cases event with
  | execute frame locals commandUser =>
      simp only [tableOps]
      split
      · exact .inr (.inl ⟨locals, _, rfl, rfl⟩)
      · exact .inl rfl
  | halt frame inner locals status after =>
      simp only [tableOps]
      split
      · exact .inr (.inl ⟨locals, _, rfl, rfl⟩)
      · exact .inr (.inl ⟨locals, _, rfl, rfl⟩)
      · exact .inl rfl
  | pit frame locals =>
      simp only [tableOps]
      split
      case h_1 schedEbp next ticks =>
        split
        case h_1 top found =>
          exact .inr (.inr (.inl ⟨frame, locals, schedEbp, next, _, rfl, ticks, rfl⟩))
        case h_2 => exact .inl rfl
      case h_2 => exact .inl rfl
  | key frame inner locals scanCode after =>
      simp only [tableOps]
      split
      · exact .inr (.inl ⟨locals, _, rfl, rfl⟩)
      · exact .inl rfl
  | vidmap frame locals screenStart =>
      simp only [tableOps]
      split
      case h_1 next store maps =>
        split
        case h_1 base found =>
          exact .inr (.inr (.inr ⟨frame, locals, screenStart, next, store, base, rfl, maps,
            found, rfl⟩))
        case h_2 => exact .inl rfl
      case h_2 => exact .inl rfl
  | terminalWrite frame input => exact .inl rfl
  | readStart bytes => exact .inl rfl
  | readLine bytes => exact .inl rfl
  | rtcWrite frequency => exact .inl rfl
  | rtc => exact .inl rfl

theorem Kernel.tableOps_flushed (s : Kernel) (event : Event) (frames : TableFrames) :
    ¬Unflushed ((s.tableOps event).map (TableOp.action frames)) := by
  rcases s.tableOps_cases event with
    none | ⟨locals, pid, _, user⟩ | ⟨_, locals, _, next, pid, _, _, switch⟩ |
    ⟨_, locals, _, next, _, base, _, _, _, vidmap⟩
  · rw [none]
    exact id
  · rw [user]
    exact id
  · rw [switch]
    exact id
  · rw [vidmap]
    exact id

/-- The entry that an operation stores is one of the table. -/
def TableOp.Inside : TableOp → Prop
  | .pdt index _ | .ptVidmap index _ => index < 1024
  | .flushTlb => True

theorem Kernel.tableOps_inside (s : Kernel) (event : Event) :
    ∀ op ∈ s.tableOps event, op.Inside := by
  rcases s.tableOps_cases event with
    none | ⟨locals, pid, _, user⟩ | ⟨_, locals, _, next, pid, _, _, switch⟩ |
    ⟨_, locals, _, next, _, base, _, _, _, vidmap⟩
  · rw [none]
    exact List.forall_mem_nil _
  · rw [user]
    simp [userPageOps, TableOp.Inside]
  · rw [switch]
    simp [switchOps, userPageOps, TableOp.Inside]
  · rw [vidmap]
    simp [vidmapOps, vidPdtIdx, TableOp.Inside]

/-- A table indexed by the ten bits the processor takes from an address. -/
theorem assign_toNat {index : Nat} (inside : index < 1024) (table : Nat → Word) (word : Word)
    (place : BitVec 10) :
    assign table index word place.toNat =
      assign (fun place : BitVec 10 => table place.toNat) (BitVec.ofNat 10 index) word place := by
  have number : (BitVec.ofNat 10 index).toNat = index := by
    rw [BitVec.toNat_ofNat]
    omega
  by_cases here : place = BitVec.ofNat 10 index
  · rw [here, number, assign_self, assign_self]
  · have different : place.toNat ≠ index := by
      intro same
      apply here
      apply BitVec.eq_of_toNat_eq
      rw [same, number]
    rw [assign_of_ne different, assign_of_ne here]

section Stores

variable {frames : TableFrames} {pt0 : Nat → Word} {others : BitVec 20 → BitVec 10 → Word}

theorem TableOp.tables_action {op : TableOp} (inside : op.Inside) (s : Kernel) :
    changeTables [op.action frames] (s.tables frames pt0 others) =
      (s.applyOps [op]).tables frames pt0 others := by
  cases op with
  | flushTlb => rfl
  | pdt index word =>
      change Tables.mk _ _ = Tables.mk _ _
      congr 1
      funext place
      exact (assign_toNat inside s.pdt word place).symm
  | ptVidmap index word =>
      change Tables.mk _ _ = Tables.mk _ _
      congr 1
      funext frame place
      by_cases here : frame = frames.ptVidmap
      · rw [here, assign_self, if_neg frames.apart.symm, if_pos rfl]
        change _ = assign s.ptVidmap index word place.toNat
        rw [assign_toNat inside]
        congr 1
        funext place
        exact (if_neg frames.apart.symm).trans (if_pos rfl)
      · rw [assign_of_ne here, if_neg here]
        change (if frame = frames.pt0 then _ else if frame = frames.ptVidmap then _ else _) = _
        rw [if_neg here]

theorem Kernel.tables_applyOps {ops : List TableOp} (inside : ∀ op ∈ ops, op.Inside)
    (s : Kernel) :
    changeTables (ops.map (TableOp.action frames)) (s.tables frames pt0 others) =
      (s.applyOps ops).tables frames pt0 others := by
  induction ops generalizing s with
  | nil => rfl
  | cons op rest induction =>
      have first := @TableOp.tables_action frames pt0 others _ (inside op List.mem_cons_self) s
      have later := induction (fun other member => inside other (List.mem_cons_of_mem _ member))
        (s.applyOps [op])
      rw [← first] at later
      exact later

end Stores

end LightweightOs
