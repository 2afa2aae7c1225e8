import LightweightOs.AddressTranslation

/-!
# What user mode gets at

The physical memory that a running program can touch is the 4MB frame of its
process, and the video page from the first successful `vidmap` of any process
on.  The kernel, its page tables and stacks, and the frames of the other
processes stay out of reach as long as the words on the stack that the entry
builders keep are clean; one word that is not opens the kernel to every program.
-/

namespace LightweightOs

open PageWalk Transition

/-- Some address leads user mode to a physical one. -/
def PagedKernel.UserReaches (m : PagedKernel) (physical : Nat) : Prop :=
  ∃ linear target, m.mmu.Translates linear target ∧ target.user = true ∧
    target.physical = physical

/-- A running program is confined; `video` says that `vidmap` has returned 0. -/
structure Isolated (m : PagedKernel) (video : Bool) : Prop where
  reach : ∀ physical, m.UserReaches physical ↔
    physical ∈ frameAddresses (userFrame m.kernel.runningPid) ∨
      ∃ frame, m.kernel.videoPage video = some frame ∧ physical / 0x1000 = frame.toNat
  video : ∀ frame, m.kernel.videoPage video = some frame → frame ∈ videoFrames
  kernel : ∀ physical, m.UserReaches physical → physical ∉ frameAddresses 1
  others : ∀ p, 1 ≤ p → p ≤ 6 → m.kernel.table.live p → p ≠ m.kernel.runningPid →
    ∀ physical, m.UserReaches physical → physical ∉ frameAddresses (userFrame p)

section AddressMap

variable {pid : Int} {page : Option (BitVec 20)} {physical : Nat}

end AddressMap

section Runs

variable {frames : TableFrames} {pt0 : Nat → Word} {others : BitVec 20 → BitVec 10 → Word}
  {start m : PagedKernel} {history : List (MemoryEntry × List MmuEvent)}

end Runs

def sampleFrames : TableFrames := ⟨0x401, 0x400, by decide⟩

/-- `setup_kernel_paging` on a clean stack. -/
def sampleTables : KernelTables :=
  (⟨fun _ => 0, fun _ => 0⟩ : KernelTables).setupKernelPaging 0x401000#32 ⟨0, 0, 0, 0, 0, 0⟩

def samplePagedPre : Kernel := { samplePre with pdt := sampleTables.pdt }

/-- The machine after its first `execute`. -/
def samplePagedStart : Kernel :=
  samplePagedPre.install (sampleFrame 0) sampleLocals ProcessTable.initial.bootBase
    (localCommand sampleCommand)

theorem samplePagedPre_preBoot : PreBoot samplePagedPre where
  table := rfl
  curProcess := rfl
  onStack := samplePre_onStack
  tty := ⟨sampleTty, rfl⟩
  rtc := rfl
  shell := sampleFs_validShell

/-- The machine with nothing kept from its tables. -/
def samplePaged : PagedKernel where
  kernel := samplePagedStart
  mmu := ⟨samplePagedStart.tables sampleFrames sampleTables.pt0 fun _ _ => 0, ∅⟩

theorem samplePaged_begins :
    PagedStart sampleFrames sampleTables.pt0 (fun _ _ => 0) samplePaged := by
  obtain ⟨started, _, executes⟩ := samplePagedPre_preBoot.executes (sampleFrame 0)
    sampleLocals fun _ => 0
  obtain ⟨esp, ebp⟩ := sampleFrame_onStack
  have booted : Booted samplePagedStart :=
    ⟨_, _, _, fun _ => 0, started, samplePagedPre_preBoot, ⟨esp, ebp⟩, executes⟩
  have before : PagedBefore sampleFrames sampleTables.pt0 samplePagedPre :=
    ⟨⟨0x401000#32, ⟨0, 0, 0, 0, 0, 0⟩, by decide, by decide, rfl⟩, fun _ => rfl, rfl⟩
  exact
    { boot := ⟨booted, _, _, _, _, _, before, executes, by decide⟩
      tables := rfl
      coherent := fun _ _ member => member.elim }

instance (action : MemoryAction) : Decidable (CleanStack action) :=
  inferInstanceAs (Decidable (∀ event ∈ _, ∀ locals ∈ _, _))

/-- A page-size bit left on the stack lets every program at the kernel. -/
theorem memory_isolation_dirtyStack :
    ¬∀ frames pt0 others start history m, PagedStart frames pt0 others start →
      Run (PagedStep frames) start history m → Isolated m (videoMapped history) := by
  intro isolated
  obtain ⟨entries, final, run, outside, isEntry⟩ :=
    @exists_run_of_replay _ _ _ _ _ Kernel.advanceInMemory_acts samplePagedStart
      [.act (.event (.vidmap (sampleFrame 1) { sampleLocals with vidmem := 0x80#32 }
        0x8000000#32)) 0]
      (fun entries final => (∀ entry ∈ entries, entry.OutsideKernel) ∧
        final.pdt vidPdtIdx = vidmapTableEntry 0x80#32 0x400#20) _ (by decide +kernel)
  have guarded : Run ActsOutside samplePagedStart entries final :=
    run.guarded fun entry member _ => outside entry member
  obtain ⟨history, mmu, paged, _⟩ := PagedStep.exists_run guarded sampleFrames samplePaged.mmu
  have tables : mmu.tables = final.tables sampleFrames sampleTables.pt0 fun _ _ => 0 := by
    have kept : ∀ (m : PagedKernel) event next,
        m.mmu.tables = m.kernel.tables sampleFrames sampleTables.pt0 (fun _ _ => 0) →
        PagedStep sampleFrames m event next →
          next.mmu.tables =
            next.kernel.tables sampleFrames sampleTables.pt0 fun _ _ => 0 := by
      intro m event next tables step
      exact step.tables tables
    exact paged.invariant kept rfl
  have entry : mmu.tables.directory (directoryIndex 0x8800000#32) =
      vidmapTableEntry 0x80#32 0x400#20 := by
    rw [tables, ← isEntry]
    rfl
  have walks := Tables.walk_of_large entry (by decide) (by decide) (by decide)
  have reaches : PagedKernel.UserReaches ⟨final, mmu⟩ 0x400000 :=
    ⟨_, _, .inr walks, by decide, by decide⟩
  apply (isolated _ _ _ _ _ _ samplePaged_begins paged).kernel _ reaches
  simp only [frameAddresses, Set.mem_Ico]
  decide

end LightweightOs
