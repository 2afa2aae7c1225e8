import LightweightOs.Words
import LightweightOs.Library.Chain
import Mathlib.Tactic.IntervalCases

/-!
# Process control blocks and process accounting

A process control block sits at the bottom of its process's 8KB kernel stack,
so a kernel function finds the block of the process it runs for by masking its
stack pointer.  Blocks are linked through `parentPcb` and `childPcb`.
-/

namespace LightweightOs

inductive ReadFunc where
  | null | terminalRead | rtcRead | dirRead | fileRead
  deriving DecidableEq

inductive WriteFunc where
  | null | terminalWrite | rtcWrite | dirWrite | fileWrite
  deriving DecidableEq

inductive OpenFunc where
  | null | terminalOpen | rtcOpen | dirOpen | fileOpen
  deriving DecidableEq

inductive CloseFunc where
  | null | terminalClose | rtcClose | dirClose | fileClose
  deriving DecidableEq

structure FileOperationsTable where
  read : ReadFunc
  write : WriteFunc
  openFile : OpenFunc
  close : CloseFunc
  deriving DecidableEq

structure FileDescriptor where
  operationsTable : FileOperationsTable
  inode : Word
  filePosition : Word
  flags : Word
  deriving DecidableEq

def stdinFd : FileDescriptor :=
  { operationsTable := ⟨.terminalRead, .null, .terminalOpen, .terminalClose⟩
    inode := 0
    filePosition := 0
    flags := 0 }

def stdoutFd : FileDescriptor :=
  { operationsTable := ⟨.null, .terminalWrite, .terminalOpen, .terminalClose⟩
    inode := 0
    filePosition := 0
    flags := 0 }

structure ProcessControlBlock where
  processId : Int
  exitStatus : Word
  files : Nat → FileDescriptor
  args : Nat → Byte
  name : Nat → Byte
  childPcb : Word
  parentPcb : Word
  ebp : Word
  schedEbp : Word

/-- The block at each address. -/
abbrev PcbMemory := Word → ProcessControlBlock

/-- The mask that clears the low 13 bits. -/
def stackMask : Word := 0xFFFFE000#32

/-- The block a kernel function finds from its stack pointer. -/
def currentPcb (esp : Word) : Word := esp &&& stackMask

/-- `BASE_MEM - (pid + 1) * PCB_MEM` -/
def pcbAddr (pid : Int) : Word := baseMem - BitVec.ofInt 32 (pid + 1) * pcbMem

/-- `BASE_MEM - pid * PCB_MEM`: the top of the kernel stack of `pid`. -/
def kernelStackTop (pid : Int) : Word := baseMem - BitVec.ofInt 32 pid * pcbMem

/-- The helper loops may not end on an arbitrary memory; 2^19 steps visit
every 8KB-aligned address. -/
def walkFuel : Nat := 524288

def getTopProcessPcb (pcb : PcbMemory) (startingPcb : Word) : Option Word :=
  Chain.walk (fun address => (pcb address).childPcb) 0 walkFuel startingPcb

def getBaseProcessPcb (pcb : PcbMemory) (startingPcb : Word) : Option Word :=
  Chain.walk (fun address => (pcb address).parentPcb) 0 walkFuel startingPcb

/-- `current_PCB->schedEBP = (void*)saved_ebp` -/
def saveSched (pcb : PcbMemory) (current frameEbp : Word) : PcbMemory :=
  assign pcb current { pcb current with schedEbp := frameEbp }

section SaveSched

variable (pcb : PcbMemory) (current frameEbp address : Word)

@[simp] theorem saveSched_processId :
    (saveSched pcb current frameEbp address).processId = (pcb address).processId := by
  by_cases same : address = current <;> simp [saveSched, same]

@[simp] theorem saveSched_parentPcb :
    (saveSched pcb current frameEbp address).parentPcb = (pcb address).parentPcb := by
  by_cases same : address = current <;> simp [saveSched, same]

@[simp] theorem saveSched_childPcb :
    (saveSched pcb current frameEbp address).childPcb = (pcb address).childPcb := by
  by_cases same : address = current <;> simp [saveSched, same]

@[simp] theorem saveSched_ebp :
    (saveSched pcb current frameEbp address).ebp = (pcb address).ebp := by
  by_cases same : address = current <;> simp [saveSched, same]

theorem saveSched_schedEbp :
    (saveSched pcb current frameEbp address).schedEbp =
      if address = current then frameEbp else (pcb address).schedEbp := by
  by_cases same : address = current <;> simp [saveSched, same]

end SaveSched

section Addresses

variable {pid other : Int}

theorem pcbAddr_toNat (low : 0 ≤ pid) (high : pid ≤ 6) :
    ((pcbAddr pid).toNat : Int) = 0x800000 - (pid + 1) * 0x2000 := by
  interval_cases pid <;> rfl

theorem kernelStackTop_toNat (low : 0 ≤ pid) (high : pid ≤ 6) :
    ((kernelStackTop pid).toNat : Int) = 0x800000 - pid * 0x2000 := by
  interval_cases pid <;> rfl

theorem pcbAddr_ne (low : 0 ≤ pid) (high : pid ≤ 6) (otherLow : 0 ≤ other)
    (otherHigh : other ≤ 6) (different : pid ≠ other) :
    pcbAddr pid ≠ pcbAddr other := by
  intro equality
  have first := pcbAddr_toNat low high
  have second := pcbAddr_toNat otherLow otherHigh
  rw [equality] at first
  omega

theorem pcbAddr_ne_zero (low : 0 ≤ pid) (high : pid ≤ 6) : pcbAddr pid ≠ 0 := by
  intro equality
  have value := pcbAddr_toNat low high
  rw [equality] at value
  simp at value
  omega

theorem ne_zero_of_currentPcb (low : 0 ≤ pid) (high : pid ≤ 6) {frame : Word}
    (own : currentPcb frame = pcbAddr pid) : frame ≠ 0 := by
  intro equality
  apply pcbAddr_ne_zero low high
  rw [← own, equality]
  rfl

theorem currentPcb_kernelStackTop (low : 0 ≤ pid) (high : pid ≤ 6) :
    currentPcb (kernelStackTop pid - 4) = pcbAddr pid := by
  interval_cases pid <;> rfl

end Addresses

structure ProcessTable where
  auxProcesses : Int
  baseShellLiveBitmask : Byte
  baseShellBootedBitmask : Byte
  shellInitBoot : Int
  activeProcesses : Int → Byte

/-- `1 << (terminal - 1)` -/
def terminalBit (terminal : Int) : Byte := 1#8 <<< (terminal - 1).toNat

theorem terminalBit_and {t u : Int} (low : 1 ≤ t) (high : t ≤ 3) (otherLow : 1 ≤ u)
    (otherHigh : u ≤ 3) : terminalBit t &&& terminalBit u ≠ 0 ↔ u = t := by
  interval_cases t <;> interval_cases u <;> decide

theorem or_terminalBit {mask : Byte} {t u : Int} (low : 1 ≤ t) (high : t ≤ 3)
    (otherLow : 1 ≤ u) (otherHigh : u ≤ 3) :
    (mask ||| terminalBit t) &&& terminalBit u ≠ 0 ↔
      mask &&& terminalBit u ≠ 0 ∨ u = t := by
  rw [← terminalBit_and low high otherLow otherHigh, BitVec.and_or_distrib_right]
  exact (not_congr BitVec.or_eq_zero_iff).trans not_and_or

/-- The difference the restart of a base shell looks for: clearing a set bit
leaves exactly that bit. -/
theorem xor_clear_terminalBit {mask : Byte} {t : Int}
    (set : mask &&& terminalBit t ≠ 0) :
    mask ^^^ (mask &&& ~~~(terminalBit t)) = terminalBit t := by
  have bits : mask ^^^ (mask &&& ~~~(terminalBit t)) = mask &&& terminalBit t := by
    apply BitVec.eq_of_getLsbD_eq
    intro i inside
    simp only [BitVec.getLsbD_xor, BitVec.getLsbD_and, BitVec.getLsbD_not]
    cases mask.getLsbD i <;> cases (terminalBit t).getLsbD i <;> simp [inside]
  have single : mask &&& terminalBit t =
      if mask.getLsbD (t - 1).toNat then terminalBit t else 0#8 :=
    BitVec.and_twoPow mask (t - 1).toNat
  rw [bits, single]
  rw [single] at set
  by_cases present : mask.getLsbD (t - 1).toNat = true
  · rw [if_pos present]
  · rw [if_neg present] at set
    exact (set rfl).elim

namespace ProcessTable

/-- The values of the static initialisers. -/
def initial : ProcessTable :=
  { auxProcesses := 0
    baseShellLiveBitmask := 0
    baseShellBootedBitmask := 0
    shellInitBoot := 1
    activeProcesses := fun _ => 0 }

def booted (table : ProcessTable) (terminal : Int) : Prop :=
  table.baseShellBootedBitmask &&& terminalBit terminal ≠ 0

instance (table : ProcessTable) (terminal : Int) :
    Decidable (table.booted terminal) :=
  inferInstanceAs (Decidable (_ ≠ _))

/-- The slot of a process is taken. -/
def live (table : ProcessTable) (pid : Int) : Prop :=
  table.activeProcesses (pid - 1) ≠ 0

/-- The non-zero entries among `active_processes[3..5]`. -/
def auxSlots (activeProcesses : Int → Byte) : Nat :=
  ([3, 4, 5] : List Int).countP fun i => activeProcesses i ≠ 0

/-- What `execute` decides before it checks the limit. -/
structure Choice where
  table : ProcessTable
  nextPid : Int
  baseBoot : Bool

/-- The slot search and the bookkeeping of an auxiliary process.  `nextPid` is
what the uninitialised local holds when no slot is free. -/
def startAux (table : ProcessTable) (nextPid : Int) : Choice :=
  match ([3, 4, 5] : List Int).find? fun i => table.activeProcesses i = 0 with
  | some i =>
      { table :=
          { table with
            activeProcesses := assign table.activeProcesses i 1
            auxProcesses := table.auxProcesses + 1 }
        nextPid := i + 1
        baseBoot := false }
  | none =>
      { table := { table with auxProcesses := table.auxProcesses + 1 }
        nextPid := nextPid + 1
        baseBoot := false }

/-- The first boot of the shell of terminal `shell_init_boot`. -/
def bootBase (table : ProcessTable) : Choice :=
  let booted := table.baseShellBootedBitmask ||| terminalBit table.shellInitBoot
  { table :=
      { table with
        activeProcesses :=
          assign table.activeProcesses (table.shellInitBoot - 1) 1
        baseShellBootedBitmask := booted
        baseShellLiveBitmask := booted
        shellInitBoot := 0 }
    nextPid := table.shellInitBoot
    baseBoot := true }

/-- The restart of the base shell whose bit is `shellToReboot`. -/
def rebootBase (table : ProcessTable) (shellToReboot : Byte) (nextPid : Int) :
    Choice :=
  { table :=
      { table with baseShellLiveBitmask := table.baseShellBootedBitmask }
    nextPid :=
      if shellToReboot = 1 then 1
      else if shellToReboot = 2 then 2
      else if shellToReboot = 4 then 3
      else nextPid
    baseBoot := true }

/-- The three branches of `execute` that pick a process identifier. -/
def choosePid (table : ProcessTable) (isShell : Bool) (nextPid : Int) : Choice :=
  if isShell then
    if table.shellInitBoot ≠ 0 then table.bootBase
    else
      let shellToReboot :=
        table.baseShellBootedBitmask ^^^ table.baseShellLiveBitmask
      if shellToReboot ≠ 0 then table.rebootBase shellToReboot nextPid
      else table.startAux nextPid
  else table.startAux nextPid

section Slots

variable {activeProcesses : Int → Byte} {i : Int}

theorem auxSlots_le : auxSlots activeProcesses ≤ 3 :=
  List.countP_le_length

theorem auxSlots_take (slot : i ∈ ([3, 4, 5] : List Int))
    (free : activeProcesses i = 0) :
    auxSlots (assign activeProcesses i 1) = auxSlots activeProcesses + 1 := by
  simp only [List.mem_cons, List.not_mem_nil, or_false] at slot
  rcases slot with rfl | rfl | rfl <;>
    simp [auxSlots, List.countP_cons, free] <;> omega

theorem auxSlots_release (slot : i ∈ ([3, 4, 5] : List Int))
    (taken : activeProcesses i ≠ 0) :
    auxSlots (assign activeProcesses i 0) + 1 = auxSlots activeProcesses := by
  have taken : ¬activeProcesses i = 0#8 := taken
  simp only [List.mem_cons, List.not_mem_nil, or_false] at slot
  rcases slot with rfl | rfl | rfl <;>
    simp [auxSlots, List.countP_cons, taken] <;> omega

theorem auxSlots_base (value : Byte) (slot : i ∉ ([3, 4, 5] : List Int)) :
    auxSlots (assign activeProcesses i value) = auxSlots activeProcesses := by
  apply List.countP_congr
  intro j member
  have different : j ≠ i := by
    intro equality
    exact slot (equality ▸ member)
  simp [different]

end Slots

section StartAux

variable {table : ProcessTable} {nextPid : Int}

theorem startAux_full
    (full : ([3, 4, 5] : List Int).find? (fun i => table.activeProcesses i = 0)
      = none) :
    auxSlots table.activeProcesses = 3 ∧
      table.startAux nextPid =
        { table := { table with auxProcesses := table.auxProcesses + 1 }
          nextPid := nextPid + 1
          baseBoot := false } := by
  constructor
  · have taken := List.find?_eq_none.mp full
    apply List.countP_eq_length.mpr
    intro i member
    simpa using taken i member
  · simp only [startAux, full]

theorem startAux_free {i : Int}
    (found : ([3, 4, 5] : List Int).find? (fun i => table.activeProcesses i = 0)
      = some i) :
    i ∈ ([3, 4, 5] : List Int) ∧ table.activeProcesses i = 0 ∧
      table.startAux nextPid =
        { table :=
            { table with
              activeProcesses := assign table.activeProcesses i 1
              auxProcesses := table.auxProcesses + 1 }
          nextPid := i + 1
          baseBoot := false } := by
  refine ⟨List.mem_of_find?_eq_some found, ?_, by simp only [startAux, found]⟩
  simpa using List.find?_some found

end StartAux

/-- A base shell whose live bit was cleared is the one that is rebooted, and
the table is as it was. -/
theorem choosePid_restart {table : ProcessTable} {t nextPid : Int}
    (low : 1 ≤ t) (high : t ≤ 3) (initBoot : table.shellInitBoot = 0)
    (liveMask : table.baseShellLiveBitmask = table.baseShellBootedBitmask)
    (booted : table.booted t) :
    ({ table with
        baseShellLiveBitmask :=
          table.baseShellLiveBitmask &&& ~~~(terminalBit t) } : ProcessTable).choosePid
      true nextPid =
      { table := table, nextPid := t, baseBoot := true } := by
  have difference := xor_clear_terminalBit booted
  have nonzero : terminalBit t ≠ 0 := by
    interval_cases t <;> decide
  simp only [choosePid, if_true, initBoot, ne_eq, not_true_eq_false, if_false,
    liveMask, difference, nonzero, not_false_eq_true, rebootBase]
  have chosen : (if terminalBit t = 1 then 1 else if terminalBit t = 2 then 2
      else if terminalBit t = 4 then 3 else nextPid) = t := by
    interval_cases t <;> simp [terminalBit]
  rw [chosen]
  cases table
  simp only at initBoot liveMask
  subst initBoot liveMask
  rfl

end ProcessTable

end LightweightOs
