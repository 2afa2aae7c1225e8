import LightweightOs.System
import Mathlib.Order.CompletePartialOrder
import Mathlib.Order.Interval.Set.Disjoint

/-!
# Page mapping and kernel stacks

After every step the user page, the stack top and the block found by masking
the stack pointer all belong to the process that runs, and different processes
never share a page frame or a kernel stack block.
-/

namespace LightweightOs

open Transition

/-- The value of `address_22_31` for the page of a process. -/
def userFrame (pid : Int) : BitVec 10 := BitVec.ofInt 10 (pid + 1)

/-- The physical addresses of a 4MB page frame. -/
def frameAddresses (frame : BitVec 10) : Set Nat :=
  Set.Ico (frame.toNat * 0x400000) ((frame.toNat + 1) * 0x400000)

/-- The 8KB that hold the block of a process and, above it, its kernel
stack. -/
def stackBlock (pid : Int) : Set Nat :=
  Set.Ico (pcbAddr pid).toNat (kernelStackTop pid).toNat

structure Mapped (s : Kernel) (p : Int) : Prop where
  frame : pageFrame (s.pdt 32) = userFrame p
  present : present (s.pdt 32) = 1
  user : userAccess (s.pdt 32) = 1
  size : pageSize (s.pdt 32) = 1
  esp0 : s.tssEsp0 = 0x800000#32 - BitVec.ofInt 32 p * 0x2000#32
  masks : ∀ esp : Word,
    0x800000 - (p + 1) * 0x2000 < (esp.toNat : Int) →
      (esp.toNat : Int) < 0x800000 - p * 0x2000 → currentPcb esp = pcbAddr p
  own : (s.pcb (pcbAddr p)).processId = p

structure AddressSpaces (s : Kernel) : Prop where
  running : Mapped s s.runningPid
  live : s.table.live s.runningPid
  apart : ∀ p q, 1 ≤ p → p ≤ 6 → 1 ≤ q → q ≤ 6 → s.table.live p →
    s.table.live q → p ≠ q →
      Disjoint (frameAddresses (userFrame p)) (frameAddresses (userFrame q)) ∧
        Disjoint (stackBlock p) (stackBlock q)
  /-- Kernel stacks lie in the kernel's own frame. -/
  kernel : ∀ p, 1 ≤ p → p ≤ 6 → s.table.live p →
    stackBlock p ⊆ frameAddresses 1 ∧ userFrame p ≠ 0 ∧ userFrame p ≠ 1

section Masks

variable {p : Int}

theorem currentPcb_toNat (esp : Word) :
    (currentPcb esp).toNat = esp.toNat / 0x2000 * 0x2000 := by
  have shifted : currentPcb esp = esp >>> 13 <<< 13 := by
    apply BitVec.eq_of_getLsbD_eq
    intro i inside
    have mask : stackMask.getLsbD i = decide (13 ≤ i) := by
      revert i
      decide
    by_cases low : i < 13
    · have notHigh : ¬13 ≤ i := by omega
      simp [currentPcb, mask, low, notHigh]
    · have high : 13 ≤ i := by omega
      have back : 13 + (i - 13) = i := by omega
      simp [currentPcb, mask, low, high, inside, back]
  rw [shifted, BitVec.toNat_shiftLeft, BitVec.toNat_ushiftRight, Nat.shiftLeft_eq,
    Nat.shiftRight_eq_div_pow]
  have bound := esp.isLt
  omega

theorem currentPcb_of_within (low : 0 ≤ p) (high : p ≤ 6) {esp : Word}
    (above : 0x800000 - (p + 1) * 0x2000 < (esp.toNat : Int))
    (below : (esp.toNat : Int) < 0x800000 - p * 0x2000) :
    currentPcb esp = pcbAddr p := by
  apply BitVec.eq_of_toNat_eq
  have rounded := currentPcb_toNat esp
  have address := pcbAddr_toNat low high
  omega

end Masks

section Regions

variable {p q : Int}

theorem userFrame_toNat (low : 1 ≤ p) (high : p ≤ 6) :
    ((userFrame p).toNat : Int) = p + 1 := by
  interval_cases p <;> rfl

theorem frameAddresses_disjoint {first second : BitVec 10}
    (different : first ≠ second) :
    Disjoint (frameAddresses first) (frameAddresses second) := by
  have apart : first.toNat ≠ second.toNat := by
    intro equality
    exact different (BitVec.eq_of_toNat_eq equality)
  apply Set.disjoint_left.mpr
  intro address inFirst inSecond
  simp only [frameAddresses, Set.mem_Ico] at inFirst inSecond
  omega

theorem userFrame_ne (lowP : 1 ≤ p) (highP : p ≤ 6) (lowQ : 1 ≤ q) (highQ : q ≤ 6)
    (different : p ≠ q) : userFrame p ≠ userFrame q := by
  intro equality
  have first := userFrame_toNat lowP highP
  have second := userFrame_toNat lowQ highQ
  rw [equality] at first
  omega

theorem stackBlock_disjoint (lowP : 1 ≤ p) (highP : p ≤ 6) (lowQ : 1 ≤ q)
    (highQ : q ≤ 6) (different : p ≠ q) :
    Disjoint (stackBlock p) (stackBlock q) := by
  have bottomP := @pcbAddr_toNat p (by omega) highP
  have topP := @kernelStackTop_toNat p (by omega) highP
  have bottomQ := @pcbAddr_toNat q (by omega) highQ
  have topQ := @kernelStackTop_toNat q (by omega) highQ
  apply Set.disjoint_left.mpr
  intro address inP inQ
  simp only [stackBlock, Set.mem_Ico] at inP inQ
  omega

theorem stackBlock_subset (low : 1 ≤ p) (high : p ≤ 6) :
    stackBlock p ⊆ frameAddresses 1 := by
  have bottom := @pcbAddr_toNat p (by omega) high
  have top := @kernelStackTop_toNat p (by omega) high
  intro address inside
  simp only [stackBlock, frameAddresses, Set.mem_Ico] at inside ⊢
  have one : (1 : BitVec 10).toNat = 1 := rfl
  omega

end Regions

namespace Represents

variable {a : Session} {s : Kernel}

theorem mapped (represents : Represents s a) : Mapped s s.runningPid := by
  have running := represents.runningPid
  have runs := represents.runs s.runningPid running
  have live : a.Live s.runningPid := ⟨a.current, List.mem_of_mem_head? running⟩
  have range := represents.numbered.range live
  obtain ⟨page, entry⟩ := runs.mapped
  constructor
  case frame =>
    rw [entry, pageFrame_pdtEntryPageSetup, userFrame]
    generalize s.runningPid = p at range
    obtain ⟨low, high⟩ := range
    interval_cases p <;> rfl
  case present => rw [entry, present_pdtEntryPageSetup]
  case user => rw [entry, userAccess_pdtEntryPageSetup]; rfl
  case size => rw [entry, pageSize_pdtEntryPageSetup]
  case esp0 => exact runs.stackTop
  case masks =>
    intro esp above below
    exact currentPcb_of_within (by omega) range.2 above below
  case own => exact represents.links.named _ live

theorem addressSpaces (represents : Represents s a) : AddressSpaces s where
  running := represents.mapped
  live := by
    have live : a.Live s.runningPid :=
      ⟨a.current, List.mem_of_mem_head? represents.runningPid⟩
    have range := represents.numbered.range live
    exact (represents.accounts.slots _ range.1 range.2).mpr live
  apart := by
    intro p q lowP highP lowQ highQ _ _ different
    exact ⟨frameAddresses_disjoint (userFrame_ne lowP highP lowQ highQ different),
      stackBlock_disjoint lowP highP lowQ highQ different⟩
  kernel := by
    intro p low high _
    refine ⟨stackBlock_subset low high, ?_, ?_⟩ <;> intro equality <;>
      have value := userFrame_toNat low high <;> rw [equality] at value <;>
        simp at value <;> omega

end Represents

theorem address_spaces {start s : Kernel} {history : List Record}
    (booted : Booted start) (run : Run Step start history s) : AddressSpaces s := by
  obtain ⟨_, _, represents⟩ := booted.run run
  exact represents.addressSpaces

theorem address_spaces_sampleTour :
    ∃ history final, Run Step sampleStart history final ∧ history.length = 6 ∧
      AddressSpaces final := by
  obtain ⟨history, final, run, length⟩ := sampleTour_run
  exact ⟨history, final, run, length, address_spaces sampleStart_booted run⟩

end LightweightOs
