import LightweightOs.SystemCalls
import LightweightOs.Library.BitField

/-!
# The interrupt descriptor table

`setup_IDT` builds every gate in one local, whose reserved byte nothing assigns,
and copies it into the table; the gate of the system calls differs from the
others in its type and in the privilege that may use it.  The processor enters
the linkage of a vector through its gate, and finds no gate for any other
vector.
-/

namespace LightweightOs

open BitField

/-- The labels of the linkages in `x86_desc.S`. -/
inductive LinkageLabel where
  | divisionError | debug | nmi | breakpoint | overflow | boundRangeInterrupt
  | invalidOpcode | deviceNotAvalible | doubleFault | coprocessorOverrun | invalidTss
  | segmentNotPresent | stackSegfault | generalProtectionFault | pageFault | assertFault
  | x87FloatingPoint | alignmentCheck | machineCheck | simdFloatingPoint
  | keyboard | rtc | pit | systemCall
  deriving DecidableEq

/-- The arguments `vector` and `has_error_code` of `INT_LINKAGE`. -/
structure IntLinkage where
  vector : Word
  hasErrorCode : Word

/-- `error_code` -/
def errorCode : Word := 4#32

/-- `no_error_code` -/
def noErrorCode : Word := 0#32

/-- The uses of `INT_LINKAGE`; `system_call_linkage` is none. -/
def LinkageLabel.intLinkage : LinkageLabel → Option IntLinkage
  | rtc => some ⟨0x28, noErrorCode⟩
  | keyboard => some ⟨0x21, noErrorCode⟩
  | pit => some ⟨0x20, noErrorCode⟩
  | divisionError => some ⟨0x0, noErrorCode⟩
  | debug => some ⟨0x1, noErrorCode⟩
  | nmi => some ⟨0x2, noErrorCode⟩
  | breakpoint => some ⟨0x3, noErrorCode⟩
  | overflow => some ⟨0x4, noErrorCode⟩
  | boundRangeInterrupt => some ⟨0x5, noErrorCode⟩
  | invalidOpcode => some ⟨0x6, noErrorCode⟩
  | deviceNotAvalible => some ⟨0x7, noErrorCode⟩
  | doubleFault => some ⟨0x8, errorCode⟩
  | coprocessorOverrun => some ⟨0x9, noErrorCode⟩
  | invalidTss => some ⟨0xA, errorCode⟩
  | segmentNotPresent => some ⟨0xB, errorCode⟩
  | stackSegfault => some ⟨0xC, errorCode⟩
  | generalProtectionFault => some ⟨0xD, errorCode⟩
  | pageFault => some ⟨0xE, errorCode⟩
  | assertFault => some ⟨0xF, noErrorCode⟩
  | x87FloatingPoint => some ⟨0x10, noErrorCode⟩
  | alignmentCheck => some ⟨0x11, errorCode⟩
  | machineCheck => some ⟨0x12, errorCode⟩
  | simdFloatingPoint => some ⟨0x13, errorCode⟩
  | systemCall => none

/-- `KERNEL_CS` -/
def kernelCs : BitVec 16 := 0x10#16

/-- `interrupt` -/
def interruptType : Word := 0xE#32

/-- `trap` -/
def trapType : Word := 0xF#32

/-- `idt_desc_t`, as one word of 64 bits. -/
abbrev IdtDesc := BitVec 64

/-- `SET_IDT_ENTRY` -/
def setIdtEntry (str : IdtDesc) (handler : Word) : IdtDesc :=
  -- offset_31_16
  let str := setField str 48 (((handler &&& 0xFFFF0000#32) >>> 16).setWidth 16)
  setField str 0 ((handler &&& 0xFFFF#32).setWidth 16)                 -- offset_15_00

/-- `set_IDT_entry_metadata`; `reserved4` is left as it is. -/
def setIdtEntryMetadata (entry : IdtDesc) (type : Word) : IdtDesc :=
  let entry := setField entry 16 kernelCs                              -- seg_selector
  let entry := setField entry 40 ((type &&& 1).setWidth 1)             -- reserved3
  let entry := setField entry 41 (((type.sshiftRight 1) &&& 1).setWidth 1) -- reserved2
  let entry := setField entry 42 (((type.sshiftRight 2) &&& 1).setWidth 1) -- reserved1
  let entry := setField entry 43 (((type.sshiftRight 3) &&& 1).setWidth 1) -- size
  let entry := setField entry 44 0#1                                   -- reserved0
  let entry := setField entry 45 0#2                                   -- dpl
  setField entry 47 1#1                                                -- present

/-- The local of `setup_IDT` and the table. -/
structure IdtSetup where
  entry : IdtDesc
  idt : Byte → IdtDesc

/-- One entry of `setup_IDT`. -/
def IdtSetup.install (setup : IdtSetup) (handler type : Word) (vector : Byte) : IdtSetup :=
  let entry := setIdtEntryMetadata (setIdtEntry setup.entry handler) type
  { entry := entry, idt := assign setup.idt vector entry }

/-- The interrupt gates, in the order of `setup_IDT`. -/
def interruptGates : List (LinkageLabel × Byte) :=
  [(.divisionError, 0x0), (.debug, 0x1), (.nmi, 0x2), (.breakpoint, 0x3), (.overflow, 0x4),
    (.boundRangeInterrupt, 0x5), (.invalidOpcode, 0x6), (.deviceNotAvalible, 0x7),
    (.doubleFault, 0x8), (.coprocessorOverrun, 0x9), (.invalidTss, 0xA),
    (.segmentNotPresent, 0xB), (.stackSegfault, 0xC), (.generalProtectionFault, 0xD),
    (.pageFault, 0xE), (.assertFault, 0xF), (.x87FloatingPoint, 0x10),
    (.alignmentCheck, 0x11), (.machineCheck, 0x12), (.simdFloatingPoint, 0x13),
    (.keyboard, 0x21), (.rtc, 0x28), (.pit, 0x20)]

section Setup

variable (address : LinkageLabel → Word)

def IdtSetup.installAll (setup : IdtSetup) (gates : List (LinkageLabel × Byte)) : IdtSetup :=
  gates.foldl (fun setup gate => setup.install (address gate.1) interruptType gate.2) setup

/-- `setup_IDT`, with the addresses of the linkages. -/
def IdtSetup.setupIdt (setup : IdtSetup) : IdtSetup :=
  let setup := setup.installAll address interruptGates
  let entry := setIdtEntryMetadata (setIdtEntry setup.entry (address .systemCall)) trapType
  let entry := setField entry 45 3#2                                   -- dpl
  { entry := entry, idt := assign setup.idt 0x80 entry }

end Setup

/-- What the processor makes of an entry. -/
structure Gate where
  offset : Word
  selector : BitVec 16
  /-- A trap gate leaves the interrupts as they are. -/
  isTrap : Bool
  dpl : BitVec 2
  deriving DecidableEq

/-- The gates of 32-bit code; the processor refuses any other entry. -/
def IdtDesc.gate (entry : IdtDesc) : Option Gate :=
  if field entry 47 1 = 1#1 ∧ field entry 44 1 = 0#1 ∧ field entry 43 1 = 1#1 ∧
      field entry 42 1 = 1#1 ∧ field entry 41 1 = 1#1 then
    some
      { offset := field entry 48 16 ++ field entry 0 16
        selector := field entry 16 16
        isTrap := field entry 40 1 = 1#1
        dpl := field entry 45 2 }
  else none

/-- The gate that the kernel means for a label. -/
def LinkageLabel.gate (address : LinkageLabel → Word) (label : LinkageLabel) : Gate where
  offset := address label
  selector := kernelCs
  isTrap := label = .systemCall
  dpl := if label = .systemCall then 3 else 0

theorem setWidth_halves (word : Word) :
    ((word &&& 0xFFFF0000#32) >>> 16).setWidth 16 ++ (word &&& 0xFFFF#32).setWidth 16 =
      word := by
  have low : (word &&& 0xFFFF#32).setWidth 16 = word.setWidth 16 := by
    rw [BitVec.setWidth_and]
    exact BitVec.and_allOnes
  have high : ((word &&& 0xFFFF0000#32) >>> 16).setWidth 16 = (word >>> 16).setWidth 16 := by
    rw [BitVec.ushiftRight_and_distrib, BitVec.setWidth_and]
    exact BitVec.and_allOnes
  rw [low, high]
  apply BitVec.eq_of_getLsbD_eq
  intro index inside
  rw [BitVec.getLsbD_append]
  by_cases below : index < 16
  · simp [below]
  · have distance : index - 16 < 16 := by omega
    have same : 16 + (index - 16) = index := by omega
    simp [below, distance, same]

theorem gate_installed (entry : IdtDesc) (handler : Word) :
    IdtDesc.gate (setIdtEntryMetadata (setIdtEntry entry handler) interruptType) =
      some ⟨handler, kernelCs, false, 0⟩ := by
  simp [IdtDesc.gate, setIdtEntryMetadata, setIdtEntry, interruptType,
    field_setField_of_disjoint, setWidth_halves, -BitVec.setWidth_and]

theorem gate_systemCall (entry : IdtDesc) (handler : Word) :
    IdtDesc.gate
        (setField (setIdtEntryMetadata (setIdtEntry entry handler) trapType) 45 3#2) =
      some ⟨handler, kernelCs, true, 3⟩ := by
  simp [IdtDesc.gate, setIdtEntryMetadata, setIdtEntry, trapType,
    field_setField_of_disjoint, setWidth_halves, -BitVec.setWidth_and]

section Installed

variable {address : LinkageLabel → Word} {setup : IdtSetup} {vector : Byte}
  {label : LinkageLabel} {gates : List (LinkageLabel × Byte)}

theorem IdtSetup.installAll_of_not_mem (absent : vector ∉ gates.map Prod.snd) :
    (setup.installAll address gates).idt vector = setup.idt vector := by
  induction gates generalizing setup with
  | nil => rfl
  | cons gate gates induction =>
      rw [List.map_cons, List.mem_cons, not_or] at absent
      apply (induction absent.2).trans
      exact assign_of_ne absent.1 setup.idt _

/-- The gate of a vector stays, since no later one names the vector again. -/
theorem IdtSetup.installAll_of_mem (distinct : (gates.map Prod.snd).Nodup)
    (member : (label, vector) ∈ gates) :
    IdtDesc.gate ((setup.installAll address gates).idt vector) =
      some ⟨address label, kernelCs, false, 0⟩ := by
  induction gates generalizing setup with
  | nil => cases member
  | cons gate gates induction =>
      rw [List.map_cons, List.nodup_cons] at distinct
      cases member with
      | head =>
          have stays := @installAll_of_not_mem address
            (setup.install (address label) interruptType vector) _ _ distinct.1
          apply (congrArg IdtDesc.gate stays).trans
          apply (congrArg IdtDesc.gate (assign_self setup.idt vector _)).trans
          exact gate_installed setup.entry (address label)
      | tail _ later => exact induction distinct.2 later

/-- The label whose gate `setup_IDT` puts at a vector. -/
def linkageOf (vector : Byte) : Option LinkageLabel :=
  if vector = 0x80 then some .systemCall
  else (interruptGates.find? fun gate => gate.2 = vector).map Prod.fst

theorem mem_of_linkageOf (isLabel : linkageOf vector = some label) (other : vector ≠ 0x80) :
    (label, vector) ∈ interruptGates := by
  rw [linkageOf, if_neg other] at isLabel
  obtain ⟨⟨found, at'⟩, isFound, rfl⟩ := Option.map_eq_some_iff.mp isLabel
  have here := List.find?_some isFound
  rw [decide_eq_true_eq] at here
  rw [← here]
  exact List.mem_of_find?_eq_some isFound

theorem not_mem_of_linkageOf (noLabel : linkageOf vector = none) :
    vector ≠ 0x80 ∧ vector ∉ interruptGates.map Prod.snd := by
  rw [linkageOf] at noLabel
  split at noLabel
  case isTrue => cases noLabel
  case isFalse other =>
    refine ⟨other, ?_⟩
    intro member
    obtain ⟨gate, isGate, rfl⟩ := List.mem_map.mp member
    have absent := List.find?_eq_none.mp (Option.map_eq_none_iff.mp noLabel) gate isGate
    exact absent (decide_eq_true rfl)

theorem interruptGates_nodup : (interruptGates.map Prod.snd).Nodup := by decide

theorem systemCall_not_mem : ∀ gate ∈ interruptGates, gate.1 ≠ .systemCall := by decide

theorem IdtSetup.gate_setupIdt (address : LinkageLabel → Word) (setup : IdtSetup)
    (vector : Byte) :
    IdtDesc.gate ((setup.setupIdt address).idt vector) =
      ((linkageOf vector).map (LinkageLabel.gate address)).or
        (IdtDesc.gate (setup.idt vector)) := by
  by_cases isSystemCall : vector = 0x80
  · subst isSystemCall
    apply (congrArg IdtDesc.gate (assign_self (setup.installAll address interruptGates).idt
      0x80 _)).trans
    exact gate_systemCall _ _
  · have elsewhere : (setup.setupIdt address).idt vector =
        (setup.installAll address interruptGates).idt vector :=
      assign_of_ne isSystemCall _ _
    rw [elsewhere]
    cases isLabel : linkageOf vector with
    | none =>
        have absent := (not_mem_of_linkageOf isLabel).2
        rw [installAll_of_not_mem absent]
        rfl
    | some label =>
        have member := mem_of_linkageOf isLabel isSystemCall
        have notSystemCall : label ≠ .systemCall := systemCall_not_mem _ member
        rw [installAll_of_mem interruptGates_nodup member, Option.map_some, Option.some_or,
          LinkageLabel.gate]
        simp only [if_neg notSystemCall, decide_eq_false notSystemCall]

end Installed

/-- What makes the processor use a gate. -/
inductive Cause where
  | device
  /-- An exception, with the code it pushes if it is one that does. -/
  | exception (code : Word)
  /-- `int` -/
  | instruction
  deriving DecidableEq

/-- The exceptions that push an error code. -/
def pushesErrorCode (vector : Byte) : Bool :=
  [0x8#8, 0xA#8, 0xB#8, 0xC#8, 0xD#8, 0xE#8, 0x11#8, 0x15#8].contains vector

/-- The processor at the first instruction of a linkage. -/
structure Entered where
  selector : BitVec 16
  eip : Word
  cpu : Linkage.Cpu

namespace Linkage.Context

/-- IF, the flag for interrupts of devices. -/
def interruptFlag : Word := 0x200#32

/-- The devices may interrupt. -/
def Interruptible (context : Context) : Prop := context.eflags &&& interruptFlag ≠ 0

instance (context : Context) : Decidable context.Interruptible :=
  inferInstanceAs (Decidable (_ ≠ _))

/-- An interrupt gate clears IF too. -/
def throughGate (context : Context) (tss : Tss) (memory : Word → Byte) (isTrap : Bool) : Cpu :=
  let cpu := context.interrupt tss memory
  if isTrap then cpu else { cpu with eflags := cpu.eflags &&& ~~~interruptFlag }

/-- With the error code. -/
def entry (context : Context) (tss : Tss) (memory : Word → Byte) (isTrap : Bool)
    (vector : Byte) : Cause → Cpu
  | .exception code =>
      if pushesErrorCode vector then (context.throughGate tss memory isTrap).push code
      else context.throughGate tss memory isTrap
  | .device | .instruction => context.throughGate tss memory isTrap

/-- The cause may use a gate of this privilege. -/
def May (context : Context) (dpl : BitVec 2) : Cause → Prop
  | .device => context.Interruptible
  | .exception _ => True
  | .instruction => context.cs &&& 3 ≤ dpl.setWidth 32

instance (context : Context) (dpl : BitVec 2) (cause : Cause) : Decidable (context.May dpl cause) :=
  match cause with
  | .device => inferInstanceAs (Decidable context.Interruptible)
  | .exception _ => .isTrue trivial
  | .instruction => inferInstanceAs (Decidable (_ ≤ _))

/-- The processor goes through the gate of a vector; without a gate, or without the right to
use it, there is another exception. -/
def deliver (context : Context) (tss : Tss) (memory : Word → Byte) (idt : Byte → IdtDesc)
    (vector : Byte) (cause : Cause) : Option Entered :=
  (IdtDesc.gate (idt vector)).bind fun gate =>
    if context.May gate.dpl cause then
      some ⟨gate.selector, gate.offset, context.entry tss memory gate.isTrap vector cause⟩
    else none

/-- The cause gets to the linkage of a label. -/
def Reaches (context : Context) (label : LinkageLabel) : Cause → Prop
  | .device => context.Interruptible
  | .exception _ => True
  | .instruction => context.Privileged ∨ label = .systemCall

instance (context : Context) (label : LinkageLabel) (cause : Cause) :
    Decidable (context.Reaches label cause) :=
  match cause with
  | .device => inferInstanceAs (Decidable context.Interruptible)
  | .exception _ => .isTrue trivial
  | .instruction => inferInstanceAs (Decidable (_ ∨ _))

theorem may_iff_reaches (context : Context) (address : LinkageLabel → Word)
    (label : LinkageLabel) (cause : Cause) :
    context.May (label.gate address).dpl cause ↔ context.Reaches label cause := by
  cases cause with
  | device => rfl
  | exception code => rfl
  | instruction =>
      have small : (context.cs &&& 3).toNat ≤ 3 := by
        rw [BitVec.toNat_and]
        exact Nat.and_le_right
      rw [May, Reaches, Privileged, LinkageLabel.gate, BitVec.le_def, ← BitVec.toNat_inj]
      by_cases isSystemCall : label = .systemCall
      · simp only [isSystemCall, if_true, or_true, iff_true]
        exact small
      · simp only [isSystemCall, if_false, or_false]
        exact Nat.le_zero

end Linkage.Context

/-- The table after `setup_IDT`, from its zeros and whatever the local held. -/
def kernelIdt (address : LinkageLabel → Word) (entry : IdtDesc) : Byte → IdtDesc :=
  (IdtSetup.setupIdt address ⟨entry, fun _ => 0⟩).idt

theorem kernelIdt_gate (address : LinkageLabel → Word) (entry : IdtDesc) (vector : Byte) :
    IdtDesc.gate (kernelIdt address entry vector) =
      (linkageOf vector).map (LinkageLabel.gate address) := by
  have empty : IdtDesc.gate 0 = none := by decide
  rw [kernelIdt, IdtSetup.gate_setupIdt, empty, Option.or_none]

theorem intLinkage_of_mem : ∀ gate ∈ interruptGates, ∃ linkage,
    gate.1.intLinkage = some linkage ∧ linkage.vector = gate.2.setWidth 32 ∧
      (linkage.hasErrorCode = (if pushesErrorCode gate.2 then errorCode else noErrorCode) ↔
        gate.2 ≠ 0x12 ∧ gate.2 ≠ 0x13) := by
  intro gate member
  have all : ∀ gate ∈ interruptGates, ∃ linkage ∈ gate.1.intLinkage,
      linkage.vector = gate.2.setWidth 32 ∧
        (linkage.hasErrorCode = (if pushesErrorCode gate.2 then errorCode else noErrorCode) ↔
          gate.2 ≠ 0x12 ∧ gate.2 ≠ 0x13) := by
    decide
  obtain ⟨linkage, isLinkage, facts⟩ := all gate member
  exact ⟨linkage, isLinkage, facts⟩

theorem deliver_kernelIdt (address : LinkageLabel → Word) (entry : IdtDesc)
    (context : Linkage.Context) (tss : Linkage.Tss) (memory : Word → Byte) (vector : Byte)
    (cause : Cause) :
    context.deliver tss memory (kernelIdt address entry) vector cause =
      (linkageOf vector).bind fun label =>
        if context.Reaches label cause then
          some ⟨kernelCs, address label,
            context.entry tss memory (label = .systemCall) vector cause⟩
        else none := by
  rw [Linkage.Context.deliver, kernelIdt_gate]
  cases linkageOf vector with
  | none => rfl
  | some label =>
      rw [Option.map_some, Option.bind_some, Option.bind_some]
      by_cases reaches : context.Reaches label cause
      · rw [if_pos reaches, if_pos ((context.may_iff_reaches address label cause).mpr reaches)]
        rfl
      · rw [if_neg reaches,
          if_neg (mt (context.may_iff_reaches address label cause).mp reaches)]

/-- The processor gets to the linkages at their vectors and nowhere else: devices while they
may interrupt, exceptions always, and `int` of a program for the system calls only. -/
theorem interrupt_gates (address : LinkageLabel → Word) (entry : IdtDesc)
    (context : Linkage.Context) (tss : Linkage.Tss) (memory : Word → Byte) (vector : Byte)
    (cause : Cause) (entered : Entered) :
    context.deliver tss memory (kernelIdt address entry) vector cause = some entered ↔
      ∃ label, linkageOf vector = some label ∧ context.Reaches label cause ∧
        entered = ⟨kernelCs, address label,
          context.entry tss memory (label = .systemCall) vector cause⟩ := by
  rw [deliver_kernelIdt, Option.bind_eq_some_iff]
  apply exists_congr
  intro label
  apply and_congr_right
  intro _
  by_cases reaches : context.Reaches label cause
  · rw [if_pos reaches, Option.some.injEq]
    constructor
    · intro same
      exact ⟨reaches, same.symm⟩
    · rintro ⟨_, same⟩
      exact same.symm
  · rw [if_neg reaches]
    constructor
    · intro absent
      cases absent
    · rintro ⟨here, _⟩
      exact (reaches here).elim

end LightweightOs
