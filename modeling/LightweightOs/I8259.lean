import LightweightOs.Words
import LightweightOs.Library.InterruptController
import LightweightOs.Library.Transition
import Mathlib.Tactic.IntervalCases

/-!
# The interrupt controllers

The driver keeps the masks of the two controllers in variables of its own and
writes them out after every change.  `i8259_init` programs the pair whatever
state it is in; after that the masks of the chips are those of the variables,
and an end of interrupt names the line that was served.
-/

namespace LightweightOs

open InterruptController Transition

def master8259Port : BitVec 16 := 0x20#16

def slave8259Port : BitVec 16 := 0xA0#16

def master8259DataPort : BitVec 16 := 0x21#16

def slave8259DataPort : BitVec 16 := 0xA1#16

def icw1 : Byte := 0x11#8

def icw2Master : Byte := 0x20#8

def icw2Slave : Byte := 0x28#8

def icw3Master : Byte := 0x04#8

def icw3Slave : Byte := 0x02#8

def icw4 : Byte := 0x01#8

/-- `EOI` -/
def endOfInterrupt : Word := 0x60#32

/-- The line of the master that the slave is wired to. -/
def slaveLine : Nat := 2

/-- The masks of the driver and the two chips. -/
structure I8259 where
  masterMask : Byte
  slaveMask : Byte
  pair : Pair

namespace I8259

/-- `outb`; the other ports belong to other devices. -/
def outb (s : I8259) (data : Byte) (port : BitVec 16) : I8259 :=
  if port = master8259Port then
    { s with pair := { s.pair with master := s.pair.master.command data } }
  else if port = slave8259Port then
    { s with pair := { s.pair with slave := s.pair.slave.command data } }
  else if port = master8259DataPort then
    { s with pair := { s.pair with master := s.pair.master.data data } }
  else if port = slave8259DataPort then
    { s with pair := { s.pair with slave := s.pair.slave.data data } }
  else s

/-- `enable_irq` and `disable_irq`: a mask of the driver is changed and written out. -/
def changeMask (s : I8259) (change : Byte → Word → Byte) (irqNum : Word) : I8259 :=
  if irqNum ≥ 8 then
    let s := { s with slaveMask := change s.slaveMask (irqNum - 8) }
    s.outb s.slaveMask slave8259DataPort
  else
    let s := { s with masterMask := change s.masterMask irqNum }
    s.outb s.masterMask master8259DataPort

def enableIrq (s : I8259) (irqNum : Word) : I8259 :=
  s.changeMask (fun mask shift =>
    let newMask : Byte := (~~~(1#32 <<< shift)).setWidth 8
    mask &&& newMask) irqNum

def disableIrq (s : I8259) (irqNum : Word) : I8259 :=
  s.changeMask (fun mask shift =>
    let newMask : Byte := (1#32 <<< shift).setWidth 8
    mask ||| newMask) irqNum

def sendEoi (s : I8259) (irqNum : Word) : I8259 :=
  if irqNum ≥ 8 then
    let s := s.outb ((endOfInterrupt + (irqNum - 8)).setWidth 8) slave8259Port
    s.outb ((endOfInterrupt + 2).setWidth 8) master8259Port
  else s.outb ((endOfInterrupt + irqNum).setWidth 8) master8259Port

/-- `i8259_init` -/
def init (s : I8259) : I8259 :=
  let s := s.outb 0xFF master8259DataPort
  let s := s.outb 0xFF slave8259DataPort
  let s := s.outb icw1 master8259Port
  let s := s.outb icw1 slave8259Port
  let s := s.outb icw2Master master8259DataPort
  let s := s.outb icw2Slave slave8259DataPort
  let s := s.outb icw3Master master8259DataPort
  let s := s.outb icw3Slave slave8259DataPort
  let s := s.outb icw4 master8259DataPort
  let s := s.outb icw4 slave8259DataPort
  let s := s.outb s.masterMask master8259DataPort
  let s := s.outb s.slaveMask slave8259DataPort
  s.enableIrq 2

/-- The static initialisers of the masks. -/
structure Initial (s : I8259) : Prop where
  master : s.masterMask = 0xFF
  slave : s.slaveMask = 0xFF

/-- The chip is programmed as the driver means it to be. -/
structure Programmed (chip : Chip) (vectors cascade mask : Byte) : Prop where
  ready : chip.awaiting = none
  vectors : chip.vectors = vectors
  cascade : chip.cascade = cascade
  mode : chip.mode = icw4
  masked : chip.masked = mask

structure Ready (s : I8259) : Prop where
  master : Programmed s.pair.master icw2Master icw3Master s.masterMask
  slave : Programmed s.pair.slave icw2Slave icw3Slave s.slaveMask

/-- A line of the driver's masks. -/
def masked (s : I8259) (line : Nat) : Bool :=
  if line < 8 then s.masterMask.getLsbD line else s.slaveMask.getLsbD (line - 8)

def requested (s : I8259) (line : Nat) : Bool :=
  if line < 8 then s.pair.master.requests.getLsbD line
  else s.pair.slave.requests.getLsbD (line - 8)

def inService (s : I8259) (line : Nat) : Bool :=
  if line < 8 then s.pair.master.inService.getLsbD line
  else s.pair.slave.inService.getLsbD (line - 8)

/-- One bit of the masks, in the variable of the driver and in the chip. -/
def remask (s : I8259) (irq : Nat) (mask : Bool) : I8259 :=
  if 8 ≤ irq then
    { s with
      slaveMask := setLine s.slaveMask (irq - 8) mask
      pair :=
        { s.pair with
          slave := { s.pair.slave with masked := setLine s.slaveMask (irq - 8) mask } } }
  else
    { s with
      masterMask := setLine s.masterMask irq mask
      pair :=
        { s.pair with
          master := { s.pair.master with masked := setLine s.masterMask irq mask } } }

section Ports

variable (s : I8259) (data : Byte)

theorem outb_master :
    s.outb data master8259Port =
      { s with pair := { s.pair with master := s.pair.master.command data } } :=
  if_pos rfl

theorem outb_slave :
    s.outb data slave8259Port =
      { s with pair := { s.pair with slave := s.pair.slave.command data } } := by
  rw [outb, if_neg (by decide), if_pos rfl]

theorem outb_masterData :
    s.outb data master8259DataPort =
      { s with pair := { s.pair with master := s.pair.master.data data } } := by
  rw [outb, if_neg (by decide), if_neg (by decide), if_pos rfl]

theorem outb_slaveData :
    s.outb data slave8259DataPort =
      { s with pair := { s.pair with slave := s.pair.slave.data data } } := by
  rw [outb, if_neg (by decide), if_neg (by decide), if_neg (by decide), if_pos rfl]

end Ports

section Masks

variable {n : Word} {line : Nat}

/-- The bit that the driver shifts is that of the line. -/
theorem newMask_eq (isLine : n.toNat = line) (inside : line < 8) :
    (1#32 <<< n).setWidth 8 = BitVec.twoPow 8 line ∧
      (~~~(1#32 <<< n)).setWidth 8 = ~~~(BitVec.twoPow 8 line) := by
  have number : n = BitVec.ofNat 32 line := by
    rw [← isLine, BitVec.ofNat_toNat, BitVec.setWidth_eq]
  rw [number]
  interval_cases line <;> decide

theorem endWord (isLine : n.toNat = line) (inside : line < 8) (chip : Chip) :
    chip.command ((endOfInterrupt + n).setWidth 8) =
      { chip with inService := clear chip.inService line } := by
  have number : n = BitVec.ofNat 32 line := by
    rw [← isLine, BitVec.ofNat_toNat, BitVec.setWidth_eq]
  have isEnd : ((endOfInterrupt + n).setWidth 8).getLsbD 4 = false ∧
      ((endOfInterrupt + n).setWidth 8).getLsbD 3 = false ∧
      ((endOfInterrupt + n).setWidth 8).extractLsb' 5 3 = 3#3 ∧
      (((endOfInterrupt + n).setWidth 8).extractLsb' 0 3).toNat = line := by
    rw [number]
    interval_cases line <;> decide
  obtain ⟨noInit, noRead, ends, named⟩ := isEnd
  rw [Chip.command_of_specificEnd noInit noRead ends, named]

end Masks

section Calls

variable {s : I8259} {irq : Nat}

theorem irq_toNat (inside : irq < 16) : (BitVec.ofNat 32 irq).toNat = irq := by
  rw [BitVec.toNat_ofNat]
  omega

theorem irq_ge (inside : irq < 16) : BitVec.ofNat 32 irq ≥ 8 ↔ 8 ≤ irq := by
  have eight : (8 : Word).toNat = 8 := rfl
  rw [ge_iff_le, BitVec.le_def, eight, irq_toNat inside]

theorem irq_sub (inside : irq < 16) (high : 8 ≤ irq) :
    (BitVec.ofNat 32 irq - 8).toNat = irq - 8 := by
  have eight : (8 : Word).toNat = 8 := rfl
  have isIrq := irq_toNat inside
  rw [BitVec.toNat_sub_of_le, isIrq, eight]
  rw [BitVec.le_def, eight, isIrq]
  exact high

/-- A change that sets the bit of the line to a value remasks the line. -/
theorem changeMask_eq {change : Byte → Word → Byte} {mask : Bool}
    (changes : ∀ old n line, n.toNat = line → line < 8 → change old n = setLine old line mask)
    (inside : irq < 16) (ready : s.Ready) :
    s.changeMask change (BitVec.ofNat 32 irq) = s.remask irq mask := by
  rw [changeMask, remask]
  by_cases high : 8 ≤ irq
  · rw [if_pos ((irq_ge inside).mpr high), if_pos high, outb_slaveData,
      changes _ _ _ (irq_sub inside high) (by omega), Chip.data_of_ready ready.slave.ready]
  · rw [if_neg (mt (irq_ge inside).mp high), if_neg high, outb_masterData,
      changes _ _ _ (irq_toNat inside) (by omega), Chip.data_of_ready ready.master.ready]

theorem enableIrq_eq (inside : irq < 16) (ready : s.Ready) :
    s.enableIrq (BitVec.ofNat 32 irq) = s.remask irq false := by
  apply changeMask_eq _ inside ready
  intro old n line isLine low
  exact congrArg (old &&& ·) (newMask_eq isLine low).2

theorem disableIrq_eq (inside : irq < 16) (ready : s.Ready) :
    s.disableIrq (BitVec.ofNat 32 irq) = s.remask irq true := by
  apply changeMask_eq _ inside ready
  intro old n line isLine low
  exact congrArg (old ||| ·) (newMask_eq isLine low).1

/-- The end of an interrupt of the slave is one of the master's line for it too. -/
theorem sendEoi_eq (inside : irq < 16) (s : I8259) :
    s.sendEoi (BitVec.ofNat 32 irq) =
      if 8 ≤ irq then
        { s with
          pair :=
            { master :=
                { s.pair.master with inService := clear s.pair.master.inService slaveLine }
              slave :=
                { s.pair.slave with inService := clear s.pair.slave.inService (irq - 8) } } }
      else
        { s with
          pair :=
            { s.pair with
              master :=
                { s.pair.master with inService := clear s.pair.master.inService irq } } } := by
  by_cases high : 8 ≤ irq
  · have two : (2 : Word).toNat = slaveLine := rfl
    rw [sendEoi, if_pos ((irq_ge inside).mpr high), if_pos high, outb_slave, outb_master,
      endWord (irq_sub inside high) (by omega), endWord two (by decide)]
  · rw [sendEoi, if_neg (mt (irq_ge inside).mp high), if_neg high, outb_master,
      endWord (irq_toNat inside) (by omega)]

end Calls

section Lines

variable {s : I8259} {irq line : Nat}

theorem line_eq_iff (high : 8 ≤ irq) (highLine : 8 ≤ line) : line - 8 = irq - 8 ↔ line = irq := by
  omega

theorem remask_masked (inside : irq < 16) (mask : Bool) :
    (s.remask irq mask).masked line = if line = irq then mask else s.masked line := by
  rw [remask]
  by_cases high : 8 ≤ irq <;> by_cases highLine : 8 ≤ line
  · simp only [if_pos high, masked, Nat.not_lt.mpr highLine, if_false,
      getLsbD_setLine (by omega : irq - 8 < 8), line_eq_iff high highLine]
  · have other : line ≠ irq := by omega
    simp [high, masked, Nat.lt_of_not_le highLine, other]
  · have other : line ≠ irq := by omega
    simp [high, masked, Nat.not_lt.mpr highLine, other]
  · simp only [if_neg high, masked, Nat.lt_of_not_le highLine, if_true,
      getLsbD_setLine (Nat.lt_of_not_le high)]

theorem Programmed.remask {chip : Chip} {vectors cascade mask : Byte}
    (programmed : Programmed chip vectors cascade mask) (other : Byte) :
    Programmed { chip with masked := other } vectors cascade other where
  ready := programmed.ready
  vectors := programmed.vectors
  cascade := programmed.cascade
  mode := programmed.mode
  masked := rfl

/-- Requests come and go, and what is in service, without the program of a chip. -/
theorem Programmed.serving {chip : Chip} {vectors cascade mask : Byte}
    (programmed : Programmed chip vectors cascade mask) (requests inService : Byte) :
    Programmed { chip with requests := requests, inService := inService } vectors cascade
      mask where
  ready := programmed.ready
  vectors := programmed.vectors
  cascade := programmed.cascade
  mode := programmed.mode
  masked := programmed.masked

theorem Ready.remask (ready : s.Ready) (irq : Nat) (mask : Bool) :
    (s.remask irq mask).Ready := by
  rw [I8259.remask]
  split
  · exact ⟨ready.master, ready.slave.remask _⟩
  · exact ⟨ready.master.remask _, ready.slave⟩

theorem Ready.sendEoi (ready : s.Ready) (inside : irq < 16) :
    (s.sendEoi (BitVec.ofNat 32 irq)).Ready := by
  rw [sendEoi_eq inside]
  split
  · exact ⟨ready.master.serving _ _, ready.slave.serving _ _⟩
  · exact ⟨ready.master.serving _ _, ready.slave⟩

theorem sendEoi_masked (inside : irq < 16) :
    (s.sendEoi (BitVec.ofNat 32 irq)).masked line = s.masked line := by
  rw [sendEoi_eq inside]
  split <;> rfl

/-- A chip just after its initialisation. -/
def fresh (vectors cascade mask : Byte) : Chip where
  requests := 0
  masked := mask
  inService := 0
  vectors := vectors
  cascade := cascade
  mode := icw4
  single := false
  wantsMode := true
  awaiting := none

theorem programs (chip : Chip) (vectors cascade mask : Byte) :
    (((((chip.data 0xFF).command icw1).data vectors).data cascade).data icw4).data mask =
      fresh vectors cascade mask := by
  rw [Chip.initialised _ (by decide) (by decide) (by decide), Chip.data_of_ready rfl]
  rfl

theorem init_eq (s : I8259) :
    s.init =
      ({ s with
          pair :=
            { master := fresh icw2Master icw3Master s.masterMask
              slave := fresh icw2Slave icw3Slave s.slaveMask } } : I8259).enableIrq 2 := by
  simp only [init, outb_master, outb_slave, outb_masterData, outb_slaveData, programs]

theorem fresh_programmed (vectors cascade mask : Byte) :
    Programmed (fresh vectors cascade mask) vectors cascade mask :=
  ⟨rfl, rfl, rfl, rfl, rfl⟩

theorem init_eq_remask (s : I8259) :
    s.init =
      ({ s with
          pair :=
            { master := fresh icw2Master icw3Master s.masterMask
              slave := fresh icw2Slave icw3Slave s.slaveMask } } : I8259).remask 2 false := by
  rw [init_eq]
  exact @enableIrq_eq _ 2 (by decide) ⟨fresh_programmed _ _ _, fresh_programmed _ _ _⟩

theorem init_ready (s : I8259) : s.init.Ready := by
  rw [init_eq_remask]
  exact Ready.remask ⟨fresh_programmed _ _ _, fresh_programmed _ _ _⟩ 2 false

/-- Of the lines that were masked, the slave's is open after `i8259_init`. -/
theorem init_masked (s : I8259) (line : Nat) :
    s.init.masked line = if line = slaveLine then false else s.masked line := by
  rw [init_eq_remask]
  exact remask_masked (by decide) false

end Lines

/-- The pair when the interrupt of a line has been acknowledged. -/
def taken (s : I8259) (line : Nat) : Pair :=
  if 8 ≤ line then
    ⟨(s.pair.wired slaveLine).serve slaveLine, s.pair.slave.serve (line - 8)⟩
  else ⟨(s.pair.wired slaveLine).serve line, s.pair.slave⟩

/-- The processor gets the vector of a line that is requested and not masked. -/
structure Acknowledges (s : I8259) (line : Nat) (vector : Byte) (pair : Pair) : Prop where
  inside : line < 16
  notSlave : line ≠ slaveLine
  vector : vector = BitVec.ofNat 8 (0x20 + line)
  requested : s.requested line = true
  unmasked : s.masked line = false
  pair : pair = s.taken line

section Acknowledgement

variable {s : I8259} {line : Nat}

theorem icw3Master_line (inside : line < 8) :
    icw3Master.getLsbD line = decide (line = slaveLine) := by
  interval_cases line <;> decide

theorem master_vector (ready : s.Ready) (inside : line < 8) :
    s.pair.master.vector line = BitVec.ofNat 8 (0x20 + line) := by
  rw [Chip.vector, ready.master.vectors]
  interval_cases line <;> decide

theorem slave_vector (ready : s.Ready) (inside : line < 8) :
    s.pair.slave.vector line = BitVec.ofNat 8 (0x20 + (8 + line)) := by
  rw [Chip.vector, ready.slave.vectors]
  interval_cases line <;> decide

theorem of_offers {chip : Chip} (offered : chip.offers line = true) :
    chip.requests.getLsbD line = true ∧ chip.masked.getLsbD line = false := by
  simp only [Chip.offers, Bool.and_eq_true, Bool.not_eq_eq_eq_not, Bool.not_true] at offered
  exact offered.1

theorem wired_requests (different : line ≠ slaveLine) :
    (s.pair.wired slaveLine).requests.getLsbD line = s.pair.master.requests.getLsbD line := by
  have inside : slaveLine < 8 := by decide
  rw [Pair.wired]
  dsimp only
  split
  · rw [getLsbD_raise inside]
    simp [different]
  · rw [getLsbD_clear inside]
    simp [different]

theorem wired_requests_slave :
    (s.pair.wired slaveLine).requests.getLsbD slaveLine = s.pair.slave.pending.isSome := by
  have inside : slaveLine < 8 := by decide
  rw [Pair.wired]
  dsimp only
  split
  case isTrue some =>
    rw [getLsbD_raise inside, some]
    simp
  case isFalse none =>
    rw [getLsbD_clear inside, Bool.eq_false_iff.mpr none]
    simp

theorem acknowledge_spec (ready : s.Ready) {vector : Byte} {pair : Pair}
    (acknowledged : s.pair.acknowledge slaveLine = some (vector, pair)) :
    ∃ line, s.Acknowledges line vector pair := by
  simp only [Pair.acknowledge] at acknowledged
  split at acknowledged
  case h_1 => cases acknowledged
  case h_2 outer found =>
    obtain ⟨_, inside, offered, _⟩ := Chip.pending_eq_some_iff.mp found
    obtain ⟨isRequested, unmasked⟩ := of_offers offered
    rw [ready.master.cascade, icw3Master_line inside] at acknowledged
    split at acknowledged
    case isTrue isSlave =>
      split at acknowledged
      case h_1 => cases acknowledged
      case h_2 inner foundInner =>
        obtain ⟨_, insideInner, offeredInner, _⟩ := Chip.pending_eq_some_iff.mp foundInner
        obtain ⟨requestedInner, openInner⟩ := of_offers offeredInner
        split at acknowledged
        case isTrue =>
          cases acknowledged
          have high : 8 ≤ 8 + inner := Nat.le_add_right 8 inner
          have notLow : ¬8 + inner < 8 := by omega
          rw [ready.slave.masked] at openInner
          have isLine : outer = slaveLine := of_decide_eq_true isSlave
          refine ⟨8 + inner, ?_⟩
          exact
            { inside := by omega
              notSlave := by have two : slaveLine = 2 := rfl; omega
              vector := slave_vector ready insideInner
              requested := by
                rw [requested, if_neg notLow, Nat.add_sub_cancel_left]
                exact requestedInner
              unmasked := by
                rw [masked, if_neg notLow, Nat.add_sub_cancel_left]
                exact openInner
              pair := by rw [taken, if_pos high, Nat.add_sub_cancel_left, isLine] }
        case isFalse => cases acknowledged
    case isFalse isDirect =>
      cases acknowledged
      have different : outer ≠ slaveLine := fun same => isDirect (decide_eq_true same)
      rw [wired_requests different] at isRequested
      have isOpen : s.pair.master.masked.getLsbD outer = false := unmasked
      rw [ready.master.masked] at isOpen
      refine ⟨outer, ?_⟩
      exact
        { inside := by omega
          notSlave := different
          vector := master_vector ready inside
          requested := by rw [requested, if_pos inside]; exact isRequested
          unmasked := by rw [masked, if_pos inside]; exact isOpen
          pair := by rw [taken, if_neg (Nat.not_le.mpr inside)] }

/-- Nothing is in service. -/
structure Idle (s : I8259) : Prop where
  master : s.pair.master.inService = 0
  slave : s.pair.slave.inService = 0

/-- A device waits on a line that can be delivered. -/
structure Waits (s : I8259) (line : Nat) : Prop where
  inside : line < 16
  notSlave : line ≠ slaveLine
  requested : s.requested line = true
  unmasked : s.masked line = false
  cascade : 8 ≤ line → s.masked slaveLine = false

/-- While nothing is in service, a request is delivered, if not before another one. -/
theorem Waits.acknowledged (waits : s.Waits line) (ready : s.Ready) (idle : s.Idle) :
    ∃ vector pair, s.pair.acknowledge slaveLine = some (vector, pair) := by
  obtain ⟨inside, notSlave, requested, unmasked, cascade⟩ := waits
  have idleWired : (s.pair.wired slaveLine).inService = 0 := idle.master
  have maskedWired : (s.pair.wired slaveLine).masked = s.masterMask := ready.master.masked
  -- a request of the slave is one of the master's on the slave's line
  have offered : ∃ outer < 8, (s.pair.wired slaveLine).offers outer = true := by
    by_cases high : 8 ≤ line
    · refine ⟨slaveLine, by decide, ?_⟩
      have slaveOffers : s.pair.slave.offers (line - 8) = true := by
        rw [I8259.requested, if_neg (Nat.not_lt.mpr high)] at requested
        rw [I8259.masked, if_neg (Nat.not_lt.mpr high)] at unmasked
        rw [Chip.offers_of_idle idle.slave, ready.slave.masked, requested, unmasked]
        rfl
      have pending : s.pair.slave.pending.isSome = true := by
        rw [Option.isSome_iff_ne_none]
        intro none
        have silent := Chip.pending_eq_none_iff.mp none ready.slave.ready (line - 8) (by omega)
        rw [slaveOffers] at silent
        cases silent
      have isOpen : s.masterMask.getLsbD slaveLine = false := cascade high
      rw [Chip.offers_of_idle idleWired, wired_requests_slave, pending, maskedWired, isOpen]
      rfl
    · have low : line < 8 := Nat.lt_of_not_le high
      refine ⟨line, low, ?_⟩
      rw [I8259.requested, if_pos low] at requested
      rw [I8259.masked, if_pos low] at unmasked
      rw [Chip.offers_of_idle idleWired, wired_requests notSlave, requested, maskedWired,
        unmasked]
      rfl
  obtain ⟨outer, insideOuter, offers⟩ := offered
  have pending : (s.pair.wired slaveLine).pending ≠ none := by
    intro none
    have silent := Chip.pending_eq_none_iff.mp none ready.master.ready outer insideOuter
    rw [offers] at silent
    cases silent
  obtain ⟨best, found⟩ := Option.ne_none_iff_exists'.mp pending
  obtain ⟨_, insideBest, bestOffers, _⟩ := Chip.pending_eq_some_iff.mp found
  simp only [Pair.acknowledge, found, ready.master.cascade, icw3Master_line insideBest]
  by_cases isSlave : best = slaveLine
  · -- the line is raised by a request of the slave only
    have raised := (of_offers bestOffers).1
    rw [isSlave, wired_requests_slave] at raised
    obtain ⟨inner, foundInner⟩ := Option.isSome_iff_exists.mp raised
    have named : (s.pair.slave.cascade.extractLsb' 0 3).toNat = best := by
      rw [ready.slave.cascade, isSlave]
      decide
    simp only [foundInner, named, isSlave, decide_true, if_true]
    exact ⟨_, _, rfl⟩
  · simp only [isSlave, decide_false, Bool.false_eq_true, if_false]
    exact ⟨_, _, rfl⟩

theorem Ready.taken (ready : s.Ready) (line : Nat) :
    ({ s with pair := s.taken line } : I8259).Ready := by
  rw [I8259.taken]
  split
  · exact ⟨ready.master.serving _ _, ready.slave.serving _ _⟩
  · exact ⟨ready.master.serving _ _, ready.slave⟩

theorem Idle.served (idle : s.Idle) (ready : s.Ready) (inside : line < 16) :
    (({ s with pair := s.taken line } : I8259).sendEoi (BitVec.ofNat 32 line)).Idle := by
  have automatic : icw4.getLsbD 1 = false := by decide
  have isEnded : ∀ {chip : Chip} {line : Nat}, line < 8 → chip.mode = icw4 →
      chip.inService = 0 → clear (chip.serve line).inService line = 0 := by
    intro chip line low mode none
    rw [Chip.serve, mode, automatic]
    change clear (raise chip.inService line) line = 0
    rw [none]
    exact clear_raise low (by simp)
  rw [sendEoi_eq inside, I8259.taken]
  by_cases high : 8 ≤ line
  · simp only [if_pos high]
    exact ⟨isEnded (by decide) ready.master.mode idle.master,
      isEnded (by omega) ready.slave.mode idle.slave⟩
  · simp only [if_neg high]
    exact ⟨isEnded (Nat.lt_of_not_le high) ready.master.mode idle.master, idle.slave⟩

end Acknowledgement

end I8259

/-- A call of the driver, a request of a device, or an acknowledgement that gives the
processor a vector. -/
inductive PicEvent where
  | enableIrq (irq : Nat)
  | disableIrq (irq : Nat)
  | sendEoi (irq : Nat)
  | request (line : Nat)
  | acknowledge (vector : Byte)

/-- The calls name one of the sixteen lines. -/
inductive I8259.Step (s : I8259) : PicEvent → I8259 → Prop where
  | enableIrq {irq : Nat} (inside : irq < 16) :
      Step s (.enableIrq irq) (s.enableIrq (BitVec.ofNat 32 irq))
  | disableIrq {irq : Nat} (inside : irq < 16) :
      Step s (.disableIrq irq) (s.disableIrq (BitVec.ofNat 32 irq))
  | sendEoi {irq : Nat} (inside : irq < 16) :
      Step s (.sendEoi irq) (s.sendEoi (BitVec.ofNat 32 irq))
  | request (line : Nat) : Step s (.request line) { s with pair := s.pair.request line }
  | acknowledge {vector : Byte} {pair : Pair}
      (gives : s.pair.acknowledge slaveLine = some (vector, pair)) :
      Step s (.acknowledge vector) { s with pair := pair }

/-- Whether a line is masked after one more event. -/
def maskAfter (line : Nat) (masked : Bool) : PicEvent → Bool
  | .enableIrq irq => if irq = line then false else masked
  | .disableIrq irq => if irq = line then true else masked
  | .sendEoi _ | .request _ | .acknowledge _ => masked

/-- The pair follows the driver. -/
structure FollowsDriver (s : I8259) (history : List PicEvent) : Prop where
  ready : s.Ready
  masked : ∀ line < 16,
    s.masked line = history.foldl (maskAfter line) (decide (line ≠ slaveLine))

theorem FollowsDriver.step {s next : I8259} {history : List PicEvent} {event : PicEvent}
    (follows : FollowsDriver s history) (step : s.Step event next) :
    FollowsDriver next (history ++ [event]) := by
  obtain ⟨ready, masked⟩ := follows
  constructor
  case ready =>
    cases step with
    | @enableIrq irq inside =>
        rw [I8259.enableIrq_eq inside ready]
        exact ready.remask irq false
    | @disableIrq irq inside =>
        rw [I8259.disableIrq_eq inside ready]
        exact ready.remask irq true
    | sendEoi inside => exact ready.sendEoi inside
    | request line =>
        simp only [Pair.request]
        split
        · exact ⟨ready.master.serving _ _, ready.slave⟩
        · exact ⟨ready.master, ready.slave.serving _ _⟩
    | acknowledge gives =>
        obtain ⟨line, acknowledged⟩ := I8259.acknowledge_spec ready gives
        rw [acknowledged.pair]
        exact ready.taken line
  case masked =>
    intro line inside
    rw [List.foldl_append, List.foldl_cons, List.foldl_nil, ← masked line inside]
    cases step with
    | @enableIrq irq insideIrq =>
        rw [I8259.enableIrq_eq insideIrq ready, I8259.remask_masked insideIrq, maskAfter]
        simp only [eq_comm]
    | @disableIrq irq insideIrq =>
        rw [I8259.disableIrq_eq insideIrq ready, I8259.remask_masked insideIrq, maskAfter]
        simp only [eq_comm]
    | sendEoi insideIrq => exact I8259.sendEoi_masked insideIrq
    | request line => rfl
    | acknowledge gives => rfl

theorem FollowsDriver.init {s : I8259} (initial : s.Initial) : FollowsDriver s.init [] where
  ready := s.init_ready
  masked := by
    intro line inside
    have closed : s.masked line = true := by
      simp only [I8259.masked, initial.master, initial.slave]
      interval_cases line <;> decide
    rw [I8259.init_masked, closed, List.foldl_nil]
    by_cases isSlave : line = slaveLine <;> simp [isSlave]

theorem FollowsDriver.run {s t : I8259} {history : List PicEvent} (initial : s.Initial)
    (run : Run I8259.Step s.init history t) : FollowsDriver t history := by
  induction run with
  | nil => exact .init initial
  | snoc _ step earlier => exact earlier.step step

/-- A line is open exactly if the last call that names it opened it, and only the vectors
of open lines are delivered. -/
theorem interrupt_masks {s t : I8259} {history : List PicEvent} (initial : s.Initial)
    (run : Run I8259.Step s.init history t) :
    FollowsDriver t history ∧
      ∀ vector pair, t.pair.acknowledge slaveLine = some (vector, pair) →
        ∃ line < 16, line ≠ slaveLine ∧ vector = BitVec.ofNat 8 (0x20 + line) ∧
          t.requested line = true ∧
          history.foldl (maskAfter line) (decide (line ≠ slaveLine)) = false := by
  have follows := FollowsDriver.run initial run
  refine ⟨follows, ?_⟩
  intro vector pair gives
  obtain ⟨line, acknowledges⟩ := I8259.acknowledge_spec follows.ready gives
  refine ⟨line, acknowledges.inside, acknowledges.notSlave, acknowledges.vector,
    acknowledges.requested, ?_⟩
  rw [← follows.masked line acknowledges.inside]
  exact acknowledges.unmasked

/-- Chips that were left in the middle of an initialisation. -/
def samplePic : I8259 where
  masterMask := 0xFF
  slaveMask := 0xFF
  pair :=
    { master := ⟨0xFF, 0, 0xFF, 0x70, 0, 0, true, true, some .mode⟩
      slave := ⟨0xFF, 0, 0xFF, 0x70, 0, 0, true, true, some .vectors⟩ }

/-- The keyboard's line is opened and a key is pressed. -/
theorem interrupt_masks_samplePic :
    ∃ t, Run I8259.Step samplePic.init [.enableIrq 1, .request 1] t ∧
      FollowsDriver t [.enableIrq 1, .request 1] ∧
      ∃ pair, t.pair.acknowledge slaveLine = some (0x21#8, pair) := by
  have first : Run I8259.Step samplePic.init [.enableIrq 1]
      (samplePic.init.enableIrq (BitVec.ofNat 32 1)) :=
    @Run.snoc _ _ _ _ [] _ _ _ .nil (.enableIrq (by decide))
  have run := first.snoc (.request 1)
  exact ⟨_, run, (interrupt_masks ⟨rfl, rfl⟩ run).1, _, rfl⟩

end LightweightOs
