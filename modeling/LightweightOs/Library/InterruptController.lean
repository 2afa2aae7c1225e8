import Mathlib.Data.Option.Basic
import Mathlib.Algebra.Group.Nat.Defs

/-!
# A pair of interrupt controllers

A chip latches requests on eight lines, offers the one of highest priority that is
neither masked nor held up by one in service, and is programmed by words on two
ports.  After the first initialisation word it takes the next words on its data
port for the rest of the initialisation; a chip that waits for one offers
nothing.  The output of a slave is wired to a line of the master.
-/

namespace InterruptController

/-- The initialisation word that a chip waits for. -/
inductive Awaiting where
  | vectors
  | cascade
  | mode
  deriving DecidableEq

structure Chip where
  requests : BitVec 8
  masked : BitVec 8
  inService : BitVec 8
  vectors : BitVec 8
  cascade : BitVec 8
  mode : BitVec 8
  /-- The chip is on its own, and there is no word about the cascade. -/
  single : Bool
  wantsMode : Bool
  awaiting : Option Awaiting

def raise (lines : BitVec 8) (line : Nat) : BitVec 8 := lines ||| BitVec.twoPow 8 line

def clear (lines : BitVec 8) (line : Nat) : BitVec 8 := lines &&& ~~~(BitVec.twoPow 8 line)

def setLine (lines : BitVec 8) (line : Nat) (value : Bool) : BitVec 8 :=
  if value then raise lines line else clear lines line

section Lines

variable {lines : BitVec 8} {line other : Nat} {value : Bool}

@[simp] theorem getLsbD_raise (inside : line < 8) :
    (raise lines line).getLsbD other = (lines.getLsbD other || decide (other = line)) := by
  simp only [raise, BitVec.getLsbD_or, BitVec.getLsbD_twoPow, inside, decide_true,
    Bool.true_and, eq_comm]

@[simp] theorem getLsbD_clear (inside : line < 8) :
    (clear lines line).getLsbD other = (lines.getLsbD other && !decide (other = line)) := by
  by_cases high : other < 8
  · simp only [clear, BitVec.getLsbD_and, BitVec.getLsbD_not, BitVec.getLsbD_twoPow, inside,
      high, decide_true, Bool.true_and, eq_comm]
  · rw [BitVec.getLsbD_of_ge _ _ (Nat.le_of_not_lt high),
      BitVec.getLsbD_of_ge lines _ (Nat.le_of_not_lt high), Bool.false_and]

theorem getLsbD_setLine (inside : line < 8) :
    (setLine lines line value).getLsbD other =
      if other = line then value else lines.getLsbD other := by
  cases value with
  | false =>
      rw [setLine, if_neg Bool.false_ne_true, getLsbD_clear inside]
      by_cases here : other = line <;> simp [here]
  | true =>
      rw [setLine, if_pos rfl, getLsbD_raise inside]
      by_cases here : other = line <;> simp [here]

theorem clear_raise (inside : line < 8) (idle : lines.getLsbD line = false) :
    clear (raise lines line) line = lines := by
  apply BitVec.eq_of_getLsbD_eq
  intro index _
  rw [getLsbD_clear inside, getLsbD_raise inside]
  by_cases here : index = line
  · simp [here, idle]
  · simp [here]

end Lines

namespace Chip

/-- The chip has a request on the line that may be served. -/
def offers (chip : Chip) (line : Nat) : Bool :=
  chip.requests.getLsbD line && !chip.masked.getLsbD line &&
    (List.range (line + 1)).all fun other => !chip.inService.getLsbD other

/-- The request of highest priority; a chip being initialised has none. -/
def pending (chip : Chip) : Option Nat :=
  if chip.awaiting = none then (List.range 8).find? chip.offers else none

/-- A request is acknowledged: it is in service unless the mode ends it at once. -/
def serve (chip : Chip) (line : Nat) : Chip :=
  { chip with
    requests := clear chip.requests line
    inService := if chip.mode.getLsbD 1 then chip.inService else raise chip.inService line }

/-- The vector for a line; its low three bits are the line. -/
def vector (chip : Chip) (line : Nat) : BitVec 8 :=
  (chip.vectors &&& 0xF8#8) ||| BitVec.ofNat 8 line

/-- The line of highest priority that is in service. -/
def serving (chip : Chip) : Option Nat :=
  (List.range 8).find? fun line => chip.inService.getLsbD line

/-- A word on the command port: the first initialisation word, or the end of an
interrupt, of the line it names or of the one in service.  The words that read
registers or rotate priorities have no effect here. -/
def command (chip : Chip) (value : BitVec 8) : Chip :=
  if value.getLsbD 4 then
    { chip with
      requests := 0
      masked := 0
      inService := 0
      mode := 0
      single := value.getLsbD 1
      wantsMode := value.getLsbD 0
      awaiting := some .vectors }
  else if value.getLsbD 3 then chip
  else if value.extractLsb' 5 3 = 3#3 then
    { chip with inService := clear chip.inService (value.extractLsb' 0 3).toNat }
  else if value.extractLsb' 5 3 = 1#3 then
    match chip.serving with
    | some line => { chip with inService := clear chip.inService line }
    | none => chip
  else chip

/-- What a chip waits for after the word about the cascade. -/
def afterCascade (chip : Chip) : Option Awaiting :=
  if chip.wantsMode then some .mode else none

/-- A word on the data port: an initialisation word, or the mask. -/
def data (chip : Chip) (value : BitVec 8) : Chip :=
  match chip.awaiting with
  | none => { chip with masked := value }
  | some .vectors =>
      { chip with
        vectors := value
        awaiting := if chip.single then chip.afterCascade else some .cascade }
  | some .cascade => { chip with cascade := value, awaiting := chip.afterCascade }
  | some .mode => { chip with mode := value, awaiting := none }

section Words

variable {chip : Chip}

/-- Whatever state a chip is in, the four initialisation words decide it. -/
theorem initialised (chip : Chip) {first : BitVec 8} (isFirst : first.getLsbD 4 = true)
    (cascaded : first.getLsbD 1 = false) (wantsMode : first.getLsbD 0 = true)
    (vectors cascade mode : BitVec 8) :
    (((chip.command first).data vectors).data cascade).data mode =
      { requests := 0, masked := 0, inService := 0, vectors := vectors, cascade := cascade
        mode := mode, single := false, wantsMode := true, awaiting := none } := by
  rw [command, if_pos isFirst, cascaded, wantsMode]
  rfl

theorem data_of_ready (ready : chip.awaiting = none) (value : BitVec 8) :
    chip.data value = { chip with masked := value } := by
  simp only [data, ready]

theorem command_of_specificEnd {value : BitVec 8} (noInit : value.getLsbD 4 = false)
    (noRead : value.getLsbD 3 = false) (isEnd : value.extractLsb' 5 3 = 3#3) :
    chip.command value =
      { chip with inService := clear chip.inService (value.extractLsb' 0 3).toNat } := by
  rw [command, noInit, noRead, isEnd]
  rfl

end Words

section Pending

variable {chip : Chip} {line : Nat}

/-- With nothing in service a chip offers what is requested and not masked. -/
theorem offers_of_idle (idle : chip.inService = 0) (line : Nat) :
    chip.offers line = (chip.requests.getLsbD line && !chip.masked.getLsbD line) := by
  simp [offers, idle]

theorem pending_eq_some_iff :
    chip.pending = some line ↔
      chip.awaiting = none ∧ line < 8 ∧ chip.offers line = true ∧
        ∀ other < line, chip.offers other = false := by
  rw [pending]
  split
  case isTrue ready =>
    rw [List.find?_range_eq_some]
    simp only [ready, true_and, List.mem_range, Bool.not_eq_eq_eq_not, Bool.not_true]
    constructor
    · rintro ⟨offered, inside, first⟩
      exact ⟨inside, offered, first⟩
    · rintro ⟨inside, offered, first⟩
      exact ⟨offered, inside, first⟩
  case isFalse busy => simp [busy]

theorem pending_eq_none_iff :
    chip.pending = none ↔ chip.awaiting = none → ∀ line < 8, chip.offers line = false := by
  rw [pending]
  split
  case isTrue ready => simp [ready]
  case isFalse busy => simp [busy]

end Pending

end Chip

structure Pair where
  master : Chip
  slave : Chip

namespace Pair

/-- The master with the slave's output on its line `wire`. -/
def wired (p : Pair) (wire : Nat) : Chip :=
  { p.master with
    requests :=
      if p.slave.pending.isSome then raise p.master.requests wire
      else clear p.master.requests wire }

/-- A device raises a line; those of the slave follow those of the master. -/
def request (p : Pair) (line : Nat) : Pair :=
  if line < 8 then { p with master := { p.master with requests := raise p.master.requests line } }
  else
    { p with slave := { p.slave with requests := raise p.slave.requests (line - 8) } }

/-- The processor acknowledges an interrupt and gets its vector; for a line with a slave
it comes from the slave that has been given this line. -/
def acknowledge (p : Pair) (wire : Nat) : Option (BitVec 8 × Pair) :=
  match (p.wired wire).pending with
  | none => none
  | some line =>
      if p.master.cascade.getLsbD line then
        match p.slave.pending with
        | none => none
        | some inner =>
            if (p.slave.cascade.extractLsb' 0 3).toNat = line then
              some (p.slave.vector inner, ⟨(p.wired wire).serve line, p.slave.serve inner⟩)
            else none
      else some (p.master.vector line, ⟨(p.wired wire).serve line, p.slave⟩)

end Pair

end InterruptController
