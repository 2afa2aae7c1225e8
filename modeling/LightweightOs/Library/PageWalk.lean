import LightweightOs.Library.Transition
import LightweightOs.Library.BitField
import Mathlib.Data.Set.Insert
import Mathlib.Data.List.Induction

/-!
# Two-level address translation

The translation of 32-bit linear addresses through a page directory with large
pages and page tables.  A directory entry either maps 4MB itself or points to a
page table, and an address belongs to user mode when every entry on the way says
so.  The processor keeps translations it has used until it is told to forget
them, so a change of the tables may go unnoticed for a while; a flush after the
last change is enough to rule that out.
-/

namespace PageWalk

open BitField Transition

/-- The words of the page directory, and of the page table in each page frame. -/
structure Tables where
  directory : BitVec 10 → BitVec 32
  table : BitVec 20 → BitVec 10 → BitVec 32

/-- Where an address leads to, and what may be done there. -/
structure Target where
  physical : Nat
  user : Bool
  writable : Bool
  deriving DecidableEq

section Entries

variable (entry : BitVec 32)

def isPresent : Bool := field entry 0 1 = 1#1

def isWritable : Bool := field entry 1 1 = 1#1

def isUser : Bool := field entry 2 1 = 1#1

/-- A directory entry that maps a page of 4MB. -/
def isLarge : Bool := field entry 7 1 = 1#1

/-- The reserved bit of an entry for a large page. -/
def isReserved : Bool := field entry 21 1 = 1#1

/-- The physical address of a large page; its bits from 32 on are in the middle
of the entry. -/
def largeBase : Nat := (field entry 13 8).toNat * 2 ^ 32 + (field entry 22 10).toNat * 2 ^ 22

/-- The page frame of a small page, or of a page table. -/
def smallFrame : BitVec 20 := field entry 12 20

end Entries

section Addresses

variable (linear : BitVec 32)

def directoryIndex : BitVec 10 := field linear 22 10

def tableIndex : BitVec 10 := field linear 12 10

def largeOffset : BitVec 22 := field linear 0 22

def smallOffset : BitVec 12 := field linear 0 12

end Addresses

/-- The translation of an address; `none` is a page fault. -/
def Tables.walk (tables : Tables) (linear : BitVec 32) : Option Target :=
  let entry := tables.directory (directoryIndex linear)
  if isPresent entry = false then none
  else if isLarge entry then
    if isReserved entry then none
    else
      some
        { physical := largeBase entry + (largeOffset linear).toNat
          user := isUser entry
          writable := isWritable entry }
  else
    let page := tables.table (smallFrame entry) (tableIndex linear)
    if isPresent page = false then none
    else
      some
        { physical := (smallFrame page).toNat * 2 ^ 12 + (smallOffset linear).toNat
          user := isUser entry && isUser page
          writable := isWritable entry && isWritable page }

section Parts

variable (linear : BitVec 32)

theorem directoryIndex_toNat : (directoryIndex linear).toNat = linear.toNat / 2 ^ 22 := by
  have bound := linear.isLt
  rw [directoryIndex, field, BitVec.extractLsb'_toNat, Nat.shiftRight_eq_div_pow]
  omega

theorem tableIndex_toNat :
    (tableIndex linear).toNat = linear.toNat / 2 ^ 12 % 2 ^ 10 := by
  rw [tableIndex, field, BitVec.extractLsb'_toNat, Nat.shiftRight_eq_div_pow]

theorem largeOffset_toNat : (largeOffset linear).toNat = linear.toNat % 2 ^ 22 := by
  rw [largeOffset, field, BitVec.extractLsb'_toNat, Nat.shiftRight_zero]

theorem smallOffset_toNat : (smallOffset linear).toNat = linear.toNat % 2 ^ 12 := by
  rw [smallOffset, field, BitVec.extractLsb'_toNat, Nat.shiftRight_zero]

end Parts

namespace Tables

variable {tables : Tables} {linear : BitVec 32}

theorem walk_of_absent
    (absent : isPresent (tables.directory (directoryIndex linear)) = false) :
    tables.walk linear = none := by
  rw [walk]
  exact if_pos absent

theorem walk_of_large {entry : BitVec 32}
    (isEntry : tables.directory (directoryIndex linear) = entry)
    (present : isPresent entry = true) (large : isLarge entry = true)
    (valid : isReserved entry = false) :
    tables.walk linear =
      some
        { physical := largeBase entry + linear.toNat % 2 ^ 22
          user := isUser entry
          writable := isWritable entry } := by
  rw [walk, isEntry, ← largeOffset_toNat]
  simp [present, large, valid]

theorem walk_of_small {entry page : BitVec 32}
    (isEntry : tables.directory (directoryIndex linear) = entry)
    (present : isPresent entry = true) (small : isLarge entry = false)
    (isPage : tables.table (smallFrame entry) (tableIndex linear) = page) :
    tables.walk linear =
      if isPresent page then
        some
          { physical := (smallFrame page).toNat * 2 ^ 12 + linear.toNat % 2 ^ 12
            user := isUser entry && isUser page
            writable := isWritable entry && isWritable page }
      else none := by
  rw [walk, isEntry, ← smallOffset_toNat]
  simp only [present, small, Bool.true_eq_false, Bool.false_eq_true, if_false, isPage]
  cases isPresent page <;> rfl

/-- What user mode gets at. -/
def UserReaches (tables : Tables) (linear : BitVec 32) (physical : Nat) : Prop :=
  ∃ target, tables.walk linear = some target ∧ target.user = true ∧
    target.physical = physical

end Tables

/-- The tables in memory, and the translations the processor has kept. -/
structure Mmu where
  tables : Tables
  kept : Set (BitVec 32 × Target)

/-- What happens to an MMU: a translation is looked up and kept, the tables are
changed, or all translations are forgotten. -/
inductive MmuEvent where
  | fill (linear : BitVec 32) (target : Target)
  | store (change : Tables → Tables)
  | flush

inductive Mmu.Step (m : Mmu) : MmuEvent → Mmu → Prop where
  | fill {linear : BitVec 32} {target : Target} (found : m.tables.walk linear = some target) :
      Step m (.fill linear target) { m with kept := insert (linear, target) m.kept }
  | store (change : Tables → Tables) :
      Step m (.store change) { m with tables := change m.tables }
  | flush : Step m .flush { m with kept := ∅ }

/-- Every translation that is kept is that of the tables. -/
def Mmu.Coherent (m : Mmu) : Prop :=
  ∀ linear target, (linear, target) ∈ m.kept → m.tables.walk linear = some target

/-- An access finds its address among the translations kept, or in the tables. -/
def Mmu.Translates (m : Mmu) (linear : BitVec 32) (target : Target) : Prop :=
  (linear, target) ∈ m.kept ∨ m.tables.walk linear = some target

theorem Mmu.Coherent.translates_iff {m : Mmu} (coherent : m.Coherent) {linear : BitVec 32}
    {target : Target} : m.Translates linear target ↔ m.tables.walk linear = some target :=
  ⟨fun translates => translates.elim (coherent linear target) id, .inr⟩

/-- The tables after a list of actions. -/
def changeTables (actions : List MmuEvent) (tables : Tables) : Tables :=
  actions.foldl
    (fun tables action =>
      match action with
      | .store change => change tables
      | .fill _ _ | .flush => tables)
    tables

theorem Mmu.run_tables {m after : Mmu} {actions : List MmuEvent}
    (run : Run Mmu.Step m actions after) : after.tables = changeTables actions m.tables := by
  induction run with
  | nil => rfl
  | snoc _ step earlier =>
      rw [changeTables, List.foldl_append]
      cases step with
      | fill found => exact earlier
      | store change => exact congrArg change earlier
      | flush => exact earlier

/-- The tables may have changed since the last flush. -/
def Unflushed : List MmuEvent → Prop :=
  List.foldl
    (fun unflushed action =>
      match action with
      | .store _ => True
      | .flush => False
      | .fill _ _ => unflushed)
    False

theorem unflushed_concat (actions : List MmuEvent) (action : MmuEvent) :
    Unflushed (actions ++ [action]) ↔
      match action with
      | .store _ => True
      | .flush => False
      | .fill _ _ => Unflushed actions := by
  rw [Unflushed, List.foldl_append]
  cases action <;> rfl

/-- The actions that a program asks for; the others are up to the processor. -/
def MmuEvent.isRequested : MmuEvent → Bool
  | .fill _ _ => false
  | .store _ | .flush => true

/-- The processor does what a program asks for, and keeps translations at any time. -/
def Carries (actions program : List MmuEvent) : Prop :=
  actions.filter MmuEvent.isRequested = program

theorem Carries.changeTables {actions program : List MmuEvent} (carries : Carries actions program)
    (tables : Tables) : changeTables actions tables = changeTables program tables := by
  rw [← carries]
  clear carries
  induction actions generalizing tables with
  | nil => rfl
  | cons action rest induction =>
      cases action with
      | fill linear target => exact induction tables
      | store change => exact induction (change tables)
      | flush => exact induction tables

theorem Carries.unflushed_iff {actions program : List MmuEvent}
    (carries : Carries actions program) : Unflushed actions ↔ Unflushed program := by
  rw [← carries]
  clear carries
  induction actions using List.reverseRecOn with
  | nil => exact Iff.rfl
  | append_singleton actions action induction =>
      rw [unflushed_concat, List.filter_append]
      cases action with
      | fill linear target =>
          change _ ↔ Unflushed (_ ++ [])
          rw [List.append_nil]
          exact induction
      | store change =>
          change _ ↔ Unflushed (_ ++ [_])
          rw [unflushed_concat]
      | flush =>
          change _ ↔ Unflushed (_ ++ [_])
          rw [unflushed_concat]

theorem Mmu.exists_run (m : Mmu) (program : List MmuEvent)
    (requested : ∀ action ∈ program, action.isRequested = true) :
    ∃ after, Run Mmu.Step m program after := by
  induction program using List.reverseRecOn with
  | nil => exact ⟨m, .nil⟩
  | append_singleton program action induction =>
      obtain ⟨middle, run⟩ := induction fun other member =>
        requested other (List.mem_append_left _ member)
      cases action with
      | fill linear target =>
          have isRequested := requested (.fill linear target) (by simp)
          cases isRequested
      | store change => exact ⟨_, run.snoc (.store change)⟩
      | flush => exact ⟨_, run.snoc .flush⟩

/-- Once a flush has followed the last change, everything kept is right. -/
theorem Mmu.Coherent.run {m after : Mmu} {actions : List MmuEvent} (coherent : m.Coherent)
    (run : Run Mmu.Step m actions after) (flushed : ¬Unflushed actions) : after.Coherent := by
  induction run with
  | nil => exact coherent
  | snoc _ step earlier =>
      rw [unflushed_concat] at flushed
      cases step with
      | store change => exact (flushed trivial).elim
      | flush =>
          intro linear target member
          exact member.elim
      | fill found =>
          intro linear target member
          rcases Set.mem_insert_iff.mp member with here | before
          · cases here
            exact found
          · exact earlier flushed linear target before

end PageWalk
