import LightweightOs.KeyboardRows
import LightweightOs.System

/-!
# Bounds of the keyboard buffer

A run of the driver takes scan codes and calls of `terminal_read` in any order.
The index of every row stays in the row.  The accesses do so exactly as long as
Enter is not pressed on a full line and no call of `terminal_read` comes through
its wait.
-/

namespace LightweightOs

open Transition

inductive TtyEvent where
  | key (who : Interrupted) (scanCode : Byte)
  | readStart (curProcess bytes : Int)
  | readLine (curProcess bytes : Int)

namespace Tty

def perform (t : Tty) : TtyEvent → Tty
  | .key who scanCode => t.keyPress who scanCode
  | .readStart curProcess bytes =>
      if bytes = 0 then t else t.terminalReadStart curProcess
  | .readLine _ bytes => (t.terminalReadLine bytes).1

/-- `terminal_read` goes on when the flag of its terminal is set. -/
def Allows (t : Tty) : TtyEvent → Prop
  | .readLine curProcess bytes => bytes ≠ 0 ∧ t.lineReady curProcess
  | .key _ _ | .readStart _ _ => True

end Tty

structure TtyRecord where
  before : Tty
  event : TtyEvent
  after : Tty

structure TtyStep (t : Tty) (record : TtyRecord) (u : Tty) : Prop where
  before : record.before = t
  after : record.after = u
  allowed : t.Allows record.event
  performed : u = t.perform record.event

namespace TtyRecord

/-- The steps that use no byte outside a row. -/
def StaysInRow (record : TtyRecord) : Prop :=
  match record.event with
  | .key _ scanCode =>
      ¬(scanCode = ScanCode.enter ∧ record.before.index = bufferSize - 1)
  | .readStart _ _ => True
  | .readLine _ _ => False

/-- A key changes no byte of another row, or past the array. -/
def Isolated (record : TtyRecord) : Prop :=
  match record.event with
  | .key _ _ =>
      ∀ c, Tty.Outside record.before.row c →
        record.after.keyboardBuffer c = record.before.keyboardBuffer c
  | _ => True

end TtyRecord

/-- The rows after a run, and the steps that led to them. -/
structure RowsSafe (history : List TtyRecord) (t : Tty) : Prop where
  indices : ∀ row, 0 ≤ row → row < numTerminals →
    0 ≤ t.keyboardIndex row ∧ t.keyboardIndex row ≤ bufferSize - 1
  accesses : ∀ access ∈ t.accesses, Tty.InRow access
  isolated : ∀ record ∈ history, record.Isolated

namespace Tty

variable {t u : Tty} (who : Interrupted) (scanCode : Byte)

/-- The state after `keyboard_init`, when the buffer has not been used yet. -/
def Initial (t : Tty) : Prop := ∃ raw : Tty, raw.accesses = [] ∧ t = raw.keyboardInit

/-- What holds of the rows in every run. -/
structure RowsInvariant (t : Tty) : Prop where
  displayed : 1 ≤ t.curTerminal ∧ t.curTerminal ≤ 3
  rows : t.Rows

theorem RowsInvariant.shaped (holds : t.RowsInvariant) : t.Shaped := by
  obtain ⟨low, high⟩ := holds.displayed
  exact holds.rows t.row (by simp only [row]; omega)
    (by simp only [row, numTerminals]; omega)

theorem Initial.invariant (initial : t.Initial) : t.RowsInvariant := by
  obtain ⟨raw, _, rfl⟩ := initial
  refine ⟨⟨by simp [keyboardInit], by simp [keyboardInit]⟩, ?_⟩
  intro row low high
  have empty : raw.keyboardInit.keyboardIndex row = 0 := by
    simp only [numTerminals] at high
    interval_cases row <;> simp [keyboardInit]
  rw [empty]
  exact .zero _

/-- The accesses of `u` are those of `t`, after some new ones. -/
def Extends (t u : Tty) (new : List (Int × Int)) : Prop :=
  u.accesses = new ++ t.accesses

theorem enterFull_accesses (full : t.index = bufferSize - 1) :
    ∃ new, Extends t (t.enterKey who ScanCode.enter) new ∧
      (t.row, bufferSize) ∈ new := by
  have next : ((t.store t.index newline).setIndex (t.index + 1)).index = bufferSize := by
    rw [setIndex_index]
    omega
  refine ⟨[(t.row, bufferSize), (t.row, t.index)], ?_, by simp⟩
  rw [Extends, enterKey, if_pos rfl]
  change (_, ((t.store t.index newline).setIndex (t.index + 1)).index) :: _ = _
  rw [next]
  rfl

theorem copyLine_accesses (t : Tty) (outputIndex : Int) (left : Nat) :
    ∃ new, Extends t (t.copyLine outputIndex left).1 new := by
  induction left generalizing t outputIndex with
  | zero => exact ⟨[], rfl⟩
  | succ left induction =>
      simp only [copyLine]
      split
      · exact ⟨[(t.row, outputIndex), (t.row, outputIndex)], rfl⟩
      · obtain ⟨new, extended⟩ :=
          induction ((t.touch outputIndex).touch outputIndex) (outputIndex + 1)
        refine ⟨new ++ [(t.row, outputIndex), (t.row, outputIndex)], ?_⟩
        rw [Extends, extended, List.append_assoc]
        rfl

theorem copyLine_eq (t : Tty) (outputIndex : Int) (left : Nat) :
    (t.copyLine outputIndex left).1 =
      { t with accesses := (t.copyLine outputIndex left).1.accesses } := by
  induction left generalizing t outputIndex with
  | zero => rfl
  | succ left induction =>
      simp only [copyLine]
      split
      · rfl
      · rw [induction]
        rfl

theorem terminalReadLine_accesses (t : Tty) (bytes : Int) :
    ∃ new, Extends t (t.terminalReadLine bytes).1 new ∧ (t.row, bufferSize) ∈ new := by
  obtain ⟨copied, extended⟩ := copyLine_accesses t 0 bytes.toNat
  have sameRow := (SameControls.copyLine t 0 bytes.toNat).row
  simp only [terminalReadLine]
  split
  · refine ⟨(t.row, bufferSize) :: (t.row, bufferSize) :: copied, ?_, by simp⟩
    rw [Extends, List.cons_append, List.cons_append, ← extended, ← sameRow]
    rfl
  · refine ⟨(t.row, bufferSize) :: copied, ?_, by simp⟩
    rw [Extends, List.cons_append, ← extended, ← sameRow]
    rfl

theorem not_inRow_bufferSize {row : Int} : ¬InRow (row, bufferSize) := by
  simp [InRow, bufferSize]

/-- What a key does to the rows, whichever key it is. -/
structure KeyEffect (t u : Tty) (safe : Prop) : Prop where
  curTerminal : u.curTerminal = t.curTerminal
  rows : u.Rows
  isolated : safe → ∀ c, Outside t.row c → u.keyboardBuffer c = t.keyboardBuffer c
  accesses : ∃ new, Extends t u new ∧ ((∀ access ∈ new, InRow access) ↔ safe)

theorem RowsInvariant.keyBlocks (holds : t.RowsInvariant) :
    KeyEffect t (t.keyBlocks who scanCode)
      ¬(scanCode = ScanCode.enter ∧ t.index = bufferSize - 1) := by
  have shaped := holds.shaped
  by_cases full : scanCode = ScanCode.enter ∧ t.index = bufferSize - 1
  · obtain ⟨rfl, isFull⟩ := full
    have modified := shaped.modifierKeys ScanCode.enter
    have modifiedRows := modified.rows holds.rows
    have ended := modifiedRows.enterFull who modified.shaped isFull
    have emptied : ((t.modifierKeys ScanCode.enter).enterKey who ScanCode.enter).Shaped := by
      obtain ⟨low, high⟩ := holds.displayed
      exact ended t.row (by simp only [row]; omega)
        (by simp only [row, numTerminals]; omega)
    have rest := emptied.afterEnter who ScanCode.enter
    constructor
    case curTerminal => exact keyBlocks_curTerminal t who ScanCode.enter
    case rows => exact rest.rows ended
    case isolated => exact fun safe => (safe ⟨rfl, isFull⟩).elim
    case accesses =>
      obtain ⟨new, extended, outside⟩ :=
        @enterFull_accesses (t.modifierKeys ScanCode.enter) who isFull
      obtain ⟨later, isLater, _⟩ := rest.edits.accesses
      refine ⟨later ++ new, ?_, ?_⟩
      · exact isLater.trans (by rw [extended, List.append_assoc]; rfl)
      · constructor
        · intro inside
          exact (not_inRow_bufferSize
            (inside _ (List.mem_append_right later outside))).elim
        · intro safe
          exact (safe ⟨rfl, isFull⟩).elim
  · have edited := shaped.keyBlocks who scanCode fun pressed isFull =>
      full ⟨pressed, isFull⟩
    obtain ⟨new, isNew, inside⟩ := edited.edits.accesses
    exact ⟨edited.edits.curTerminal, edited.rows holds.rows,
      fun _ => edited.edits.buffer, new, isNew, fun _ => full, fun _ => inside⟩

theorem RowsInvariant.keyPress (holds : t.RowsInvariant) :
    (t.keyPress who scanCode).RowsInvariant ∧
      (¬(scanCode = ScanCode.enter ∧ t.index = bufferSize - 1) →
        ∀ c, Outside t.row c →
          (t.keyPress who scanCode).keyboardBuffer c = t.keyboardBuffer c) ∧
      ∃ new, Extends t (t.keyPress who scanCode) new ∧
        ((∀ access ∈ new, InRow access) ↔
          ¬(scanCode = ScanCode.enter ∧ t.index = bufferSize - 1)) := by
  have effect := holds.keyBlocks who scanCode
  simp only [Tty.keyPress]
  cases selects : (t.keyBlocks who scanCode).selectedTerminal scanCode with
  | none =>
      refine ⟨⟨?_, effect.rows⟩, effect.isolated, effect.accesses⟩
      rw [effect.curTerminal]
      exact holds.displayed
  | some selected =>
      exact ⟨⟨selectedTerminal_range selects, effect.rows⟩, effect.isolated,
        effect.accesses⟩

theorem RowsInvariant.terminalReadLine (holds : t.RowsInvariant) (bytes : Int) :
    (t.terminalReadLine bytes).1.RowsInvariant := by
  have shown := (SameControls.terminalReadLine t bytes).curTerminal
  refine ⟨shown ▸ holds.displayed, ?_⟩
  have copied := copyLine_eq t 0 bytes.toNat
  simp only [Tty.terminalReadLine]
  split
  · have ended : (t.store bufferSize nul).Rows := holds.rows.storeEnd
    apply ended.of_eq
    · rw [copied]
      rfl
    · intro _ _ _
      rw [copied]
      rfl
  · apply holds.rows.of_eq
    · rw [copied]
      rfl
    · intro _ _ _
      rw [copied]
      rfl

/-- One step keeps the rows, and uses only their bytes unless it is one of the
two exceptions. -/
theorem RowsInvariant.step {record : TtyRecord} (holds : t.RowsInvariant)
    (step : TtyStep t record u) :
    u.RowsInvariant ∧ (record.StaysInRow → record.Isolated) ∧
      ∃ new, Extends t u new ∧
        ((∀ access ∈ new, InRow access) ↔ record.StaysInRow) := by
  obtain ⟨before, event, after⟩ := record
  obtain ⟨rfl, rfl, allowed, performed⟩ := step
  dsimp only at allowed performed
  subst performed
  cases event with
  | key who scanCode => exact holds.keyPress who scanCode
  | readStart curProcess bytes =>
      have same : (before.perform (.readStart curProcess bytes)).RowsInvariant ∧
          Extends before (before.perform (.readStart curProcess bytes)) [] := by
        simp only [perform]
        split
        · exact ⟨holds, rfl⟩
        · exact ⟨⟨holds.displayed, holds.rows⟩, rfl⟩
      exact ⟨same.1, fun _ => trivial, [], same.2, by simp [TtyRecord.StaysInRow]⟩
  | readLine curProcess bytes =>
      obtain ⟨new, extended, outside⟩ := terminalReadLine_accesses before bytes
      refine ⟨holds.terminalReadLine bytes, fun _ => trivial, new, extended, ?_⟩
      constructor
      · intro inside
        exact not_inRow_bufferSize (inside _ outside)
      · exact False.elim

end Tty

theorem keyboard_rows {start t : Tty} {history : List TtyRecord}
    (initial : start.Initial) (run : Run TtyStep start history t) :
    (∀ row, 0 ≤ row → row < numTerminals →
      0 ≤ t.keyboardIndex row ∧ t.keyboardIndex row ≤ bufferSize - 1) ∧
      (RowsSafe history t ↔ ∀ record ∈ history, record.StaysInRow) := by
  have summary : t.RowsInvariant ∧
      ((∀ access ∈ t.accesses, Tty.InRow access) ↔
        ∀ record ∈ history, record.StaysInRow) ∧
      ((∀ record ∈ history, record.StaysInRow) →
        ∀ record ∈ history, record.Isolated) := by
    induction run with
    | nil =>
        have empty : start.accesses = [] := by
          obtain ⟨raw, unused, rfl⟩ := initial
          exact unused
        exact ⟨initial.invariant, by simp [empty], by simp⟩
    | @snoc earlier middle finish record _ step induction =>
        obtain ⟨holds, exact_iff, isolated⟩ := induction
        obtain ⟨next, isolates, new, extended, inside_iff⟩ := holds.step step
        refine ⟨next, ?_, ?_⟩
        · have accesses : finish.accesses = new ++ middle.accesses := extended
          rw [accesses]
          simp only [List.forall_mem_append, List.forall_mem_singleton, exact_iff,
            inside_iff, and_comm]
        · simp only [List.forall_mem_append, List.forall_mem_singleton]
          exact fun safe => ⟨isolated safe.1, isolates safe.2⟩
  obtain ⟨holds, exact_iff, isolated⟩ := summary
  have indices : ∀ row, 0 ≤ row → row < numTerminals →
      0 ≤ t.keyboardIndex row ∧ t.keyboardIndex row ≤ bufferSize - 1 := by
    intro row low high
    have shape := holds.rows row low high
    exact ⟨shape.low, shape.high⟩
  refine ⟨indices, ?_, ?_⟩
  · intro safe
    exact exact_iff.mp safe.accesses
  · intro safe
    exact ⟨indices, exact_iff.mpr safe, isolated safe⟩

/-- `n` characters have been typed and no modifier is held. -/
structure Typing (t : Tty) (n : Int) : Prop where
  ctrlFlag : t.ctrlFlag = false
  altFlag : t.altFlag = false
  index : t.index = n

/-- The scan code of the letter a. -/
def letterA : Byte := 0x1E#8

theorem Typing.charKey {t : Tty} {n : Int} (typing : Typing t n) (who : Interrupted)
    (room : n < bufferSize - 1) : Typing (t.charKey who letterA) (n + 1) := by
  have accepted : t.acceptsChar letterA :=
    ⟨by decide, by decide, typing.ctrlFlag, typing.altFlag, typing.index ▸ room⟩
  have same := Tty.SameControls.charKey who letterA t
  refine ⟨same.ctrlFlag.trans typing.ctrlFlag, same.altFlag.trans typing.altFlag, ?_⟩
  rw [Tty.charKey, if_pos accepted, Tty.setIndex_index]
  exact congrArg (· + 1) typing.index

theorem Typing.wrapLine {t : Tty} {n : Int} (typing : Typing t n) (who : Interrupted) :
    Typing (t.wrapLine who) (if n = maxLine then n + 1 else n) := by
  have same := Tty.SameControls.wrapLine who t
  refine ⟨same.ctrlFlag.trans typing.ctrlFlag, same.altFlag.trans typing.altFlag, ?_⟩
  by_cases full : n = maxLine
  · rw [if_pos full, Tty.wrapLine, if_pos ⟨typing.index.trans full, by
      rw [typing.index, full]; decide⟩]
    change (((t.store t.index newline).putcKeyboard who newline).setIndex
      (t.index + 1)).index = n + 1
    rw [Tty.setIndex_index, typing.index]
  · rw [if_neg full, Tty.wrapLine_of_index who (typing.index ▸ full), typing.index]

/-- A letter, after the newline that a line of `MAX_LINE` characters gets first. -/
theorem Typing.keyPress {t : Tty} {n next : Int} (typing : Typing t n)
    (who : Interrupted) (isNext : (if n = maxLine then n + 1 else n) = next)
    (room : next < bufferSize - 1) : Typing (t.keyPress who letterA) (next + 1) := by
  have modified : Typing (t.modifierKeys letterA) n :=
    ⟨typing.ctrlFlag, typing.altFlag, typing.index⟩
  have wrapped := modified.wrapLine who
  rw [isNext] at wrapped
  have placed : Typing ((t.modifierKeys letterA).wrapLine who).placeCursor next :=
    ⟨wrapped.ctrlFlag, wrapped.altFlag, wrapped.index⟩
  have typed := placed.charKey who room
  have blocks : t.keyBlocks who letterA =
      ((t.modifierKeys letterA).wrapLine who).placeCursor.charKey who letterA := by
    rw [Tty.keyBlocks, Tty.enterKey_of_ne _ who (by decide),
      Tty.clearKey_of_not who (by simp [letterA, ScanCode.l]),
      Tty.tabKey_of_ne _ who (by decide), Tty.backspaceKey_of_ne _ who (by decide)]
  have stays : (t.keyBlocks who letterA).selectedTerminal letterA = none := by
    rw [Tty.keyBlocks_selectedTerminal, Tty.selectedTerminal, if_neg]
    exact fun pressed => absurd pressed.1 (by rw [modified.altFlag]; decide)
  rw [Tty.keyPress]
  simp only [stays]
  rwa [blocks]

theorem keyStep (t : Tty) (who : Interrupted) (scanCode : Byte) :
    TtyStep t ⟨t, .key who scanCode, t.keyPress who scanCode⟩ (t.keyPress who scanCode) :=
  ⟨rfl, rfl, trivial, rfl⟩

theorem typing_run {t : Tty} {n : Int} (who : Interrupted) (typing : Typing t n)
    (count : Nat) (room : n + count ≤ bufferSize - 1)
    (noWrap : maxLine < n ∨ n + count ≤ maxLine) :
    ∃ history u, Run TtyStep t history u ∧ Typing u (n + count) := by
  induction count with
  | zero => exact ⟨[], t, .nil, by simpa using typing⟩
  | succ count induction =>
      push_cast at room noWrap ⊢
      obtain ⟨history, u, run, typed⟩ := induction (by omega) (by omega)
      have next := typed.keyPress who (if_neg (by omega)) (by omega)
      rw [add_assoc] at next
      exact ⟨_, _, run.snoc (keyStep u who letterA), next⟩

theorem fullLine_run {start : Tty} (who : Interrupted) (typing : Typing start 0) :
    ∃ history t, Run TtyStep start history t ∧ Typing t (bufferSize - 1) := by
  obtain ⟨first, t, firstRun, upTo⟩ := typing_run who typing 73 (by decide) (by decide)
  have wrapped := @Typing.keyPress t _ 74 upTo who (by decide) (by decide)
  obtain ⟨rest, u, restRun, full⟩ := typing_run who wrapped 51 (by decide) (by decide)
  have pressed := firstRun.snoc (keyStep t who letterA)
  exact ⟨_, u, pressed.trans restRun, full⟩

theorem sampleTty_initial : sampleTty.keyboardInit.Initial := ⟨sampleTty, rfl, rfl⟩

theorem sampleTty_typing : Typing sampleTty.keyboardInit 0 := ⟨rfl, rfl, rfl⟩

/-- A full line is typed and ended. -/
theorem keyboard_rows_sampleLine :
    ∃ history t, Run TtyStep sampleTty.keyboardInit history t ∧ history ≠ [] ∧
      (∀ row, 0 ≤ row → row < numTerminals →
        0 ≤ t.keyboardIndex row ∧ t.keyboardIndex row ≤ bufferSize - 1) ∧
      (RowsSafe history t ↔ ∀ record ∈ history, record.StaysInRow) := by
  obtain ⟨history, t, run, _⟩ := fullLine_run ⟨1, 1⟩ sampleTty_typing
  have ended := run.snoc (keyStep t ⟨1, 1⟩ ScanCode.enter)
  exact ⟨_, _, ended, by simp, keyboard_rows sampleTty_initial ended⟩

/-- Enter on a full line stores its `'\0'` past the end of the row. -/
theorem keyboard_rows_fullLine :
    ¬∀ start history t, start.Initial → Run TtyStep start history t →
      RowsSafe history t := by
  intro safe
  obtain ⟨history, t, run, full⟩ := fullLine_run ⟨1, 1⟩ sampleTty_typing
  have ended := run.snoc (keyStep t ⟨1, 1⟩ ScanCode.enter)
  have invariant : t.RowsInvariant := by
    apply run.invariant _ sampleTty_initial.invariant
    intro state record next holds step
    exact (holds.step step).1
  obtain ⟨_, _, new, extended, inside_iff⟩ :=
    invariant.step (keyStep t ⟨1, 1⟩ ScanCode.enter)
  have inside : ∀ access ∈ new, Tty.InRow access := by
    intro access member
    apply (safe _ _ _ sampleTty_initial ended).accesses
    rw [extended]
    exact List.mem_append_left _ member
  exact inside_iff.mp inside ⟨rfl, full.index⟩

/-- The step of the driver that an event of the kernel stands for, when the
interrupted process is `who`. -/
def Event.ttyEvent (s : Kernel) (who : Interrupted) : Event → Option TtyEvent
  | .key _ _ _ scanCode _ => some (.key who scanCode)
  | .readStart bytes => some (.readStart s.curProcess bytes)
  | .readLine bytes => some (.readLine s.curProcess bytes)
  | _ => none

/-- A step of the kernel is a step of the driver, or leaves all but the screen
alone. -/
theorem Step.tty {s next : Kernel} {record : Record} (step : Step s record next) :
    ∃ who,
      match record.event.ttyEvent s who with
      | some event => TtyStep s.tty ⟨s.tty, event, next.tty⟩ next.tty
      | none => s.KeepsKeyboard next := by
  obtain ⟨before, event, outcome⟩ := record
  obtain ⟨rfl, legal, taken⟩ := step
  dsimp only at taken legal
  cases event with
  | execute frame locals commandUser =>
      obtain ⟨result, executes, isNext⟩ := Option.map_eq_some_iff.mp taken
      have kept := (Kernel.execute_keepsKeyboard executes).1
      refine ⟨⟨0, 0⟩, ?_⟩
      cases result <;> cases isNext <;> exact kept
  | halt frame inner locals status after =>
      obtain ⟨result, halts, isNext⟩ := Option.map_eq_some_iff.mp taken
      have kept := Kernel.halt_keepsKeyboard halts
      refine ⟨⟨0, 0⟩, ?_⟩
      cases result <;> cases isNext <;> exact kept
  | pit frame locals =>
      obtain ⟨result, ticks, isNext⟩ := Option.map_eq_some_iff.mp taken
      refine ⟨⟨0, 0⟩, ?_⟩
      rcases Kernel.pitHandler_cases ticks with ⟨_, rfl⟩ | ⟨t, top, _, _, _, rfl⟩ <;>
        cases isNext <;> rfl
  | key frame inner locals scanCode after =>
      obtain ⟨result, handles, isNext⟩ := Option.map_eq_some_iff.mp taken
      obtain ⟨who, _, typed⟩ := Kernel.keyboardHandler_tty handles
      refine ⟨who, ?_⟩
      cases result <;> cases isNext <;> exact ⟨rfl, rfl, trivial, typed⟩
  | vidmap frame locals screenStart =>
      obtain ⟨⟨mapped, value, store⟩, maps, isNext⟩ := Option.map_eq_some_iff.mp taken
      refine ⟨⟨0, 0⟩, ?_⟩
      rcases Kernel.vidmap_cases maps with ⟨rfl, _⟩ | ⟨base, _, rfl, _⟩ <;>
        cases isNext <;> rfl
  | terminalWrite frame input =>
      obtain ⟨written, writes, isNext⟩ := Option.map_eq_some_iff.mp taken
      cases isNext
      exact ⟨⟨0, 0⟩, Kernel.terminalWrite_keepsKeyboard writes⟩
  | readStart bytes =>
      refine ⟨⟨0, 0⟩, rfl, rfl, trivial, ?_⟩
      simp only [Kernel.step] at taken
      simp only [Tty.perform]
      split at taken
      case isTrue noBytes =>
        cases taken
        rw [if_pos noBytes]
      case isFalse someBytes =>
        cases taken
        rw [if_neg someBytes]
  | readLine bytes =>
      cases taken
      exact ⟨⟨0, 0⟩, rfl, rfl, legal, rfl⟩
  | rtcWrite frequency =>
      cases taken
      exact ⟨⟨0, 0⟩, rfl⟩
  | rtc =>
      obtain ⟨ticked, _, isNext⟩ := Option.map_eq_some_iff.mp taken
      cases isNext
      exact ⟨⟨0, 0⟩, rfl⟩

theorem Step.rows {s next : Kernel} {record : Record} (holds : s.tty.RowsInvariant)
    (step : Step s record next) : next.tty.RowsInvariant := by
  obtain ⟨who, taken⟩ := Step.tty step
  split at taken
  · exact (holds.step taken).1
  · rw [taken]
    exact ⟨holds.displayed, holds.rows⟩

/-- In every run of the kernel the index of each row stays in the row. -/
theorem Booted.rows {start s : Kernel} {history : List Record} (booted : Booted start)
    (run : Run Step start history s) : s.tty.RowsInvariant := by
  have initial : start.tty.RowsInvariant := by
    obtain ⟨pre, frame, locals, after, started, preBoot, _, executes⟩ := booted
    obtain ⟨raw, isInit⟩ := preBoot.tty
    have kept := (Kernel.execute_keepsKeyboard executes).2 _ _ rfl
    have fresh : Tty.Initial ({ raw with accesses := [] } : Tty).keyboardInit :=
      ⟨{ raw with accesses := [] }, rfl, rfl⟩
    rw [kept, isInit]
    exact ⟨fresh.invariant.displayed, fresh.invariant.rows⟩
  exact run.invariant (fun _ _ _ holds step => Step.rows holds step) initial

end LightweightOs
