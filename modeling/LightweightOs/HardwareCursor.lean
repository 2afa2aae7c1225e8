import LightweightOs.CursorBounds

/-!
# The hardware cursor

`putc` sends the position of the cursor to the VGA, but for a newline it does so
before it scrolls, and the row it sends is then one too far down.  The keyboard
driver sends the position again after its newlines, and an Alt+Fn switch sends
that of the terminal it displays, so only a `terminal_write` whose last byte
scrolls the display leaves the cursor in the wrong place.
-/

namespace LightweightOs

open Transition

/-- A line feed or a carriage return; `putc` goes to the next row for both. -/
abbrev LineEnd (c : Byte) : Prop := c = newline ∨ c = carriageReturn

def lineEnds (text : List Byte) : Nat := text.countP fun c => LineEnd c

/-- The position last sent to the VGA is the cursor of the displayed terminal. -/
def Tty.CursorShown (t : Tty) : Prop :=
  (t.cursor.toNat : Int) = 80 * t.screenY t.row + t.screenX t.row

/-- The driver after `keyboard_init` and the `clear` that follows it. -/
def Tty.Cleared (t : Tty) : Prop :=
  ∃ (raw : Tty) (who : Interrupted), raw.CursorsInBounds ∧
    t = { raw.keyboardInit with
      toConsole := raw.toConsole.clear 1 who.curProcessLocal who.processId }

/-- A step that leaves the cursors on their screens. -/
def BoundedStep (t : Tty) (record : ScreenRecord) (u : Tty) : Prop :=
  ScreenStep t record u ∧ u.CursorsInBounds

/-- The last byte of the text goes to the next row when the cursor is on the last one,
after starting on `row`. -/
def EndsScrolling (row : Int) (text : List Byte) : Prop :=
  (∃ c ∈ text.getLast?, LineEnd c) ∧ 25 ≤ row + lineEnds text

/-- The event is no `terminal_write` to the displayed terminal that ends scrolling. -/
def ScreenRecord.PlacesCursor (record : ScreenRecord) : Prop :=
  match record.event with
  | .key _ _ => True
  | .write curProcessLocal input =>
      record.before.curTerminal = curProcessLocal →
        ¬EndsScrolling (record.before.screenY record.before.row) input

namespace Screen

variable {s : Screen}

theorem puts_y (bounds : s.InBounds) (text : List Byte) :
    (s.puts text).y = min 24 (s.y + lineEnds text) := by
  induction text generalizing s with
  | nil =>
      have bottom := bounds.bottom
      simp only [numRows] at bottom
      simp only [puts_nil, lineEnds, List.countP_nil, Nat.cast_zero]
      omega
  | cons c rest induction =>
      have bottom := bounds.bottom
      simp only [numRows] at bottom
      rw [puts_cons, induction (bounds.put c), lineEnds, lineEnds, List.countP_cons]
      simp only [Screen.put]
      by_cases isEnd : LineEnd c
      · simp only [decide_eq_true isEnd, if_true]
        rw [if_pos isEnd]
        split
        case isTrue last =>
          simp only [numRows] at last ⊢
          push_cast
          omega
        case isFalse =>
          push_cast
          omega
      · simp only [decide_eq_false isEnd, Bool.false_eq_true, if_false]
        rw [if_neg isEnd, Nat.add_zero]

end Screen

namespace Console

variable {con : Console} {curTerminal curProcessLocal : Int} {c : Byte}

/-- The VGA has the cursor of the terminal with this index. -/
def Placed (con : Console) (cursorIdx : Int) : Prop :=
  con.cursor = BitVec.ofInt 16 (con.screenY cursorIdx * 80 + con.screenX cursorIdx)

theorem placed_putcDisplay_text (con : Console) (curTerminal : Int)
    (isText : ¬LineEnd c) : (con.putcDisplay curTerminal c).Placed (curTerminal - 1) := by
  rw [putcDisplay, if_neg isText]
  rfl

/-- A line end places the cursor unless it scrolls. -/
theorem placed_putcDisplay_lineEnd (isEnd : LineEnd c)
    (top : 0 ≤ con.screenY (curTerminal - 1)) (bottom : con.screenY (curTerminal - 1) < 25) :
    (con.putcDisplay curTerminal c).Placed (curTerminal - 1) ↔
      con.screenY (curTerminal - 1) < 24 := by
  rw [putcDisplay, if_pos isEnd]
  simp only [updateCursor, assign_self]
  split
  case isTrue last =>
    have row : con.screenY (curTerminal - 1) = 24 := by omega
    simp only [Placed, assign_self, numRows, row]
    exact iff_of_false (by decide) (lt_irrefl _)
  case isFalse inside =>
    simp only [Placed, assign_self, true_iff]
    omega

/-- Printing in the background touches neither the VGA nor the displayed cursor. -/
theorem placed_putcBackground (hidden : curTerminal ≠ curProcessLocal) :
    (con.putc curTerminal curProcessLocal c false).Placed (curTerminal - 1) ↔
      con.Placed (curTerminal - 1) := by
  have apart : curTerminal - 1 ≠ curProcessLocal - 1 := by omega
  have branch : ¬(curTerminal = curProcessLocal ∨ false = true) := by simp [hidden]
  rw [putc, if_neg branch, putcBackground]
  split
  · simp only [assign_self]
    split <;> simp only [Placed, assign_of_ne apart]
  · simp only [Placed, assign_of_ne apart]

theorem terminalWrite_eq (con : Console) (curTerminal curProcessLocal : Int)
    (input : List Byte) :
    con.terminalWrite curTerminal curProcessLocal input =
      (input.map fun c => if c = tab then space else c).foldl
        (fun con c => con.putc curTerminal curProcessLocal c false) con := by
  rw [List.foldl_map, terminalWrite]

theorem lineEnd_written (c : Byte) : LineEnd (if c = tab then space else c) ↔ LineEnd c := by
  by_cases isTab : c = tab
  · rw [if_pos isTab, isTab]
    exact iff_of_false (by decide) (by decide)
  · rw [if_neg isTab]

theorem lineEnds_written (input : List Byte) :
    lineEnds (input.map fun c => if c = tab then space else c) = lineEnds input := by
  simp only [lineEnds, List.countP_map]
  apply List.countP_congr
  intro c _
  simp only [Function.comp_apply, decide_eq_true_eq]
  exact lineEnd_written c

/-- The row of the displayed terminal after a `terminal_write` to it. -/
theorem terminalWrite_screenY (bounds : con.CursorsInBounds) (low : 1 ≤ curTerminal)
    (high : curTerminal ≤ 3) (input : List Byte) :
    (con.terminalWrite curTerminal curTerminal input).screenY (curTerminal - 1) =
      min 24 (con.screenY (curTerminal - 1) + lineEnds input) := by
  have inside := bounds.logical curTerminal low high
  have row := (con.prints_terminalWrite input inside).printed.y
  have moved := Screen.puts_y inside (input.map fun c => if c = tab then space else c)
  rw [lineEnds_written] at moved
  exact row.trans moved

theorem placed_terminalWrite (bounds : con.CursorsInBounds) (low : 1 ≤ curTerminal)
    (high : curTerminal ≤ 3) (placed : con.Placed (curTerminal - 1)) (input : List Byte) :
    (con.terminalWrite curTerminal curTerminal input).Placed (curTerminal - 1) ↔
      ¬EndsScrolling (con.screenY (curTerminal - 1)) input := by
  rcases List.eq_nil_or_concat' input with rfl | ⟨earlier, c, rfl⟩
  · apply iff_of_true placed
    rintro ⟨⟨c, last, _⟩, _⟩
    cases last
  · have row := terminalWrite_screenY bounds low high earlier
    obtain ⟨_, top, bottom⟩ := bounds curTerminal low high
    have step : con.terminalWrite curTerminal curTerminal (earlier ++ [c]) =
        (con.terminalWrite curTerminal curTerminal earlier).putcDisplay curTerminal
          (if c = tab then space else c) := by
      simp only [terminalWrite, List.foldl_append, List.foldl_cons, List.foldl_nil, putc,
        true_or, if_true]
    rw [step]
    by_cases isEnd : LineEnd c
    · rw [placed_putcDisplay_lineEnd ((lineEnd_written c).mpr isEnd) (by omega) (by omega)]
      have counted : lineEnds (earlier ++ [c]) = lineEnds earlier + 1 := by
        simp [lineEnds, List.countP_append, isEnd]
      have ends : ∃ d ∈ (earlier ++ [c]).getLast?, LineEnd d := ⟨c, by simp, isEnd⟩
      simp only [EndsScrolling, ends, true_and, counted]
      push_cast
      omega
    · apply iff_of_true
      · exact placed_putcDisplay_text _ _ (mt (lineEnd_written c).mp isEnd)
      · rintro ⟨⟨d, last, isEnd'⟩, _⟩
        rw [List.getLast?_concat] at last
        cases last
        exact isEnd isEnd'

theorem placed_terminalWrite_hidden (hidden : curTerminal ≠ curProcessLocal)
    (input : List Byte) :
    (con.terminalWrite curTerminal curProcessLocal input).Placed (curTerminal - 1) ↔
      con.Placed (curTerminal - 1) := by
  rw [terminalWrite_eq]
  generalize input.map (fun c => if c = tab then space else c) = text
  induction text generalizing con with
  | nil => exact .rfl
  | cons c rest induction => exact induction.trans (placed_putcBackground hidden)

theorem placed_puts (con : Console) (curTerminal curProcessLocal : Int) (text : List Byte)
    (plain : ∀ c ∈ text, ¬LineEnd c) (placed : con.Placed (curTerminal - 1)) :
    (text.foldl (fun con c => con.putc curTerminal curProcessLocal c true) con).Placed
      (curTerminal - 1) := by
  induction text generalizing con with
  | nil => exact placed
  | cons c rest induction =>
      rw [List.forall_mem_cons] at plain
      apply induction _ plain.2
      change (con.putc curTerminal curProcessLocal c true).Placed (curTerminal - 1)
      rw [putc, if_pos (.inr rfl)]
      exact con.placed_putcDisplay_text curTerminal plain.1

theorem placed_clear (con : Console) (curTerminal curProcessLocal processId : Int) :
    (con.clear curTerminal curProcessLocal processId).Placed (curTerminal - 1) := by
  have cleared : (con.cleared curTerminal).Placed (curTerminal - 1) := by
    simp only [Placed, Console.cleared, updateCursor, assign_self]
  rw [clear_eq]
  split
  · exact placed_puts _ _ _ prompt (by decide) cleared
  · exact cleared

end Console

namespace Tty

variable {t : Tty} (who : Interrupted) (scanCode : Byte)

theorem charOf_ne_carriageReturn (t : Tty) : t.charOf scanCode ≠ carriageReturn := by
  have absent : ∀ table : List Byte, carriageReturn ∉ table →
      lookup table scanCode ≠ carriageReturn := by
    intro table notIn isReturn
    rw [lookup, List.getD_eq_getElem?_getD] at isReturn
    cases found : table[scanCode.toNat]? with
    | none =>
        rw [found] at isReturn
        exact absurd isReturn (by decide)
    | some c =>
        rw [found] at isReturn
        exact notIn (isReturn ▸ List.mem_of_getElem? found)
  unfold charOf
  split
  · exact absent _ (by decide +kernel)
  · split
    · exact absent _ (by decide +kernel)
    · exact absent _ (by decide +kernel)

theorem charOf_text (t : Tty) : ¬LineEnd (t.charOf scanCode) := by
  rintro (isNewline | isReturn)
  · exact (charOf_plain scanCode t).2 isNewline
  · exact charOf_ne_carriageReturn scanCode t isReturn

/-- The position sent for the displayed terminal. -/
def Placed (t : Tty) : Prop := t.toConsole.Placed t.row

theorem placed_placeCursor (t : Tty) : t.placeCursor.Placed := rfl

/-- A character is echoed after the cursor has been placed, and places it again. -/
theorem placed_charKey (placed : t.Placed) : (t.charKey who scanCode).Placed := by
  unfold Tty.charKey
  split
  · have loaded : (t.store t.index (t.charOf scanCode)).load t.index = t.charOf scanCode :=
      store_line_self t t.index _
    have printed := t.toConsole.placed_putcDisplay_text t.curTerminal
      (charOf_text scanCode t)
    change Console.Placed (t.toConsole.putc t.curTerminal who.curProcessLocal
      ((t.store t.index (t.charOf scanCode)).load t.index) true) t.row
    rw [loaded, Console.putc, if_pos (.inr rfl)]
    exact printed
  · exact placed

theorem placed_keyPress (t : Tty) : (t.keyPress who scanCode).Placed := by
  rw [keyPress]
  split
  · rw [keyBlocks]
    exact placed_charKey who scanCode (placed_placeCursor _)
  · exact placed_placeCursor _

/-- On its screen the cursor's position fits the register of the VGA. -/
theorem cursorShown_iff (displayed : 1 ≤ t.curTerminal ∧ t.curTerminal ≤ 3)
    (bounds : t.CursorsInBounds) : t.CursorShown ↔ t.Placed := by
  obtain ⟨⟨left, right⟩, top, bottom⟩ := bounds t.curTerminal displayed.1 displayed.2
  change 0 ≤ t.screenX t.row at left
  change t.screenX t.row < 80 at right
  change 0 ≤ t.screenY t.row at top
  change t.screenY t.row < 25 at bottom
  have fits : ((BitVec.ofInt 16 (t.screenY t.row * 80 + t.screenX t.row)).toNat : Int) =
      80 * t.screenY t.row + t.screenX t.row := by
    rw [BitVec.toNat_ofInt]
    omega
  rw [Placed, Console.Placed, CursorShown, ← fits]
  constructor
  · intro same
    apply BitVec.eq_of_toNat_eq
    exact Int.ofNat_inj.mp same
  · intro same
    rw [same]

theorem keyPress_displayed (displayed : 1 ≤ t.curTerminal ∧ t.curTerminal ≤ 3) :
    1 ≤ (t.keyPress who scanCode).curTerminal ∧
      (t.keyPress who scanCode).curTerminal ≤ 3 := by
  rw [keyPress]
  split
  · rw [keyBlocks_curTerminal]
    exact displayed
  case h_2 selected selects => exact selectedTerminal_range selects

/-- What the steps that place the cursor preserve. -/
structure CursorInvariant (t : Tty) : Prop where
  displayed : 1 ≤ t.curTerminal ∧ t.curTerminal ≤ 3
  bounds : t.CursorsInBounds
  placed : t.Placed

theorem Cleared.cursorInvariant (cleared : t.Cleared) : t.CursorInvariant := by
  obtain ⟨raw, who, bounds, rfl⟩ := cleared
  constructor
  case displayed => exact ⟨le_rfl, (by decide : (1 : Int) ≤ 3)⟩
  case bounds =>
    have first := Console.CursorsInBounds.cleared bounds 1
    change (raw.toConsole.clear 1 who.curProcessLocal who.processId).CursorsInBounds
    rw [Console.clear_eq]
    split
    · have highest : (1 : Int) ≤ 3 := by decide
      exact (@Console.CursorsInBounds.puts _ first 1 who.curProcessLocal true 1 rfl le_rfl
        highest Console.prompt).1
    · exact first
  case placed => exact raw.toConsole.placed_clear 1 who.curProcessLocal who.processId

/-- A step from a placed cursor places it exactly as its record says. -/
theorem CursorInvariant.step {u : Tty} {record : ScreenRecord} (holds : t.CursorInvariant)
    (step : BoundedStep t record u) :
    (1 ≤ u.curTerminal ∧ u.curTerminal ≤ 3) ∧ (u.Placed ↔ record.PlacesCursor) := by
  obtain ⟨before, event, after⟩ := record
  obtain ⟨⟨rfl, rfl, _, performed⟩, _⟩ := step
  dsimp only at performed
  subst performed
  obtain ⟨displayed, bounds, placed⟩ := holds
  cases event with
  | key who scanCode =>
      exact ⟨keyPress_displayed who scanCode displayed,
        iff_of_true (placed_keyPress who scanCode before) trivial⟩
  | write curProcessLocal input =>
      refine ⟨displayed, ?_⟩
      by_cases shown : before.curTerminal = curProcessLocal
      · subst shown
        have written := before.toConsole.placed_terminalWrite bounds displayed.1 displayed.2
          placed input
        exact written.trans ⟨fun ends _ => ends, fun ends => ends rfl⟩
      · have written := @Console.placed_terminalWrite_hidden before.toConsole _ _ shown input
        exact iff_of_true (written.mpr placed) fun isShown => (shown isShown).elim

end Tty

theorem hardware_cursor {start t : Tty} {history : List ScreenRecord}
    (cleared : start.Cleared)
    (run : Run (Guarded (fun _ record => record.PlacesCursor) BoundedStep) start history t) :
    t.CursorShown ∧
      ∀ record u, BoundedStep t record u → (u.CursorShown ↔ record.PlacesCursor) := by
  have holds : t.CursorInvariant := by
    apply run.invariant _ cleared.cursorInvariant
    intro t record u holds step
    obtain ⟨displayed, placed⟩ := holds.step step.2
    exact ⟨displayed, step.2.2, placed.mpr step.1⟩
  constructor
  · exact (Tty.cursorShown_iff holds.displayed holds.bounds).mpr holds.placed
  · intro record u step
    obtain ⟨displayed, placed⟩ := holds.step step
    rw [Tty.cursorShown_iff displayed step.2]
    exact placed

theorem Console.cursorsInBounds_iff (con : Console) :
    con.CursorsInBounds ↔
      ∀ index ∈ ([0, 1, 2] : List Int),
        (0 ≤ con.screenX index ∧ con.screenX index < 80) ∧
          (0 ≤ con.screenY index ∧ con.screenY index < 25) := by
  constructor
  · intro bounds index member
    have range : 1 ≤ index + 1 ∧ index + 1 ≤ 3 := by
      simp only [List.mem_cons, List.not_mem_nil, or_false] at member
      omega
    have here := bounds (index + 1) range.1 range.2
    rwa [Int.add_sub_cancel] at here
  · intro all terminal low high
    apply all
    simp only [List.mem_cons, List.not_mem_nil, or_false]
    omega

instance (con : Console) : Decidable con.CursorsInBounds :=
  decidable_of_iff _ con.cursorsInBounds_iff.symm

instance (row : Int) (text : List Byte) : Decidable (EndsScrolling row text) :=
  inferInstanceAs (Decidable (_ ∧ _))

instance (record : ScreenRecord) : Decidable record.PlacesCursor :=
  match record with
  | ⟨_, .key _ _, _⟩ => isTrue trivial
  | ⟨_, .write _ _, _⟩ => inferInstanceAs (Decidable (_ → _))

/-- Take the step an event asks for, if it keeps the bounds. -/
def Tty.boundedAdvance (t : Tty) (event : ScreenEvent) : Option (ScreenRecord × Tty) :=
  if (t.screenPerform event).CursorsInBounds then t.screenAdvance event else none

theorem Tty.boundedAdvance_step (t : Tty) (event : ScreenEvent) (record : ScreenRecord)
    (next : Tty) (advances : t.boundedAdvance event = some (record, next)) :
    BoundedStep t record next := by
  rw [boundedAdvance] at advances
  split at advances
  case isTrue bounds =>
    have step := t.screenAdvance_step event record next advances
    refine ⟨step, ?_⟩
    rw [step.performed]
    rw [screenAdvance] at advances
    split at advances
    · cases advances
      exact bounds
    · cases advances
  case isFalse => cases advances

/-- The screen after the boot. -/
def sampleCleared : Tty :=
  { sampleTty.keyboardInit with toConsole := sampleTty.toConsole.clear 1 1 0 }

theorem sampleCleared_cleared : sampleCleared.Cleared :=
  ⟨sampleTty, ⟨1, 0⟩, by decide, rfl⟩

/-- A letter is typed, programs of two terminals print, and the second is displayed. -/
def sampleDisplay : List ScreenEvent :=
  [.key ⟨1, 1⟩ letterA, .write 1 [0x62#8, newline], .write 2 [0x63#8],
    .key ⟨1, 1⟩ ScanCode.alt, .key ⟨1, 1⟩ ScanCode.f2]

theorem hardware_cursor_sampleDisplay :
    ∃ history t, Run BoundedStep sampleCleared history t ∧ history.length = 5 ∧
      t.curTerminal = 2 ∧ t.CursorShown := by
  obtain ⟨history, t, run, length, shown, places⟩ :=
    @exists_run_of_replay _ _ _ _ Tty.boundedAdvance Tty.boundedAdvance_step
      sampleCleared sampleDisplay
      (fun history t => history.length = 5 ∧ t.curTerminal = 2 ∧
        ∀ record ∈ history, record.PlacesCursor) _ (by decide +kernel)
  have guarded := run.guarded fun record member (_ : Tty) => places record member
  exact ⟨history, t, run, length, shown, (hardware_cursor sampleCleared_cleared guarded).1⟩

/-- A program prints as many newlines as the screen has rows. -/
theorem hardware_cursor_scrolled :
    ¬∀ start t history, start.Cleared → Run BoundedStep start history t →
      t.CursorShown := by
  intro shown
  obtain ⟨history, t, run, wrong⟩ :=
    @exists_run_of_replay _ _ _ _ Tty.boundedAdvance Tty.boundedAdvance_step
      sampleCleared [.write 1 (List.replicate 25 newline)]
      (fun _ t => t.cursor.toNat = 2000 ∧ 80 * t.screenY t.row + t.screenX t.row = 1920) _
      (by decide +kernel)
  have position := shown sampleCleared t history sampleCleared_cleared run
  rw [Tty.CursorShown, wrong.1, wrong.2] at position
  exact absurd position (by decide)

end LightweightOs
