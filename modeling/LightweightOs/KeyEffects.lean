import LightweightOs.LineEditing

/-!
# What a key does to the line and the cursor

A key of one kind leaves most blocks of `keyboard_handler` alone: a key that edits
no line only lets the pending newline be added, a character key echoes behind it,
Backspace erases behind it.  The cursor of the displayed terminal is followed here
through what the blocks print, also where it has left its row on the left.
-/

namespace LightweightOs

namespace Tty

section Kinds

variable (who : Interrupted) {scanCode : Byte}

/-- The keys with a character. -/
def HasChar (scanCode : Byte) : Prop :=
  scanCode.toNat < scanCodes ∧ lookup scanCodesTable scanCode ≠ nul

instance (scanCode : Byte) : Decidable (HasChar scanCode) :=
  inferInstanceAs (Decidable (_ ∧ _))

theorem HasChar.ne (hasChar : HasChar scanCode) :
    scanCode ≠ ScanCode.enter ∧ scanCode ≠ ScanCode.tab ∧ scanCode ≠ ScanCode.backspace := by
  refine ⟨?_, ?_, ?_⟩
  all_goals
    intro same
    rw [same] at hasChar
    exact absurd hasChar (by decide)

theorem idle_of_up (up : 0x80 ≤ scanCode.toNat) :
    Idle scanCode ∧
      scanCode ≠ ScanCode.f1 ∧ scanCode ≠ ScanCode.f2 ∧ scanCode ≠ ScanCode.f3 := by
  have codes : ∀ down : Byte, down.toNat < 0x80 → scanCode ≠ down := by
    intro down low same
    rw [same] at up
    omega
  have noChar : ¬HasChar scanCode := by
    intro hasChar
    have low := hasChar.1
    simp only [scanCodes] at low
    omega
  refine ⟨⟨?_, ?_, ?_, ?_, noChar⟩, ?_, ?_, ?_⟩
  all_goals
    apply codes
    decide

theorem keyBlocks_char (t : Tty) (hasChar : HasChar scanCode)
    (released : (t.modifierKeys scanCode).ctrlFlag = false) :
    t.keyBlocks who scanCode =
      (((t.modifierKeys scanCode).wrapLine who).placeCursor).charKey who scanCode := by
  obtain ⟨notEnter, notTab, notBackspace⟩ := hasChar.ne
  have up : ((t.modifierKeys scanCode).wrapLine who).ctrlFlag = false :=
    (SameControls.wrapLine who _).ctrlFlag.trans released
  have notClear : ¬(((t.modifierKeys scanCode).wrapLine who).ctrlFlag ∧
      scanCode = ScanCode.l) := by
    rw [up]
    exact fun pressed => Bool.false_ne_true pressed.1
  rw [keyBlocks, enterKey_of_ne _ who notEnter, clearKey_of_not who notClear,
    tabKey_of_ne _ who notTab, backspaceKey_of_ne _ who notBackspace]

theorem keyBlocks_tab (t : Tty) :
    t.keyBlocks who ScanCode.tab =
      ((t.wrapLine who).tabKey who ScanCode.tab).placeCursor := by
  have plain : t.modifierKeys ScanCode.tab = t := rfl
  have rejected : ∀ u : Tty, ¬u.acceptsChar ScanCode.tab :=
    fun _ accepted => accepted.2.1 (by decide)
  rw [keyBlocks, plain, enterKey_of_ne _ who (by decide),
    clearKey_of_not who (fun pressed => absurd pressed.2 (by decide)),
    backspaceKey_of_ne _ who (by decide), charKey, if_neg (rejected _)]

end Kinds

/-- The cursor of the displayed terminal. -/
structure Points (t : Tty) (x y : Int) : Prop where
  x : t.screenX t.row = x
  y : t.screenY t.row = y

/-- The columns the cursor can be at, erasing included. -/
def Column (x : Int) : Prop := -80 ≤ x ∧ x < 80

instance (x : Int) : Decidable (Column x) := inferInstanceAs (Decidable (_ ∧ _))

namespace Points

variable {t u : Tty} {x y : Int} (who : Interrupted)

theorem quiet (points : t.Points x y) (row : u.row = t.row) (screenX : u.screenX = t.screenX)
    (screenY : u.screenY = t.screenY) : u.Points x y where
  x := by
    rw [row, screenX]
    exact points.x
  y := by
    rw [row, screenY]
    exact points.y

theorem text (points : t.Points x y) {c : Byte}
    (isText : ¬(c = newline ∨ c = carriageReturn)) (low : -80 ≤ x) (high : x < 79) :
    (t.putcKeyboard who c).Points (x + 1) y := by
  obtain ⟨column, line⟩ := @putcKeyboard_cursor t who c isText
  have stays : (x + 1).tmod numCols = x + 1 := tmod_numCols (by omega) (by omega)
  have sameRow : (x + 1).tdiv numCols = 0 := by
    have split := Int.mul_tdiv_add_tmod (x + 1) numCols
    rw [stays] at split
    simp only [numCols] at split ⊢
    omega
  rw [points.x, stays] at column line
  rw [points.y, sameRow, add_zero] at line
  exact ⟨column, line⟩

/-- From the last column the cursor goes back to the first one of the same row. -/
theorem text_last (points : t.Points 79 y) {c : Byte}
    (isText : ¬(c = newline ∨ c = carriageReturn)) : (t.putcKeyboard who c).Points 0 y := by
  obtain ⟨column, line⟩ := @putcKeyboard_cursor t who c isText
  rw [points.x] at column line
  rw [points.y] at line
  refine ⟨column, line.trans ?_⟩
  exact add_zero y

theorem newline (points : t.Points x y) (room : y + 1 < 25) :
    (t.putcKeyboard who LightweightOs.newline).Points 0 (y + 1) := by
  obtain ⟨column, line⟩ :=
    t.toConsole.putc_newline t.curTerminal who.curProcessLocal (.inl rfl)
  rw [← row, points.y, if_neg (by omega)] at line
  exact ⟨column, line⟩

theorem retreat (points : t.Points x y) : t.retreat.Points (x - 1) y := by
  refine ⟨?_, points.y⟩
  have moved := retreat_x t
  rw [points.x] at moved
  exact moved

theorem eraseChar (points : t.Points x y) (positive : 0 < t.index) (low : -80 < x)
    (high : x < 80) : (t.eraseChar who).Points (x - 1) y := by
  have stored : (t.store (t.index - 1) nul).Points x y := points.quiet rfl rfl rfl
  have touched : ((t.store (t.index - 1) nul).retreat.touch (t.index - 1)).Points (x - 1) y :=
    stored.retreat.quiet rfl rfl rfl
  have notNewline : ¬(nul = LightweightOs.newline ∨ nul = carriageReturn) := by decide
  have printed := touched.text who notNewline (by omega) (by omega)
  rw [Int.sub_add_cancel] at printed
  rw [eraseChar_eq who positive]
  exact printed.retreat.quiet rfl rfl rfl

end Points

end Tty

end LightweightOs
