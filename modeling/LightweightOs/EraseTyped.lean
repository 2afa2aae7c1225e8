import LightweightOs.HardwareCursor
import LightweightOs.DeliveredLine

/-!
# Erasing what was typed

A text typed from column `x` on stands in one row up to its 73rd character, and in the
row below behind it.  Backspace goes back over it cell by cell, but from the row below
it goes to column 72, where the 73rd character stands only when `x` is 0.
-/

namespace LightweightOs

/-- The cells in which a key displays characters. -/
def Tty.keyCells (t : Tty) (key : Key) : List Int :=
  (t.keyCalls key.who key.scanCode).filterMap PutcCall.cell

/-- The cells in which the keys display characters, one after the other. -/
def Tty.typedCells (t : Tty) : List Key → List Int
  | [] => []
  | key :: rest => t.keyCells key ++ (t.press key).typedCells rest

/-- The cell of a character of a text typed from column `x` of row `y` on. -/
def textCell (x y : Int) (k : Nat) : Int :=
  if k < 73 then cellAddr video y (x + k) else cellAddr video (y + 1) (k - 73)

namespace Editor

/-- The column of the cursor behind the text. -/
def column (e : Editor) (x : Int) : Int :=
  if e.text.length < 73 then x + e.text.length
  else if e.pending then (x + 73).tmod numCols
  else e.text.length - 73

/-- The row of the cursor behind the text. -/
def lastRow (e : Editor) (y : Int) : Int :=
  if e.text.length < 73 ∨ e.pending then y else y + 1

variable {e : Editor} (x y : Int)

theorem place_short (short : e.text.length < 73) :
    e.column x = x + e.text.length ∧ e.lastRow y = y := ⟨if_pos short, if_pos (.inl short)⟩

theorem place_pending (waits : e.pending = true) (full : e.text.length = 73) :
    e.column x = (x + 73).tmod numCols ∧ e.lastRow y = y := by
  have long : ¬e.text.length < 73 := by omega
  refine ⟨?_, if_pos (.inr waits)⟩
  rw [column, if_neg long, if_pos waits]

theorem place_long (settled : e.pending = false) (long : 73 ≤ e.text.length) :
    e.column x = e.text.length - 73 ∧ e.lastRow y = y + 1 := by
  have notShort : ¬e.text.length < 73 := not_lt.mpr long
  have comes : ¬e.pending = true := by
    rw [settled]
    exact Bool.false_ne_true
  refine ⟨?_, if_neg fun either => either.elim notShort comes⟩
  rw [column, if_neg notShort, if_neg comes]

theorem place_cell (settled : e.pending = false) :
    cellAddr video (e.lastRow y) (e.column x) = textCell x y e.text.length := by
  rw [textCell]
  split
  case isTrue short =>
    obtain ⟨column, lastRow⟩ := place_short x y short
    rw [column, lastRow]
  case isFalse notShort =>
    obtain ⟨column, lastRow⟩ := place_long x y settled (not_lt.mp notShort)
    rw [column, lastRow]

end Editor

namespace Tty

section Prints

variable {t : Tty} {x y : Int} {scanCode : Byte} (who : Interrupted)

theorem putcKeyboard_text {c : Byte} (isText : ¬LineEnd c) :
    (t.putcKeyboard who c).vram =
      storeCell t.vram (cellAddr video (t.screenY t.row) (t.screenX t.row)) c attrib := by
  simp only [putcKeyboard, Console.putc, or_true, if_true, Console.putcDisplay,
    if_neg isText, Console.updateCursor]
  rfl

theorem putcKeyboard_newline (room : t.screenY t.row + 1 < 25) :
    (t.putcKeyboard who newline).vram = t.vram := by
  have notBelow : ¬t.screenY (t.curTerminal - 1) + 1 ≥ 25 := not_le.mpr room
  simp only [putcKeyboard, Console.putc, or_true, if_true, Console.putcDisplay,
    true_or, Console.updateCursor, assign_self, if_neg notBelow]

theorem echo_cell {c : Byte} (isText : ¬LineEnd c) :
    (t.echo who c).cell = some (cellAddr video (t.screenY t.row) (t.screenX t.row)) := by
  have page : (t.echo who c).page = video := if_pos rfl
  have cell : (t.echo who c).cell = some (cellAddr (t.echo who c).page
      (t.screenY t.row) (t.screenX t.row)) := if_neg isText
  rw [cell, page]

theorem echo_newline : (t.echo who newline).cell = none := if_pos (.inl rfl)

theorem charKey_toConsole (accepted : t.acceptsChar scanCode) :
    (t.charKey who scanCode).toConsole =
      (t.putcKeyboard who (t.charOf scanCode)).toConsole := by
  have loaded : (t.store t.index (t.charOf scanCode)).load t.index = t.charOf scanCode :=
    store_line_self t t.index (t.charOf scanCode)
  rw [charKey, if_pos accepted]
  change ((t.store t.index (t.charOf scanCode)).putcKeyboard who
    ((t.store t.index (t.charOf scanCode)).load t.index)).toConsole = _
  rw [loaded]
  rfl

theorem charCalls_eq (accepted : t.acceptsChar scanCode) :
    t.charCalls who scanCode = [t.echo who (t.charOf scanCode)] := by
  have loaded : (t.store t.index (t.charOf scanCode)).load t.index = t.charOf scanCode :=
    store_line_self t t.index (t.charOf scanCode)
  rw [charCalls, if_pos accepted]
  change [t.echo who ((t.store t.index (t.charOf scanCode)).load t.index)] = _
  rw [loaded]

theorem Points.eraseChar_vram (points : t.Points x y) (positive : 0 < t.index) :
    (t.eraseChar who).vram = storeCell t.vram (cellAddr video y (x - 1)) nul attrib := by
  have stored : (t.store (t.index - 1) nul).Points x y := points.quiet rfl rfl rfl
  have before : ((t.store (t.index - 1) nul).retreat.touch (t.index - 1)).Points (x - 1) y :=
    stored.retreat.quiet rfl rfl rfl
  have printed := @putcKeyboard_text
    ((t.store (t.index - 1) nul).retreat.touch (t.index - 1)) who nul (by decide)
  rw [before.x, before.y] at printed
  rw [eraseChar_eq who positive]
  exact printed

/-- Over the newline Backspace goes up to column 72, and prints there. -/
theorem Points.eraseNewline (points : t.Points x y) :
    (t.eraseNewline who).Points 72 (y - 1) ∧
      (t.eraseNewline who).vram = storeCell t.vram (cellAddr video (y - 1) 72) nul attrib := by
  have sameRow := (SameControls.eraseNewline who t).row
  have loaded : t.beforeNewline.load (t.index - 2) = nul :=
    store_line_self (t.store (t.index - 1) nul) (t.index - 2) nul
  have before : (t.beforeNewline.touch (t.index - 2)).Points 72 (y - 1) := by
    constructor
    · exact assign_self _ _ _
    · rw [← points.y]
      exact assign_self _ _ _
  have printed := @putcKeyboard_text (t.beforeNewline.touch (t.index - 2)) who nul
    (by decide)
  rw [before.x, before.y] at printed
  have vram : (t.eraseNewline who).vram = (t.newlinePrinted who).vram := by
    simp only [Tty.eraseNewline, newlinePrinted, putcKeyboard]
    generalize Console.putc = putc
    rfl
  refine ⟨⟨?_, ?_⟩, ?_⟩
  · rw [sameRow, eraseNewline_screenX]
    exact assign_self _ _ _
  · rw [sameRow, eraseNewline_screenY, ← points.y]
    exact assign_self _ _ _
  · rw [vram, newlinePrinted, loaded]
    exact printed

end Prints

/-- The text is in the row of the buffer, and the cursor stands behind it; it has been
typed from this place on. -/
structure Displays (t : Tty) (e : Editor) (x y : Int) : Prop where
  holds : t.Holds e
  points : t.Points (e.column x) (e.lastRow y)

namespace Displays

variable {t : Tty} {e : Editor} {x y : Int} {scanCode : Byte} (who : Interrupted)

theorem modifierKeys (displays : t.Displays e x y) (text : TextCode scanCode) :
    (t.modifierKeys scanCode).Displays (e.modify scanCode) x y :=
  ⟨displays.holds.modifierKeys text, displays.points.quiet rfl rfl rfl⟩

theorem placeCursor (displays : t.Displays e x y) : t.placeCursor.Displays e x y :=
  ⟨displays.holds.of_same (.placeCursor t) rfl rfl rfl, displays.points.quiet rfl rfl rfl⟩

theorem wrapLine (displays : t.Displays e x y) (room : y + 1 < 25) :
    (t.wrapLine who).Displays e.settle x y ∧ (t.wrapLine who).vram = t.vram := by
  have settled := displays.holds.wrapLine who
  cases waits : e.pending with
  | false =>
      have same : e.settle = e := by
        rw [Editor.settle, ← waits]
      rw [wrapLine_of_index who (displays.holds.notFull waits)] at settled ⊢
      rw [same] at settled ⊢
      exact ⟨⟨settled, displays.points⟩, rfl⟩
  | true =>
      have length := displays.holds.full waits
      have isFull := displays.holds.isFull waits
      have wraps : t.index = maxLine ∧ t.index + 1 < bufferSize :=
        ⟨isFull, by rw [isFull]; decide⟩
      have before := displays.points
      rw [(Editor.place_pending x y waits length).2] at before
      have stored : (t.store t.index newline).Points (e.column x) y :=
        before.quiet rfl rfl rfl
      have long : 73 ≤ e.settle.text.length := length.ge
      obtain ⟨column, lastRow⟩ := @Editor.place_long e.settle x y rfl long
      have first : (e.settle.text.length : Int) - 73 = 0 := by
        change (e.text.length : Int) - 73 = 0
        omega
      rw [first] at column
      refine ⟨⟨settled, ?_⟩, ?_⟩
      · rw [column, lastRow, Tty.wrapLine, if_pos wraps]
        exact (stored.newline who room).quiet rfl rfl rfl
      · have printed := @putcKeyboard_newline (t.store t.index newline) who
          (by rw [stored.y]; exact room)
        rw [Tty.wrapLine, if_pos wraps]
        exact printed

/-- Behind a character the cursor stands where the next one goes; the last column of the
display is left for the first one of the same row. -/
theorem displayed_char (points : t.Points (e.column x) (e.lastRow y))
    (settled : e.pending = false) (left : 0 ≤ x) (right : x ≤ 7)
    (room : e.text.length ≤ 124) {c : Byte} (isText : ¬LineEnd c) (typed : Byte) :
    (t.putcKeyboard who c).Points ((e.type typed).column x) ((e.type typed).lastRow y) := by
  have size : (e.type typed).text.length = e.text.length + 1 := by
    change (e.text ++ [typed]).length = _
    rw [List.length_append, List.length_singleton]
  rcases lt_trichotomy (e.text.length + 1) 73 with short | full | long
  · obtain ⟨column, lastRow⟩ := @Editor.place_short (e.type typed) x y (by rw [size]; exact short)
    obtain ⟨before, sameRow⟩ := @Editor.place_short e x y (by omega)
    rw [before, sameRow] at points
    have printed := points.text who isText (by omega) (by omega)
    rw [column, lastRow, size]
    push_cast
    rw [← add_assoc]
    exact printed
  · have waits : (e.type typed).pending = true := decide_eq_true full
    obtain ⟨column, lastRow⟩ := Editor.place_pending x y waits (by rw [size]; exact full)
    obtain ⟨before, sameRow⟩ := @Editor.place_short e x y (by omega)
    have last : (e.text.length : Int) = 72 := by omega
    rw [before, sameRow, last] at points
    rw [column, lastRow]
    -- column 79 is the last one of the display
    by_cases edge : x = 7
    · subst edge
      exact points.text_last who isText
    · have printed := points.text who isText (by omega) (by omega)
      rw [add_assoc] at printed
      rw [tmod_numCols (by omega) (by omega)]
      exact printed
  · have comes : (e.type typed).pending = false := decide_eq_false (by omega)
    obtain ⟨column, lastRow⟩ := Editor.place_long x y comes (by rw [size]; omega)
    obtain ⟨before, sameRow⟩ := Editor.place_long x y settled (by omega)
    rw [before, sameRow] at points
    have printed := points.text who isText (by omega) (by omega)
    have next : (e.text.length : Int) - 73 + 1 = (e.text.length + 1 : Nat) - 73 := by
      push_cast
      omega
    rw [next] at printed
    rw [column, lastRow, size]
    exact printed

theorem charKey (displays : t.Displays e x y) (settled : e.pending = false)
    (left : 0 ≤ x) (right : x ≤ 7) (hasChar : HasChar scanCode) (room : e.text.length ≤ 124) :
    (t.charKey who scanCode).Displays
        (e.type (keyChar e.shiftFlag e.capsLockFlag scanCode)) x y ∧
      (t.charKey who scanCode).vram =
        storeCell t.vram (textCell x y e.text.length) (t.charOf scanCode) attrib ∧
      (t.charCalls who scanCode).filterMap PutcCall.cell = [textCell x y e.text.length] := by
  obtain ⟨holds, points⟩ := displays
  have accepted := holds.accepts settled hasChar room
  have isText := charOf_text scanCode t
  have console := charKey_toConsole who accepted
  have printed := @putcKeyboard_text t who _ isText
  have cell := @echo_cell t who _ isText
  have sameRow : (t.charKey who scanCode).row = (t.putcKeyboard who (t.charOf scanCode)).row :=
    (SameControls.charKey who scanCode t).row
  have moved := displayed_char who points settled left right room isText
    (keyChar e.shiftFlag e.capsLockFlag scanCode)
  rw [points.x, points.y, Editor.place_cell x y settled] at printed cell
  refine ⟨⟨holds.charKey who settled hasChar room, ?_⟩, ?_, ?_⟩
  · apply moved.quiet sameRow
    · rw [console]
    · rw [console]
  · rw [console]
    exact printed
  · rw [charCalls_eq who accepted, List.filterMap_cons_some cell, List.filterMap_nil]

/-- Backspace erases the last cell of the text, or column 72 in its place. -/
theorem backspaceKey (displays : t.Displays e x y) (settled : e.pending = false)
    (typed : e.text ≠ []) (left : 0 ≤ x) (right : x ≤ 7) (room : e.text.length ≤ 125) :
    (t.backspaceKey who ScanCode.backspace).Displays e.erase
        (if e.text.length = 73 then 0 else x) y ∧
      (t.backspaceKey who ScanCode.backspace).vram =
        storeCell t.vram
          (textCell (if e.text.length = 73 then 0 else x) y (e.text.length - 1)) nul
          attrib := by
  obtain ⟨holds, points⟩ := displays
  have positive := List.length_pos_of_ne_nil typed
  have erased := holds.backspaceKey who settled room
  obtain ⟨accesses, u, isTested, key⟩ := holds.backspaceKey_eq who settled typed room
  have tested : u.Points (e.column x) (e.lastRow y) := by
    rw [isTested]
    exact points.quiet rfl rfl rfl
  have vram : u.vram = t.vram := by rw [isTested]
  have some : 0 < u.index := by
    rw [isTested]
    exact (holds.last settled typed).1
  have size : e.erase.text.length = e.text.length - 1 := List.length_dropLast
  have stays : e.erase.pending = false := settled
  rw [key] at erased ⊢
  rw [← vram]
  rcases lt_trichotomy e.text.length 73 with short | full | long
  · obtain ⟨column, lastRow⟩ := @Editor.place_short e x y short
    obtain ⟨before, sameRow⟩ := @Editor.place_short e.erase x y (by omega)
    have previous : x + e.text.length - 1 = x + (e.text.length - 1 : Nat) := by omega
    rw [column, lastRow] at tested
    rw [if_neg short.ne] at erased ⊢
    rw [if_neg short.ne, textCell, if_pos (by omega), ← previous]
    refine ⟨⟨erased, ?_⟩, tested.eraseChar_vram who some⟩
    rw [before, sameRow, size, ← previous]
    exact tested.eraseChar who some (by omega) (by omega)
  · obtain ⟨column, lastRow⟩ := Editor.place_long x y settled full.ge
    obtain ⟨before, sameRow⟩ := @Editor.place_short e.erase 0 y (by omega)
    rw [column, lastRow] at tested
    obtain ⟨moved, printed⟩ := tested.eraseNewline who
    rw [Int.add_sub_cancel] at moved printed
    rw [if_pos full] at erased ⊢
    rw [if_pos full, full]
    refine ⟨⟨erased, ?_⟩, printed⟩
    rw [before, sameRow, size, full]
    exact moved
  · obtain ⟨column, lastRow⟩ := Editor.place_long x y settled long.le
    obtain ⟨before, sameRow⟩ := @Editor.place_long e.erase x y stays (by omega)
    have previous : (e.text.length : Int) - 73 - 1 = (e.text.length - 1 : Nat) - 73 := by
      omega
    rw [column, lastRow] at tested
    rw [if_neg long.ne'] at erased ⊢
    rw [if_neg long.ne', textCell, if_neg (by omega), ← previous]
    refine ⟨⟨erased, ?_⟩, tested.eraseChar_vram who some⟩
    rw [before, sameRow, size, ← previous]
    exact tested.eraseChar who some (by omega) (by omega)

end Displays

section Cells

variable {t : Tty} {key : Key}

theorem wrapCalls_cells (who : Interrupted) (t : Tty) :
    (t.wrapCalls who).filterMap PutcCall.cell = [] := by
  rw [wrapCalls]
  split
  · rw [List.filterMap_cons_none (echo_newline who), List.filterMap_nil]
  · rfl

theorem keyCells_text (text : TextCode key.scanCode)
    (notBackspace : key.scanCode ≠ ScanCode.backspace)
    (up : (t.modifierKeys key.scanCode).ctrlFlag = false) :
    t.keyCells key =
      ((((t.modifierKeys key.scanCode).wrapLine key.who).placeCursor).charCalls key.who
        key.scanCode).filterMap PutcCall.cell := by
  have upToo : ((t.modifierKeys key.scanCode).wrapLine key.who).ctrlFlag = false :=
    (SameControls.wrapLine key.who _).ctrlFlag.trans up
  have notClear : ¬(((t.modifierKeys key.scanCode).wrapLine key.who).ctrlFlag ∧
      key.scanCode = ScanCode.l) := by
    rw [upToo]
    exact fun pressed => Bool.false_ne_true pressed.1
  have notTab : ∀ u : Tty, ¬(key.scanCode = ScanCode.tab ∧ u.index + tabSpace < bufferSize ∧
      u.screenX u.row + tabSpace < maxLine) := fun _ pressed => text.2.1 pressed.1
  have notErase : ∀ u : Tty, ¬(u.index > 0 ∧ u.index ≤ bufferSize - 1 ∧
      key.scanCode = ScanCode.backspace) := fun _ pressed => notBackspace pressed.2.2
  rw [keyCells, keyCalls, enterKey_of_ne _ key.who text.1, clearKey_of_not key.who notClear,
    tabKey_of_ne _ key.who text.2.1, backspaceKey_of_ne _ key.who notBackspace, enterCalls,
    if_neg text.1, clearKeyCalls, if_neg notClear, tabCalls, if_neg (notTab _),
    backspaceCalls, if_neg (notErase _), List.nil_append, List.append_nil, List.append_nil,
    List.append_nil, List.filterMap_append, wrapCalls_cells, List.nil_append]

theorem keyCells_idle (text : TextCode key.scanCode) (idle : Idle key.scanCode)
    (up : (t.modifierKeys key.scanCode).ctrlFlag = false) : t.keyCells key = [] := by
  rw [keyCells_text text idle.2.2.2.1 up, charCalls, if_neg]
  · rfl
  · exact fun accepted => idle.2.2.2.2 ⟨accepted.1, accepted.2.1⟩

theorem typedCells_concat (t : Tty) (keys : List Key) (key : Key) :
    t.typedCells (keys ++ [key]) = t.typedCells keys ++ (t.pressAll keys).keyCells key := by
  induction keys generalizing t with
  | nil => exact List.append_nil _
  | cons first rest induction =>
      rw [List.cons_append, typedCells, typedCells, induction, List.append_assoc]
      rfl

end Cells

namespace Displays

variable {t : Tty} {e : Editor} {x y : Int} {key : Key}

theorem settle (displays : t.Displays e x y) (text : TextCode key.scanCode)
    (room : y + 1 < 25) :
    (((t.modifierKeys key.scanCode).wrapLine key.who).placeCursor).Displays
        (e.modify key.scanCode).settle x y ∧
      (((t.modifierKeys key.scanCode).wrapLine key.who).placeCursor).vram = t.vram := by
  obtain ⟨wrapped, vram⟩ := (displays.modifierKeys text).wrapLine key.who room
  exact ⟨wrapped.placeCursor, vram⟩

theorem press_idle (displays : t.Displays e x y) (text : TextCode key.scanCode)
    (idle : Idle key.scanCode) (noChar : ¬HasChar key.scanCode) (room : y + 1 < 25) :
    (t.press key).Displays (e.press key.scanCode) x y ∧ (t.press key).vram = t.vram := by
  rw [displays.holds.press_idle text idle, Editor.press, if_neg idle.2.2.2.1,
    if_neg noChar]
  exact displays.settle text room

theorem press_char (displays : t.Displays e x y) (text : TextCode key.scanCode)
    (hasChar : HasChar key.scanCode) (left : 0 ≤ x) (right : x ≤ 7) (room : y + 1 < 25)
    (fits : e.text.length ≤ 124) :
    (t.press key).Displays (e.press key.scanCode) x y ∧
      (∃ c, (t.press key).vram =
        storeCell t.vram (textCell x y e.text.length) c attrib) ∧
      t.keyCells key = [textCell x y e.text.length] := by
  obtain ⟨settled, vram⟩ := displays.settle text room
  obtain ⟨typed, printed, cells⟩ := settled.charKey key.who rfl left right hasChar fits
  rw [vram] at printed
  rw [displays.holds.press_char text hasChar, Editor.press, if_neg hasChar.ne.2.2,
    if_pos hasChar, keyCells_text text hasChar.ne.2.2 (displays.holds.modifierKeys text).ctrlFlag]
  exact ⟨typed, ⟨_, printed⟩, cells⟩

theorem press_backspace (displays : t.Displays e x y)
    (isBackspace : key.scanCode = ScanCode.backspace) (typed : e.text ≠ []) (left : 0 ≤ x)
    (right : x ≤ 7) (room : y + 1 < 25) (fits : e.text.length ≤ 125) :
    (t.press key).Displays (e.press key.scanCode)
        (if e.text.length = 73 then 0 else x) y ∧
      (t.press key).vram =
        storeCell t.vram
          (textCell (if e.text.length = 73 then 0 else x) y (e.text.length - 1)) nul
          attrib := by
  have plain : e.modify ScanCode.backspace = e := rfl
  obtain ⟨wrapped, vram⟩ := displays.wrapLine key.who room
  obtain ⟨erased, printed⟩ := wrapped.backspaceKey key.who rfl typed left right fits
  rw [vram] at printed
  rw [t.press_backspace isBackspace, isBackspace, Editor.press, plain,
    if_pos rfl]
  exact ⟨erased.placeCursor, printed⟩

end Displays

/-- Only the first `n` cells of the text have changed, and those behind its end are
empty. -/
structure Confined (start t : Tty) (x y : Int) (n length : Nat) : Prop where
  outside : ∀ address,
    (∀ k < n, address ≠ textCell x y k ∧ address ≠ textCell x y k + 1) →
      t.vram address = start.vram address
  blank : ∀ k, length ≤ k → k < n → t.vram (textCell x y k) = nul

namespace Confined

variable {start t u : Tty} {x y : Int} {n length : Nat}

theorem same (confined : Confined start t x y n length) (vram : u.vram = t.vram) :
    Confined start u x y n length := by
  refine ⟨?_, ?_⟩
  · rw [vram]
    exact confined.outside
  · rw [vram]
    exact confined.blank

theorem textCell_ne_attribute (x y : Int) (k j : Nat) :
    textCell x y k ≠ textCell x y j + 1 := by
  simp only [textCell, cellAddr, numCols]
  split <;> split <;> omega

theorem typed (confined : Confined start t x y n n) {c : Byte}
    (vram : u.vram = storeCell t.vram (textCell x y n) c attrib) :
    Confined start u x y (n + 1) (n + 1) where
  outside := by
    intro address other
    obtain ⟨notChar, notAttribute⟩ := other n (Nat.lt_succ_self n)
    rw [vram, storeCell, assign_of_ne notAttribute, assign_of_ne notChar]
    exact confined.outside address fun k below => other k (Nat.lt_succ_of_lt below)
  blank := by
    intro k behind before
    omega

theorem erased (confined : Confined start t x y n length) (positive : 0 < length)
    (inside : length ≤ n)
    (vram : u.vram = storeCell t.vram (textCell x y (length - 1)) nul attrib) :
    Confined start u x y n (length - 1) where
  outside := by
    intro address other
    obtain ⟨notChar, notAttribute⟩ := other (length - 1) (by omega)
    rw [vram, storeCell, assign_of_ne notAttribute, assign_of_ne notChar]
    exact confined.outside address other
  blank := by
    intro k behind before
    rw [vram, storeCell, assign_of_ne (textCell_ne_attribute x y k (length - 1))]
    by_cases same : textCell x y k = textCell x y (length - 1)
    · rw [same]
      exact assign_self _ _ _
    · have different : k ≠ length - 1 := fun equal => same (by rw [equal])
      rw [assign_of_ne same]
      exact confined.blank k (by omega) before

end Confined

section Runs

variable {start t : Tty} {e : Editor} {x y : Int} {keys : List Key}

def chars (keys : List Key) : Nat := keys.countP fun key => HasChar key.scanCode

def backspaces (keys : List Key) : Nat :=
  keys.countP fun key => key.scanCode = ScanCode.backspace

theorem chars_concat (keys : List Key) (key : Key) :
    chars (keys ++ [key]) = chars keys + if HasChar key.scanCode then 1 else 0 := by
  rw [chars, List.countP_append, List.countP_singleton]
  simp only [decide_eq_true_eq]
  rfl

theorem backspaces_concat (keys : List Key) (key : Key) :
    backspaces (keys ++ [key]) =
      backspaces keys + if key.scanCode = ScanCode.backspace then 1 else 0 := by
  rw [backspaces, List.countP_append, List.countP_singleton]
  simp only [decide_eq_true_eq]
  rfl

/-- Where the text has begun once Backspace has come back from the row below. -/
def erasedFrom (x : Int) (n length : Nat) : Int := if 73 ≤ n ∧ length < 73 then 0 else x

theorem typing_displays (initial : start.Displays e x y) (empty : e.text = []) (left : 0 ≤ x)
    (right : x ≤ 7) (room : y + 1 < 25)
    (types : ∀ key ∈ keys, TextCode key.scanCode ∧ key.scanCode ≠ ScanCode.backspace)
    (few : chars keys ≤ 125) :
    (start.pressAll keys).Displays (e.pressAll keys) x y ∧
      (e.pressAll keys).text.length = chars keys ∧
      Confined start (start.pressAll keys) x y (chars keys) (chars keys) ∧
      start.typedCells keys = (List.range (chars keys)).map (textCell x y) := by
  induction keys using List.reverseRecOn with
  | nil =>
      refine ⟨initial, ?_, ?_, rfl⟩
      · change e.text.length = 0
        rw [empty]
        rfl
      · exact ⟨fun _ _ => rfl, fun k _ below => absurd below (Nat.not_lt_zero k)⟩
  | append_singleton keys key induction =>
      rw [List.forall_mem_append, List.forall_mem_singleton] at types
      rw [chars_concat] at few ⊢
      obtain ⟨earlier, text, notBackspace⟩ := types
      obtain ⟨displays, size, confined, cells⟩ := induction earlier (by omega)
      rw [pressAll_concat, Editor.pressAll_concat, typedCells_concat, cells]
      rcases text.kinds with isBackspace | hasChar | ⟨idle, noChar⟩
      · exact absurd isBackspace notBackspace
      · rw [if_pos hasChar] at few ⊢
        obtain ⟨next, ⟨c, printed⟩, cell⟩ :=
          displays.press_char text hasChar left right room (by omega)
        rw [size] at printed cell
        refine ⟨next, ?_, confined.typed printed, ?_⟩
        · rw [Editor.press, if_neg notBackspace, if_pos hasChar]
          change ((e.pressAll keys).text ++ [_]).length = _
          rw [List.length_append, size, List.length_singleton]
        · rw [cell, List.range_succ, List.map_append]
          rfl
      · rw [if_neg noChar] at few ⊢
        obtain ⟨next, printed⟩ := displays.press_idle text idle noChar room
        have none := keyCells_idle text idle (displays.holds.modifierKeys text).ctrlFlag
        refine ⟨next, ?_, confined.same printed, ?_⟩
        · rw [Editor.press, if_neg notBackspace, if_neg noChar]
          exact size
        · rw [none, List.append_nil]
          rfl

/-- Of a text of `n` characters `length` are left. -/
structure Remains (t : Tty) (e : Editor) (x y : Int) (n length : Nat) : Prop where
  displays : t.Displays e (erasedFrom x n length) y
  size : e.text.length = length

section Steps

variable {n length : Nat} {key : Key}

theorem erasedFrom_range (left : 0 ≤ x) (right : x ≤ 7) (n length : Nat) :
    0 ≤ erasedFrom x n length ∧ erasedFrom x n length ≤ 7 := by
  rw [erasedFrom]
  split
  · exact ⟨le_rfl, by decide⟩
  · exact ⟨left, right⟩

/-- A text that stays in its row, or begins in column 0, is erased from where it began. -/
theorem erasedFrom_whole (whole : n ≤ 72 ∨ x = 0) (length : Nat) :
    erasedFrom x n length = x := by
  rw [erasedFrom]
  split
  · omega
  · rfl

theorem Remains.idle (remains : t.Remains e x y n length) (room : y + 1 < 25)
    (text : TextCode key.scanCode) (idle : Idle key.scanCode) (noChar : ¬HasChar key.scanCode) :
    (t.press key).Remains (e.press key.scanCode) x y n length ∧
      (t.press key).vram = t.vram := by
  obtain ⟨next, printed⟩ := remains.displays.press_idle text idle noChar room
  refine ⟨⟨next, ?_⟩, printed⟩
  rw [Editor.press, if_neg idle.2.2.2.1, if_neg noChar]
  exact remains.size

theorem Remains.backspace (remains : t.Remains e x y n length) (left : 0 ≤ x) (right : x ≤ 7)
    (room : y + 1 < 25) (fits : length ≤ 125) (positive : 0 < length) (inside : length ≤ n)
    (isBackspace : key.scanCode = ScanCode.backspace) :
    (t.press key).Remains (e.press key.scanCode) x y n (length - 1) ∧
      (t.press key).vram =
        storeCell t.vram (textCell (erasedFrom x n (length - 1)) y (length - 1)) nul
          attrib := by
  obtain ⟨displays, size⟩ := remains
  have some : e.text ≠ [] := List.ne_nil_of_length_pos (size ▸ positive)
  obtain ⟨low, high⟩ := erasedFrom_range left right n length
  obtain ⟨next, printed⟩ :=
    displays.press_backspace isBackspace some low high room (size.le.trans fits)
  -- the step to column 72 is the one from 73 characters to 72
  have begun : (if e.text.length = 73 then 0 else erasedFrom x n length) =
      erasedFrom x n (length - 1) := by
    rw [size]
    simp only [erasedFrom]
    split_ifs <;> first | rfl | omega
  rw [begun] at next printed
  rw [size] at printed
  refine ⟨⟨next, ?_⟩, printed⟩
  rw [isBackspace, Editor.press, if_pos rfl]
  change e.text.dropLast.length = _
  rw [List.length_dropLast, size]

end Steps

/-- Erasing goes back over the cells, as long as it does not come to column 72 from the
row below or the text has begun in column 0. -/
theorem erasing_displays (initial : t.Displays e x y) (left : 0 ≤ x) (right : x ≤ 7)
    (room : y + 1 < 25) (fits : e.text.length ≤ 125)
    (erases : ∀ key ∈ keys, TextCode key.scanCode ∧ ¬HasChar key.scanCode)
    (few : backspaces keys ≤ e.text.length) :
    (t.pressAll keys).Remains (e.pressAll keys) x y e.text.length
        (e.text.length - backspaces keys) ∧
      (e.text.length ≤ 72 ∨ x = 0 →
        Confined start t x y e.text.length e.text.length →
        Confined start (t.pressAll keys) x y e.text.length
          (e.text.length - backspaces keys)) := by
  induction keys using List.reverseRecOn with
  | nil =>
      have stays : erasedFrom x e.text.length (e.text.length - backspaces []) = x := by
        apply if_neg
        rintro ⟨long, short⟩
        change e.text.length - 0 < 73 at short
        omega
      refine ⟨⟨?_, rfl⟩, fun _ confined => confined⟩
      rw [stays]
      exact initial
  | append_singleton keys key induction =>
      rw [List.forall_mem_append, List.forall_mem_singleton] at erases
      rw [backspaces_concat] at few ⊢
      obtain ⟨earlier, text, noChar⟩ := erases
      obtain ⟨remains, confined⟩ := induction earlier (by omega)
      rw [pressAll_concat, Editor.pressAll_concat]
      rcases text.kinds with isBackspace | hasChar | ⟨idle, _⟩
      · rw [if_pos isBackspace] at few ⊢
        obtain ⟨next, printed⟩ := remains.backspace left right room (by omega) (by omega)
          (by omega) isBackspace
        rw [← Nat.sub_sub]
        refine ⟨next, ?_⟩
        intro whole before
        rw [erasedFrom_whole whole] at printed
        exact (confined whole before).erased (by omega) (by omega) printed
      · exact absurd hasChar noChar
      · rw [if_neg idle.2.2.2.1]
        obtain ⟨next, printed⟩ := remains.idle room text idle noChar
        exact ⟨next, fun whole before => (confined whole before).same printed⟩

/-- The text is erased: its line is empty, the cursor is where it was, and of the display
only the cells of the text have changed, which are blank. -/
structure Restored (start : Tty) (typed erased : List Key) : Prop where
  index : ((start.pressAll typed).pressAll erased).keyboardIndex start.row = 0
  x : ((start.pressAll typed).pressAll erased).screenX start.row = start.screenX start.row
  y : ((start.pressAll typed).pressAll erased).screenY start.row = start.screenY start.row
  blank : ∀ cell ∈ start.typedCells typed,
    ((start.pressAll typed).pressAll erased).vram cell = nul ∨
      ((start.pressAll typed).pressAll erased).vram cell = space
  outside : ∀ address,
    (∀ cell ∈ start.typedCells typed, address ≠ cell ∧ address ≠ cell + 1) →
      ((start.pressAll typed).pressAll erased).vram address = start.vram address

theorem erased_all {typed erased : List Key} (points : start.Points x y) (left : 0 ≤ x)
    (right : x ≤ 7) (room : y + 1 < 25) (empty : start.index = 0)
    (ctrlUp : start.ctrlFlag = false) (altUp : start.altFlag = false)
    (types : ∀ key ∈ typed, TextCode key.scanCode ∧ key.scanCode ≠ ScanCode.backspace)
    (erases : ∀ key ∈ erased, TextCode key.scanCode ∧ ¬HasChar key.scanCode)
    (all : backspaces erased = chars typed) (few : chars typed ≤ 125) :
    ((start.pressAll typed).pressAll erased).row = start.row ∧
      ((start.pressAll typed).pressAll erased).index = 0 ∧
      ((start.pressAll typed).pressAll erased).Points (if 73 ≤ chars typed then 0 else x) y ∧
      start.typedCells typed = (List.range (chars typed)).map (textCell x y) ∧
      (chars typed ≤ 72 ∨ x = 0 →
        Confined start ((start.pressAll typed).pressAll erased) x y (chars typed) 0) := by
  have initially := editor_holds empty ctrlUp altUp
  have noText : start.editor.text = [] := rfl
  have initial : start.Displays start.editor x y := by
    refine ⟨initially, ?_⟩
    obtain ⟨column, lastRow⟩ :=
      @Editor.place_short start.editor x y (show 0 < 73 by decide)
    rw [column, lastRow]
    change start.Points (x + 0) y
    rw [add_zero]
    exact points
  obtain ⟨displays, size, confined, cells⟩ :=
    typing_displays initial noText left right room types few
  have fits : (start.editor.pressAll typed).text.length ≤ 125 := size.le.trans few
  obtain ⟨⟨shown, nothing⟩, kept⟩ :=
    erasing_displays displays left right room fits erases (all.le.trans size.ge)
  rw [size, all, Nat.sub_self] at shown nothing kept
  have textTyped : ∀ key ∈ typed, TextCode key.scanCode := fun key member =>
    (types key member).1
  have textErased : ∀ key ∈ erased, TextCode key.scanCode := fun key member =>
    (erases key member).1
  have noChars : erased.countP (fun key => HasChar key.scanCode) = 0 := by
    rw [List.countP_eq_zero]
    intro key member isChar
    exact (erases key member).2 (of_decide_eq_true isChar)
  have shaped : start.Shaped := by
    rw [Shaped, empty]
    exact .zero _
  have typing := initially.edited shaped textTyped
    (Editor.fits_of_count _ (by rw [noText]; exact (Nat.zero_add _).le.trans few))
  have erasing := displays.holds.edited typing.shaped textErased
    (Editor.fits_of_count _ (by rw [noChars]; exact fits))
  have short : ((start.editor.pressAll typed).pressAll erased).text.length < 73 := by
    rw [nothing]
    decide
  refine ⟨erasing.edits.row.trans typing.edits.row, ?_, ?_, cells, ?_⟩
  · rw [shown.holds.index, Editor.line_short _ short, nothing]
    rfl
  · obtain ⟨column, lastRow⟩ := Editor.place_short (erasedFrom x (chars typed) 0) y short
    have place := shown.points
    rw [column, lastRow, nothing, Nat.cast_zero, add_zero] at place
    have begun : erasedFrom x (chars typed) 0 = if 73 ≤ chars typed then 0 else x := by
      rw [erasedFrom]
      split_ifs <;> first | rfl | omega
    rw [begun] at place
    exact place
  · exact fun whole => kept whole confined

end Runs

end Tty

/-- A text is erased without a trace if and only if it has at most 72 characters or has
begun in column 0. -/
theorem erase_typed {start : Tty} {x y : Int} (points : start.Points x y)
    (column : 0 ≤ x ∧ x ≤ 7) (row : 0 ≤ y ∧ y ≤ 22) (empty : start.index = 0)
    (ctrlUp : start.ctrlFlag = false) (altUp : start.altFlag = false)
    {typed erased : List Key}
    (types : ∀ key ∈ typed, Tty.TextCode key.scanCode ∧ key.scanCode ≠ ScanCode.backspace)
    (erases : ∀ key ∈ erased, Tty.TextCode key.scanCode ∧ ¬Tty.HasChar key.scanCode)
    (all : Tty.backspaces erased = Tty.chars typed) (few : Tty.chars typed ≤ 120) :
    start.Restored typed erased ↔ Tty.chars typed ≤ 72 ∨ x = 0 := by
  obtain ⟨sameRow, index, place, cells, confined⟩ :=
    Tty.erased_all points column.1 column.2 (by omega) empty ctrlUp altUp types erases all
      (few.trans (by decide))
  have screenX := place.x
  have screenY := place.y
  rw [Tty.index, sameRow] at index
  rw [sameRow] at screenX screenY
  constructor
  · intro restored
    have back := restored.x
    rw [screenX, points.x] at back
    split at back
    · exact .inr back.symm
    · exact .inl (by omega)
  · intro whole
    have begun : (if 73 ≤ Tty.chars typed then 0 else x) = x := by
      split
      · omega
      · rfl
    have kept := confined whole
    constructor
    case index => exact index
    case x => rw [screenX, begun, points.x]
    case y => rw [screenY, points.y]
    case blank =>
      intro cell member
      rw [cells] at member
      obtain ⟨k, inText, rfl⟩ := List.mem_map.mp member
      exact .inl (kept.blank k (Nat.zero_le k) (List.mem_range.mp inText))
    case outside =>
      intro address other
      apply kept.outside
      intro k below
      apply other
      rw [cells]
      exact List.mem_map_of_mem (List.mem_range.mpr below)

/-- The cursor stands behind a prompt. -/
def samplePrompt : Tty := { sampleTty.keyboardInit with screenX := fun _ => 7 }

/-- Backspace, and what its key sends when it comes up. -/
def backspaceKeys : List Key :=
  [shellKey ScanCode.backspace, shellKey (Tty.release ScanCode.backspace)]

theorem erase_typed_letter : samplePrompt.Restored typedLetter backspaceKeys := by
  have points : samplePrompt.Points 7 0 := ⟨rfl, rfl⟩
  have restored := erase_typed points (by decide) (by decide) rfl rfl rfl
    (show ∀ key ∈ typedLetter, _ by decide) (show ∀ key ∈ backspaceKeys, _ by decide)
    (by decide) (by decide)
  exact restored.mpr (.inl (by decide))

/-- From behind the prompt 73 letters are typed and erased: the cursor ends in column 0. -/
theorem erase_typed_fullRow :
    ¬∀ (start : Tty) (x y : Int) (typed erased : List Key), start.Points x y →
      0 ≤ x ∧ x ≤ 7 → 0 ≤ y ∧ y ≤ 22 → start.index = 0 → start.ctrlFlag = false →
      start.altFlag = false →
      (∀ key ∈ typed, Tty.TextCode key.scanCode ∧ key.scanCode ≠ ScanCode.backspace) →
      (∀ key ∈ erased, Tty.TextCode key.scanCode ∧ ¬Tty.HasChar key.scanCode) →
      Tty.backspaces erased = Tty.chars typed → Tty.chars typed ≤ 120 →
      start.Restored typed erased := by
  intro restores
  have points : samplePrompt.Points 7 0 := ⟨rfl, rfl⟩
  have types : ∀ key ∈ typedRow,
      Tty.TextCode key.scanCode ∧ key.scanCode ≠ ScanCode.backspace := by decide +kernel
  have erases : ∀ key ∈ (List.replicate 73 backspaceKeys).flatten,
      Tty.TextCode key.scanCode ∧ ¬Tty.HasChar key.scanCode := by decide +kernel
  have count : Tty.chars typedRow = 73 := by decide +kernel
  have all : Tty.backspaces (List.replicate 73 backspaceKeys).flatten =
      Tty.chars typedRow := by decide +kernel
  have back := (restores samplePrompt 7 0 typedRow _ points (by decide) (by decide) rfl rfl
    rfl types erases all (by rw [count]; decide)).x
  obtain ⟨sameRow, _, place, _⟩ := Tty.erased_all points (by decide) le_rfl (by decide) rfl
    rfl rfl types erases all (by rw [count]; decide)
  have moved := place.x
  rw [sameRow, back, count] at moved
  exact absurd moved (by decide)

end LightweightOs
