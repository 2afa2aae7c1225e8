import LightweightOs.Console

/-!
# The keyboard driver

`keyboard_handler` is a sequence of blocks, several of which may act on one
scan code; each block is a definition here and `keyBlocks` runs them in order.
`keyboard_buffer` is one array of three rows of `BUFFER_SIZE` bytes, so an
index past the end of a row reaches the next row or the memory behind the
array.  `accesses` is a ghost field: every cell of `keyboard_buffer` read or
written, as row and index.
-/

namespace LightweightOs

namespace ScanCode

def leftShift : Byte := 0x2A#8
def rightShift : Byte := 0x36#8
def leftShiftRel : Byte := 0xAA#8
def rightShiftRel : Byte := 0xB6#8
def capsLock : Byte := 0x3A#8
def tab : Byte := 0x0F#8
def ctrl : Byte := 0x1D#8
def ctrlRel : Byte := 0x9D#8
def l : Byte := 0x26#8
def enter : Byte := 0x1C#8
def backspace : Byte := 0x0E#8
def alt : Byte := 0x38#8
def altRel : Byte := 0xB8#8
def f1 : Byte := 0x3B#8
def f2 : Byte := 0x3C#8
def f3 : Byte := 0x3D#8

end ScanCode

/-- `SCAN_CODES` -/
def scanCodes : Nat := 58

/-- `scan_codes_table`: the lowercase characters. -/
def scanCodesTable : List Byte :=
  [0x00#8, 0x00#8, 0x31#8, 0x32#8, 0x33#8, 0x34#8, 0x35#8, 0x36#8, 0x37#8,
    0x38#8, 0x39#8, 0x30#8, 0x2D#8, 0x3D#8, 0x00#8,
    0x00#8, 0x71#8, 0x77#8, 0x65#8, 0x72#8, 0x74#8, 0x79#8, 0x75#8, 0x69#8,
    0x6F#8, 0x70#8, 0x5B#8, 0x5D#8, 0x00#8,
    0x00#8, 0x61#8, 0x73#8, 0x64#8, 0x66#8, 0x67#8, 0x68#8, 0x6A#8, 0x6B#8,
    0x6C#8, 0x3B#8, 0x27#8, 0x60#8, 0x00#8, 0x5C#8,
    0x7A#8, 0x78#8, 0x63#8, 0x76#8, 0x62#8, 0x6E#8, 0x6D#8, 0x2C#8, 0x2E#8,
    0x2F#8, 0x00#8,
    0x00#8, 0x00#8, 0x20#8]

/-- `scan_codes_table_shift`: the characters typed with shift. -/
def scanCodesTableShift : List Byte :=
  [0x00#8, 0x00#8, 0x21#8, 0x40#8, 0x23#8, 0x24#8, 0x25#8, 0x5E#8, 0x26#8,
    0x2A#8, 0x28#8, 0x29#8, 0x5F#8, 0x2B#8, 0x00#8,
    0x00#8, 0x51#8, 0x57#8, 0x45#8, 0x52#8, 0x54#8, 0x59#8, 0x55#8, 0x49#8,
    0x4F#8, 0x50#8, 0x7B#8, 0x7D#8, 0x00#8,
    0x00#8, 0x41#8, 0x53#8, 0x44#8, 0x46#8, 0x47#8, 0x48#8, 0x4A#8, 0x4B#8,
    0x4C#8, 0x3A#8, 0x22#8, 0x7E#8, 0x00#8, 0x7C#8,
    0x5A#8, 0x58#8, 0x43#8, 0x56#8, 0x42#8, 0x4E#8, 0x4D#8, 0x3C#8, 0x3E#8,
    0x3F#8, 0x00#8,
    0x00#8, 0x00#8, 0x20#8]

/-- `scan_codes_table_caps`: the characters typed with caps lock on. -/
def scanCodesTableCaps : List Byte :=
  [0x00#8, 0x00#8, 0x31#8, 0x32#8, 0x33#8, 0x34#8, 0x35#8, 0x36#8, 0x37#8,
    0x38#8, 0x39#8, 0x30#8, 0x2D#8, 0x3D#8, 0x00#8,
    0x00#8, 0x51#8, 0x57#8, 0x45#8, 0x52#8, 0x54#8, 0x59#8, 0x55#8, 0x49#8,
    0x4F#8, 0x50#8, 0x5B#8, 0x5D#8, 0x00#8,
    0x00#8, 0x41#8, 0x53#8, 0x44#8, 0x46#8, 0x47#8, 0x48#8, 0x4A#8, 0x4B#8,
    0x4C#8, 0x3B#8, 0x27#8, 0x60#8, 0x00#8, 0x5C#8,
    0x5A#8, 0x58#8, 0x43#8, 0x56#8, 0x42#8, 0x4E#8, 0x4D#8, 0x2C#8, 0x2E#8,
    0x2F#8, 0x00#8,
    0x00#8, 0x00#8, 0x20#8]

def lookup (table : List Byte) (scanCode : Byte) : Byte :=
  table.getD scanCode.toNat nul

/-- The driver's globals, with the console it echoes to. -/
structure Tty extends Console where
  keyboardIndex : Int → Int
  shiftFlag : Bool
  capsLockFlag : Bool
  ctrlFlag : Bool
  enterFlag : Int → Bool
  newlineFlag : Bool
  altFlag : Bool
  curTerminal : Int
  keyboardBuffer : Int → Byte
  accesses : List (Int × Int)

/-- What the driver reads of the process on whose kernel stack it runs: the
terminal `putc` finds by following parents, and its own identifier. -/
structure Interrupted where
  curProcessLocal : Int
  processId : Int

namespace Tty

/-- `keyboard_init` -/
def keyboardInit (t : Tty) : Tty :=
  { t with
    keyboardIndex := assign (assign (assign t.keyboardIndex 0 0) 1 0) 2 0
    curTerminal := 1
    shiftFlag := false
    capsLockFlag := false
    ctrlFlag := false
    enterFlag := assign (assign (assign t.enterFlag 0 false) 1 false) 2 false
    newlineFlag := false
    altFlag := false }

/-- `cur_terminal - 1` -/
def row (t : Tty) : Int := t.curTerminal - 1

/-- `keyboard_index[cur_terminal - 1]` -/
def index (t : Tty) : Int := t.keyboardIndex t.row

def setIndex (t : Tty) (value : Int) : Tty :=
  { t with keyboardIndex := assign t.keyboardIndex t.row value }

/-- The position of `keyboard_buffer[row][k]` in the whole array. -/
def cell (row k : Int) : Int := row * bufferSize + k

/-- `keyboard_buffer[cur_terminal - 1][k]` -/
def load (t : Tty) (k : Int) : Byte := t.keyboardBuffer (cell t.row k)

/-- Record that the cell `[cur_terminal - 1][k]` is accessed. -/
def touch (t : Tty) (k : Int) : Tty :=
  { t with accesses := (t.row, k) :: t.accesses }

/-- `keyboard_buffer[cur_terminal - 1][k] = value` -/
def store (t : Tty) (k : Int) (value : Byte) : Tty :=
  { t.touch k with
    keyboardBuffer := assign t.keyboardBuffer (cell t.row k) value }

def putcKeyboard (t : Tty) (who : Interrupted) (c : Byte) : Tty :=
  { t with
    toConsole := t.toConsole.putc t.curTerminal who.curProcessLocal c true }

/-- `screen_x[cursor_idx]--` -/
def retreat (t : Tty) : Tty :=
  { t with screenX := assign t.screenX t.row (t.screenX t.row - 1) }

def modifierKeys (t : Tty) (scanCode : Byte) : Tty :=
  { t with
    shiftFlag :=
      if scanCode = ScanCode.leftShift ∨ scanCode = ScanCode.rightShift then true
      else if scanCode = ScanCode.leftShiftRel ∨
          scanCode = ScanCode.rightShiftRel then false
      else t.shiftFlag
    capsLockFlag :=
      if scanCode = ScanCode.capsLock then !t.capsLockFlag else t.capsLockFlag
    ctrlFlag :=
      if scanCode = ScanCode.ctrl then true
      else if scanCode = ScanCode.ctrlRel then false
      else t.ctrlFlag
    altFlag :=
      if scanCode = ScanCode.alt then true
      else if scanCode = ScanCode.altRel then false
      else t.altFlag }

def enterKey (t : Tty) (who : Interrupted) (scanCode : Byte) : Tty :=
  if scanCode = ScanCode.enter then
    let t := { t with enterFlag := assign t.enterFlag t.row true }
    let t := (t.store t.index newline).setIndex (t.index + 1)
    let t := t.store t.index nul
    let t := t.putcKeyboard who newline
    t.setIndex 0
  else t

/-- The newline added when a line reaches `MAX_LINE` characters. -/
def wrapLine (t : Tty) (who : Interrupted) : Tty :=
  if t.index = maxLine ∧ t.index + 1 < bufferSize then
    let t := t.store t.index newline
    let t := t.putcKeyboard who newline
    let t := t.setIndex (t.index + 1)
    { t with newlineFlag := true }
  else t

def clearKey (t : Tty) (who : Interrupted) (scanCode : Byte) : Tty :=
  if t.ctrlFlag ∧ scanCode = ScanCode.l then
    let t := (List.range 127).foldl (fun t (i : Nat) => t.store i nul) t
    let t := t.setIndex 0
    { t with
      toConsole :=
        t.toConsole.clear t.curTerminal who.curProcessLocal who.processId }
  else t

/-- One of the four guarded stores of a tab. -/
def tabStore (t : Tty) (who : Interrupted) : Tty :=
  if t.index + 2 < bufferSize then
    let t := t.store t.index tab
    let t := t.putcKeyboard who space
    t.setIndex (t.index + 1)
  else t

def tabKey (t : Tty) (who : Interrupted) (scanCode : Byte) : Tty :=
  if scanCode = ScanCode.tab ∧ t.index + tabSpace < bufferSize ∧
      t.screenX t.row + tabSpace < maxLine then
    (((t.tabStore who).tabStore who).tabStore who).tabStore who
  else t

/-- Backspace over the newline `wrapLine` added and the character before it. -/
def eraseNewline (t : Tty) (who : Interrupted) : Tty :=
  let t := t.store (t.index - 1) nul
  let t := t.store (t.index - 2) nul
  let t := { t with screenY := assign t.screenY t.row (t.screenY t.row - 1) }
  let curY := t.screenY t.row
  let t := { t with screenX := assign t.screenX t.row (maxLine - 1) }
  let t := (t.touch (t.index - 2)).putcKeyboard who (t.load (t.index - 2))
  let t := { t with screenY := assign t.screenY t.row curY }
  let t := { t with screenX := assign t.screenX t.row (maxLine - 1) }
  let t := t.setIndex (t.index - 2)
  { t with newlineFlag := false }

/-- Backspace over one character; a tab takes it four times. -/
def eraseChar (t : Tty) (who : Interrupted) : Tty :=
  let t := t.store (t.index - 1) nul
  let t := t.retreat
  let t := (t.touch (t.index - 1)).putcKeyboard who (t.load (t.index - 1))
  let t := if t.index > 0 then t.retreat else t
  t.setIndex (t.index - 1)

def backspaceKey (t : Tty) (who : Interrupted) (scanCode : Byte) : Tty :=
  if t.index > 0 ∧ t.index ≤ bufferSize - 1 ∧ scanCode = ScanCode.backspace then
    -- the first test reads the buffer only when newline_flag is set
    let tested := if t.newlineFlag then t.touch (t.index - 1) else t
    if t.newlineFlag ∧ t.load (t.index - 1) = newline then
      tested.eraseNewline who
    else
      let tested := tested.touch (t.index - 1)
      if t.load (t.index - 1) = tab then
        (((tested.eraseChar who).eraseChar who).eraseChar who).eraseChar who
      else tested.eraseChar who
  else t

def placeCursor (t : Tty) : Tty :=
  { t with
    toConsole := t.toConsole.updateCursor (t.screenX t.row) (t.screenY t.row) }

/-- The test of the last block: an unmodified key with a character, and room
for it. -/
def acceptsChar (t : Tty) (scanCode : Byte) : Prop :=
  scanCode.toNat < scanCodes ∧ lookup scanCodesTable scanCode ≠ nul ∧
    t.ctrlFlag = false ∧ t.altFlag = false ∧ t.index < bufferSize - 1

instance (t : Tty) (scanCode : Byte) : Decidable (t.acceptsChar scanCode) :=
  inferInstanceAs (Decidable (_ ∧ _ ∧ _ ∧ _ ∧ _))

/-- The character of a key under the current shift and caps lock. -/
def charOf (t : Tty) (scanCode : Byte) : Byte :=
  if t.shiftFlag ∧ ¬t.capsLockFlag then lookup scanCodesTableShift scanCode
  else if t.capsLockFlag ∧ ¬t.shiftFlag then lookup scanCodesTableCaps scanCode
  else lookup scanCodesTable scanCode

def charKey (t : Tty) (who : Interrupted) (scanCode : Byte) : Tty :=
  if t.acceptsChar scanCode then
    let t := t.store t.index (t.charOf scanCode)
    let t := (t.touch t.index).putcKeyboard who (t.load t.index)
    t.setIndex (t.index + 1)
  else t

/-- Everything `keyboard_handler` does before it looks for Alt+Fn. -/
def keyBlocks (t : Tty) (who : Interrupted) (scanCode : Byte) : Tty :=
  let t := t.modifierKeys scanCode
  let t := t.enterKey who scanCode
  let t := t.wrapLine who
  let t := t.clearKey who scanCode
  let t := t.tabKey who scanCode
  let t := t.backspaceKey who scanCode
  let t := t.placeCursor
  t.charKey who scanCode

/-- The terminal an Alt+Fn press selects. -/
def selectedTerminal (t : Tty) (scanCode : Byte) : Option Int :=
  if t.altFlag ∧ (scanCode = ScanCode.f1 ∨ scanCode = ScanCode.f2 ∨
      scanCode = ScanCode.f3) then
    some ((scanCode.toNat : Int) - fOffset.toNat)
  else none

/-- Display the selected terminal. -/
def switchTerminal (t : Tty) (selected : Int) : Tty :=
  let t := { t with toConsole := t.toConsole.swapPages t.curTerminal selected }
  let t := { t with curTerminal := selected }
  t.placeCursor

/-- `keyboard_handler` without the boot of a shell. -/
def keyPress (t : Tty) (who : Interrupted) (scanCode : Byte) : Tty :=
  let t := t.keyBlocks who scanCode
  match t.selectedTerminal scanCode with
  | none => t
  | some selected => t.switchTerminal selected

theorem stores_eq (positions : List Nat) (value : Byte) (t : Tty) :
    ∃ buffer accesses, positions.foldl (fun t (i : Nat) => t.store i value) t =
      { t with keyboardBuffer := buffer, accesses := accesses } := by
  induction positions generalizing t with
  | nil => exact ⟨t.keyboardBuffer, t.accesses, rfl⟩
  | cons i rest induction =>
      obtain ⟨buffer, accesses, stored⟩ := induction (t.store i value)
      exact ⟨buffer, accesses, stored⟩

/-- Backspace reads the buffer, and then erases the automatic newline or characters. -/
theorem backspaceKey_keeps {Holds : Tty → Prop} (who : Interrupted) (scanCode : Byte)
    (touch : ∀ t k, Holds t → Holds (t.touch k))
    (eraseNewline : ∀ t, Holds t → Holds (t.eraseNewline who))
    (eraseChar : ∀ t, Holds t → Holds (t.eraseChar who)) {t : Tty} (initially : Holds t) :
    Holds (t.backspaceKey who scanCode) := by
  unfold Tty.backspaceKey
  split
  case isFalse => exact initially
  case isTrue =>
    have tested : Holds (if t.newlineFlag then t.touch (t.index - 1) else t) := by
      split
      · exact touch _ _ initially
      · exact initially
    dsimp only
    split
    · exact eraseNewline _ tested
    · have touched := touch _ (t.index - 1) tested
      split
      · have first := eraseChar _ touched
        have second := eraseChar _ first
        have third := eraseChar _ second
        exact eraseChar _ third
      · exact eraseChar _ touched

/-- The displayed terminal and the modifier keys are the same. -/
structure SameControls (t u : Tty) : Prop where
  curTerminal : u.curTerminal = t.curTerminal
  shiftFlag : u.shiftFlag = t.shiftFlag
  capsLockFlag : u.capsLockFlag = t.capsLockFlag
  ctrlFlag : u.ctrlFlag = t.ctrlFlag
  altFlag : u.altFlag = t.altFlag

namespace SameControls

variable {t u v : Tty} (who : Interrupted) (scanCode : Byte)

theorem refl (t : Tty) : SameControls t t := ⟨rfl, rfl, rfl, rfl, rfl⟩

theorem trans (first : SameControls t u) (second : SameControls u v) :
    SameControls t v :=
  ⟨second.curTerminal.trans first.curTerminal,
    second.shiftFlag.trans first.shiftFlag,
    second.capsLockFlag.trans first.capsLockFlag,
    second.ctrlFlag.trans first.ctrlFlag,
    second.altFlag.trans first.altFlag⟩

theorem row (same : SameControls t u) : u.row = t.row := by
  simp only [Tty.row, same.curTerminal]

theorem touch (t : Tty) (k : Int) : SameControls t (t.touch k) :=
  ⟨rfl, rfl, rfl, rfl, rfl⟩

theorem placeCursor (t : Tty) : SameControls t t.placeCursor :=
  ⟨rfl, rfl, rfl, rfl, rfl⟩

theorem enterKey (t : Tty) : SameControls t (t.enterKey who scanCode) := by
  unfold Tty.enterKey
  split
  · exact ⟨rfl, rfl, rfl, rfl, rfl⟩
  · exact refl t

theorem wrapLine (t : Tty) : SameControls t (t.wrapLine who) := by
  unfold Tty.wrapLine
  split
  · exact ⟨rfl, rfl, rfl, rfl, rfl⟩
  · exact refl t

theorem clearKey (t : Tty) : SameControls t (t.clearKey who scanCode) := by
  obtain ⟨buffer, accesses, stored⟩ := stores_eq (List.range 127) nul t
  simp only [Tty.clearKey, stored]
  split
  · exact ⟨rfl, rfl, rfl, rfl, rfl⟩
  · exact refl t

theorem tabStore (t : Tty) : SameControls t (t.tabStore who) := by
  unfold Tty.tabStore
  split
  · exact ⟨rfl, rfl, rfl, rfl, rfl⟩
  · exact refl t

theorem tabKey (t : Tty) : SameControls t (t.tabKey who scanCode) := by
  unfold Tty.tabKey
  split
  · have first := tabStore who t
    have second := first.trans (tabStore who _)
    have third := second.trans (tabStore who _)
    exact third.trans (tabStore who _)
  · exact refl t

theorem eraseChar (t : Tty) : SameControls t (t.eraseChar who) := by
  unfold Tty.eraseChar
  dsimp only
  split <;> exact ⟨rfl, rfl, rfl, rfl, rfl⟩

theorem eraseNewline (t : Tty) : SameControls t (t.eraseNewline who) :=
  ⟨rfl, rfl, rfl, rfl, rfl⟩

theorem backspaceKey (t : Tty) : SameControls t (t.backspaceKey who scanCode) := by
  apply backspaceKey_keeps
  case touch => exact fun u k same => same.trans (touch u k)
  case eraseNewline => exact fun u same => same.trans (eraseNewline who u)
  case eraseChar => exact fun u same => same.trans (eraseChar who u)
  case initially => exact refl t

theorem charKey (t : Tty) : SameControls t (t.charKey who scanCode) := by
  unfold Tty.charKey
  split
  · exact ⟨rfl, rfl, rfl, rfl, rfl⟩
  · exact refl t

/-- Only the first block changes a modifier, and none changes the display. -/
theorem keyBlocks (t : Tty) :
    SameControls (t.modifierKeys scanCode) (t.keyBlocks who scanCode) := by
  have entered := enterKey who scanCode (t.modifierKeys scanCode)
  have wrapped := entered.trans (wrapLine who _)
  have cleared := wrapped.trans (clearKey who scanCode _)
  have tabbed := cleared.trans (tabKey who scanCode _)
  have erased := tabbed.trans (backspaceKey who scanCode _)
  have placed := erased.trans (placeCursor _)
  exact placed.trans (charKey who scanCode _)

end SameControls

theorem keyBlocks_curTerminal (t : Tty) (who : Interrupted) (scanCode : Byte) :
    (t.keyBlocks who scanCode).curTerminal = t.curTerminal :=
  (SameControls.keyBlocks who scanCode t).curTerminal

/-- What an Alt+Fn press selects depends on the modifier keys alone. -/
theorem keyBlocks_selectedTerminal (t : Tty) (who : Interrupted) (scanCode : Byte) :
    (t.keyBlocks who scanCode).selectedTerminal scanCode =
      (t.modifierKeys scanCode).selectedTerminal scanCode := by
  simp only [selectedTerminal, (SameControls.keyBlocks who scanCode t).altFlag]

theorem wrapLine_of_index {t : Tty} (who : Interrupted) (fits : t.index ≠ maxLine) :
    t.wrapLine who = t := if_neg fun full => fits full.1

theorem enterKey_of_ne (t : Tty) (who : Interrupted) {scanCode : Byte}
    (other : scanCode ≠ ScanCode.enter) : t.enterKey who scanCode = t := if_neg other

theorem clearKey_of_not {t : Tty} (who : Interrupted) {scanCode : Byte}
    (other : ¬(t.ctrlFlag ∧ scanCode = ScanCode.l)) : t.clearKey who scanCode = t :=
  if_neg other

theorem tabKey_of_ne (t : Tty) (who : Interrupted) {scanCode : Byte}
    (other : scanCode ≠ ScanCode.tab) : t.tabKey who scanCode = t :=
  if_neg fun pressed => other pressed.1

theorem backspaceKey_of_ne (t : Tty) (who : Interrupted) {scanCode : Byte}
    (other : scanCode ≠ ScanCode.backspace) : t.backspaceKey who scanCode = t :=
  if_neg fun pressed => other pressed.2.2

theorem selectedTerminal_range {t : Tty} {scanCode : Byte} {selected : Int}
    (selects : t.selectedTerminal scanCode = some selected) :
    1 ≤ selected ∧ selected ≤ 3 := by
  unfold selectedTerminal at selects
  split at selects
  case isTrue pressed =>
    obtain ⟨_, rfl | rfl | rfl⟩ := pressed <;> cases selects <;> decide
  case isFalse => cases selects

/-- The copy loop of `terminal_read`, with `left` bytes of the request left. -/
def copyLine (t : Tty) (outputIndex : Int) : Nat → Tty × List Byte
  | 0 => (t, [])
  | left + 1 =>
      let c := t.load outputIndex
      -- the cell is read once for the copy and once for the test
      let t := (t.touch outputIndex).touch outputIndex
      if c = nul then (t, [c])
      else
        let (t, rest) := t.copyLine (outputIndex + 1) left
        (t, c :: rest)

/-- `terminal_read` after its wait: the bytes stored in the caller's buffer and
the value returned. -/
def terminalReadLine (t : Tty) (bytes : Int) : Tty × List Byte × Int :=
  let (t, output) := t.copyLine 0 bytes.toNat
  let outputIndex : Int := output.length
  let t := t.touch 127
  if t.load 127 = newline then
    (t.store 127 nul, output, outputIndex + 1 - 1)
  else (t, output, outputIndex - 1)

/-- `terminal_read` up to its wait, for a process of terminal `curProcess`. -/
def terminalReadStart (t : Tty) (curProcess : Int) : Tty :=
  { t with enterFlag := assign t.enterFlag (curProcess - 1) false }

theorem SameControls.copyLine (t : Tty) (outputIndex : Int) (left : Nat) :
    SameControls t (t.copyLine outputIndex left).1 := by
  induction left generalizing t outputIndex with
  | zero => exact refl t
  | succ left induction =>
      have touched := (touch t outputIndex).trans (touch _ outputIndex)
      simp only [Tty.copyLine]
      split
      · exact touched
      · exact touched.trans (induction _ _)

theorem SameControls.terminalReadLine (t : Tty) (bytes : Int) :
    SameControls t (t.terminalReadLine bytes).1 := by
  have copied := (copyLine t 0 bytes.toNat).trans (touch _ 127)
  simp only [Tty.terminalReadLine]
  split
  · exact copied.trans ⟨rfl, rfl, rfl, rfl, rfl⟩
  · exact copied

/-- The wait of `terminal_read` ends. -/
def lineReady (t : Tty) (curProcess : Int) : Bool :=
  t.enterFlag (curProcess - 1)

end Tty

end LightweightOs
