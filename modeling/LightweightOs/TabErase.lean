import LightweightOs.KeyEffects

/-!
# Backspace over a tab

Tab stores up to four cells, each under a test of its own, and Backspace always
erases four.  It undoes the Tab except where the newline of a full row comes between
the two, or where Tab had room for three cells only.
-/

namespace LightweightOs

open Transition

namespace Tty

/-- The cursor of the displayed terminal is in a column. -/
def InColumn (t : Tty) : Prop := Column (t.screenX t.row)

/-- The cursor of every terminal is in a column. -/
def InColumns (t : Tty) : Prop :=
  ∀ terminal, 1 ≤ terminal → terminal ≤ 3 → Column (t.screenX (terminal - 1))

section Blocks

variable {t u : Tty} (who : Interrupted) (scanCode : Byte)

theorem InColumn.of_eq (inside : t.InColumn) (row : u.row = t.row)
    (screenX : u.screenX = t.screenX) : u.InColumn := by
  rw [InColumn, row, screenX]
  exact inside

/-- Printing leaves the cursor short of the column before the screen. -/
theorem putcKeyboard_column (t : Tty) (c : Byte) :
    -80 < (t.putcKeyboard who c).screenX t.row ∧
      (t.putcKeyboard who c).screenX t.row < 80 := by
  by_cases isNewline : c = newline ∨ c = carriageReturn
  · have column :=
      (t.toConsole.putc_newline t.curTerminal who.curProcessLocal isNewline).1
    change (t.putcKeyboard who c).screenX t.row = 0 at column
    rw [column]
    decide
  · rw [(putcKeyboard_cursor who isNewline).1]
    have low := Int.lt_tmod_of_pos (t.screenX t.row + 1) (show 0 < numCols by decide)
    have high := Int.tmod_lt_of_pos (t.screenX t.row + 1) (show 0 < numCols by decide)
    exact ⟨low, high⟩

theorem putcKeyboard_inColumn (t : Tty) (c : Byte) : (t.putcKeyboard who c).InColumn := by
  obtain ⟨low, high⟩ := t.putcKeyboard_column who c
  exact ⟨by change -80 ≤ (t.putcKeyboard who c).screenX t.row; omega, high⟩

theorem InColumn.enterKey (inside : t.InColumn) : (t.enterKey who scanCode).InColumn := by
  unfold Tty.enterKey
  split
  · exact (putcKeyboard_inColumn who t newline).of_eq rfl rfl
  · exact inside

theorem InColumn.wrapLine (inside : t.InColumn) : (t.wrapLine who).InColumn := by
  unfold Tty.wrapLine
  split
  · exact (putcKeyboard_inColumn who t newline).of_eq rfl rfl
  · exact inside

theorem InColumn.clearKey (inside : t.InColumn) : (t.clearKey who scanCode).InColumn := by
  have sameRow := (SameControls.clearKey who scanCode t).row
  have cleared := (clear_cursor who t.toConsole t.curTerminal).1
  rw [InColumn, sameRow, clearKey_toConsole]
  split
  · rw [row, cleared]
    split <;> decide
  · exact inside

theorem InColumn.tabStore (inside : t.InColumn) : (t.tabStore who).InColumn := by
  unfold Tty.tabStore
  split
  · exact (putcKeyboard_inColumn who t space).of_eq rfl rfl
  · exact inside

theorem InColumn.tabKey (inside : t.InColumn) : (t.tabKey who scanCode).InColumn := by
  unfold Tty.tabKey
  split
  · exact (((inside.tabStore who).tabStore who).tabStore who).tabStore who
  · exact inside

theorem eraseChar_inColumn (t : Tty) : (t.eraseChar who).InColumn := by
  unfold Tty.eraseChar
  dsimp only
  generalize ((t.store (t.index - 1) nul).retreat.touch
    ((t.store (t.index - 1) nul).retreat.index - 1)) = u
  generalize (t.store (t.index - 1) nul).retreat.load _ = c
  obtain ⟨low, high⟩ := u.putcKeyboard_column who c
  split
  · have moved := retreat_x (u.putcKeyboard who c)
    apply @InColumn.of_eq (u.putcKeyboard who c).retreat _ _ rfl rfl
    constructor
    · change -80 ≤ (u.putcKeyboard who c).retreat.screenX (u.putcKeyboard who c).row
      rw [moved]
      change -80 ≤ (u.putcKeyboard who c).screenX u.row - 1
      omega
    · change (u.putcKeyboard who c).retreat.screenX (u.putcKeyboard who c).row < 80
      rw [moved]
      change (u.putcKeyboard who c).screenX u.row - 1 < 80
      omega
  · exact (putcKeyboard_inColumn who u c).of_eq rfl rfl

theorem eraseNewline_inColumn (t : Tty) : (t.eraseNewline who).InColumn := by
  have sameRow := (SameControls.eraseNewline who t).row
  rw [InColumn, sameRow, eraseNewline_screenX, assign_self]
  decide

theorem InColumn.backspaceKey (inside : t.InColumn) :
    (t.backspaceKey who scanCode).InColumn := by
  apply backspaceKey_keeps
  case touch => exact fun u k inside => inside.of_eq rfl rfl
  case eraseNewline => exact fun u _ => eraseNewline_inColumn who u
  case eraseChar => exact fun u _ => eraseChar_inColumn who u
  case initially => exact inside

theorem InColumn.charKey (inside : t.InColumn) : (t.charKey who scanCode).InColumn := by
  unfold Tty.charKey
  split
  · exact (putcKeyboard_inColumn who t _).of_eq rfl rfl
  · exact inside

theorem InColumn.keyBlocks (inside : t.InColumn) : (t.keyBlocks who scanCode).InColumn := by
  have modified : (t.modifierKeys scanCode).InColumn := inside.of_eq rfl rfl
  have wrapped := (modified.enterKey who scanCode).wrapLine who
  have tabbed := (wrapped.clearKey who scanCode).tabKey who scanCode
  have erased := tabbed.backspaceKey who scanCode
  have placed := @InColumn.of_eq _ (Tty.placeCursor _) erased rfl rfl
  exact placed.charKey who scanCode

theorem InColumns.keyPress (inside : t.InColumns)
    (displayed : 1 ≤ t.curTerminal ∧ t.curTerminal ≤ 3) :
    (t.keyPress who scanCode).InColumns := by
  have shown : t.InColumn := inside t.curTerminal displayed.1 displayed.2
  have typed := shown.keyBlocks who scanCode
  have moves := MovesCursor.keyBlocks who scanCode t
  intro terminal low high
  rw [(t.keyPress_cursors who scanCode).1]
  by_cases own : terminal - 1 = t.row
  · rw [own, ← moves.row]
    exact typed
  · rw [moves.x _ own]
    exact inside terminal low high

theorem InColumns.step {record : TtyRecord} (inside : t.InColumns)
    (displayed : 1 ≤ t.curTerminal ∧ t.curTerminal ≤ 3) (step : TtyStep t record u) :
    u.InColumns := by
  obtain ⟨_, _, _, performed⟩ := step
  rw [performed]
  cases record.event with
  | key who scanCode => exact inside.keyPress who scanCode displayed
  | readStart curProcess bytes =>
      have same : (t.perform (.readStart curProcess bytes)).screenX = t.screenX := by
        simp only [perform]
        split <;> rfl
      intro terminal low high
      rw [same]
      exact inside terminal low high
  | readLine curProcess bytes =>
      have same : (t.perform (.readLine curProcess bytes)).screenX = t.screenX := by
        have copied := t.copyLine_eq 0 bytes.toNat
        simp only [perform, Tty.terminalReadLine]
        split
        · change (t.copyLine 0 bytes.toNat).1.screenX = t.screenX
          rw [copied]
        · change (t.copyLine 0 bytes.toNat).1.screenX = t.screenX
          rw [copied]
      intro terminal low high
      rw [same]
      exact inside terminal low high

end Blocks

/-- The code of a key that comes up. -/
def release (scanCode : Byte) : Byte := scanCode ||| 0x80#8

/-- Tab and Backspace, each pressed and released; the codes interrupt these processes. -/
def tabThenBackspace (t : Tty) (first second third fourth : Interrupted) : Tty :=
  (((t.keyPress first ScanCode.tab).keyPress second (release ScanCode.tab)).keyPress third
    ScanCode.backspace).keyPress fourth (release ScanCode.backspace)

/-- The index, the line below it and the cursor are what they were. -/
structure Restores (t u : Tty) : Prop where
  index : u.keyboardIndex t.row = t.index
  line : ∀ k, 0 ≤ k → k < t.index → u.line t.row k = t.line t.row k
  x : u.screenX t.row = t.screenX t.row
  y : u.screenY t.row = t.screenY t.row

section Keys

variable {t : Tty} (who : Interrupted)

theorem keyPress_release (t : Tty) {scanCode : Byte}
    (isKey : scanCode = ScanCode.tab ∨ scanCode = ScanCode.backspace) :
    t.keyPress who (release scanCode) = (t.wrapLine who).placeCursor := by
  have codes : 0x80 ≤ (release scanCode).toNat ∧ t.modifierKeys (release scanCode) = t := by
    rcases isKey with rfl | rfl
    · exact ⟨by decide, rfl⟩
    · exact ⟨by decide, rfl⟩
  obtain ⟨up, plain⟩ := codes
  obtain ⟨idle, selectsNot⟩ := idle_of_up up
  rw [t.keyPress_of_code who selectsNot, t.keyBlocks_idle_wrap who idle, plain]

theorem keyPress_tab (t : Tty) :
    t.keyPress who ScanCode.tab =
      ((t.wrapLine who).tabKey who ScanCode.tab).placeCursor := by
  rw [t.keyPress_of_code who (by decide), t.keyBlocks_tab who]

theorem release_of_index {scanCode : Byte}
    (isKey : scanCode = ScanCode.tab ∨ scanCode = ScanCode.backspace)
    (notFull : t.index ≠ maxLine) :
    t.keyPress who (release scanCode) = t.placeCursor := by
  rw [keyPress_release who t isKey, wrapLine_of_index who notFull]

theorem Points.tabStore {x y : Int} (points : t.Points x y) (room : t.index + 2 < bufferSize)
    (low : -80 ≤ x) (high : x < 79) :
    (t.tabStore who).Points (x + 1) y ∧ (t.tabStore who).index = t.index + 1 := by
  have notNewline : ¬(space = LightweightOs.newline ∨ space = carriageReturn) := by decide
  have printed := points.text who notNewline low high
  rw [Tty.tabStore, if_pos room]
  exact ⟨printed.quiet rfl rfl rfl, setIndex_index _ _⟩

/-- Tab that finds room stores its cells, and moves the cursor when it stores four. -/
theorem tab_fills (low : 0 ≤ (t.wrapLine who).index)
    (room : (t.wrapLine who).index + tabSpace < bufferSize)
    (column : (t.wrapLine who).screenX (t.wrapLine who).row + tabSpace < maxLine) :
    ∃ u count, t.keyPress who ScanCode.tab = Tty.placeCursor u ∧
      Fills (t.wrapLine who) u count ∧
      (count = 4 ∧ (t.wrapLine who).index ≠ 122 ∨
        count = 3 ∧ (t.wrapLine who).index = 122) ∧
      ∀ x y, (t.wrapLine who).Points x y → -80 ≤ x → (t.wrapLine who).index ≠ 122 →
        u.Points (x + 4) y := by
  obtain ⟨count, fills, isCount⟩ := fills_tabStores who low room
  refine ⟨(((((t.wrapLine who).tabStore who).tabStore who).tabStore who).tabStore who), count,
    ?_, fills, isCount, ?_⟩
  · rw [keyPress_tab, tabKey, if_pos ⟨rfl, room, column⟩]
  · intro x y points left notLast
    rw [points.x] at column
    simp only [tabSpace, maxLine, bufferSize] at room column
    obtain ⟨one, oneIndex⟩ := points.tabStore who (by simp only [bufferSize]; omega) left
      (by omega)
    obtain ⟨two, twoIndex⟩ := one.tabStore who (by simp only [bufferSize]; omega) (by omega)
      (by omega)
    obtain ⟨three, threeIndex⟩ := two.tabStore who (by simp only [bufferSize]; omega) (by omega)
      (by omega)
    obtain ⟨four, _⟩ := three.tabStore who (by simp only [bufferSize]; omega) (by omega)
      (by omega)
    have place : x + 1 + 1 + 1 + 1 = x + 4 := by omega
    rw [place] at four
    exact four

/-- A shorter line, in the same row. -/
structure CutTo (t u : Tty) (size : Int) : Prop where
  row : u.row = t.row
  index : u.index = size
  below : ∀ k, k < size → u.line t.row k = t.line t.row k

theorem backspace_tab (long : 4 ≤ t.index) (high : t.index ≤ bufferSize - 1)
    (notFull : t.index ≠ maxLine) (isTab : t.load (t.index - 1) = tab) :
    ∃ u, t.keyPress who ScanCode.backspace = Tty.placeCursor u ∧ CutTo t u (t.index - 4) ∧
      ∀ x y, t.Points x y → -76 ≤ x → x < 80 → u.Points (x - 4) y := by
  obtain ⟨accesses, v, isTested, key, _⟩ := backspaceKey_cases who (by omega : 0 < t.index) high
  have notNewline : ¬(t.newlineFlag ∧ t.load (t.index - 1) = newline) := by
    rw [isTab]
    exact fun both => absurd both.2 (by decide)
  rw [if_neg notNewline, if_pos isTab] at key
  have index : v.index = t.index := by
    rw [isTested]
    rfl
  have row : v.row = t.row := by
    rw [isTested]
    rfl
  have line : v.line = t.line := by
    rw [isTested]
    rfl
  have first := cuts_eraseChar who (show 1 ≤ v.index by omega) (by omega)
  have second := first.eraseChar who (by omega) (by omega)
  have third := second.eraseChar who (by omega) (by omega)
  have fourth := third.eraseChar who (by omega) (by omega)
  have size : v.index - 1 - 1 - 1 - 1 = t.index - 4 := by omega
  rw [size] at fourth
  refine ⟨(((v.eraseChar who).eraseChar who).eraseChar who).eraseChar who, ?_, ?_, ?_⟩
  · rw [keyPress_backspace, wrapLine_of_index who notFull, key]
  · have below := fourth.below
    rw [row, line] at below
    exact ⟨fourth.edits.row.trans row, fourth.index, below⟩
  · intro x y points left right
    have tested : v.Points x y := by
      rw [isTested]
      exact points.quiet rfl rfl rfl
    have one := tested.eraseChar who (by omega) (by omega) right
    have two := one.eraseChar who (by rw [first.index]; omega) (by omega) (by omega)
    have three := two.eraseChar who (by rw [second.index]; omega) (by omega) (by omega)
    have four := three.eraseChar who (by rw [third.index]; omega) (by omega) (by omega)
    have place : x - 1 - 1 - 1 - 1 = x - 4 := by omega
    rw [place] at four
    exact four

variable {first second third fourth : Interrupted}

theorem tab_erased {u : Tty} {count : Nat}
    (pressed : t.keyPress first ScanCode.tab = u.placeCursor)
    (fills : Fills (t.wrapLine first) u count) (some : 0 < count)
    (long : 4 ≤ (t.wrapLine first).index + count)
    (high : (t.wrapLine first).index + count ≤ bufferSize - 1)
    (notFull : (t.wrapLine first).index + count ≠ maxLine)
    (notFullAfter : (t.wrapLine first).index + count - 4 ≠ maxLine) (few : count ≤ 4) :
    ∃ w, t.tabThenBackspace first second third fourth = Tty.placeCursor w ∧
      CutTo (t.wrapLine first) w ((t.wrapLine first).index + count - 4) ∧
      ∀ x y, u.Points x y → -76 ≤ x → x < 80 → w.Points (x - 4) y := by
  have index := fills.index
  have row := fills.edits.row
  have last := fills.filled ((t.wrapLine first).index + count - 1) (by omega) (by omega)
  rw [← index] at last
  have isTab : u.placeCursor.placeCursor.load (u.placeCursor.placeCursor.index - 1) = tab := by
    change u.line u.row (u.index - 1) = tab
    rw [row]
    exact last
  have released := @release_of_index u.placeCursor second ScanCode.tab (.inl rfl)
    (by change u.index ≠ maxLine; omega)
  have sameIndex : u.placeCursor.placeCursor.index = u.index := rfl
  obtain ⟨w, erased, cut, moved⟩ := @backspace_tab u.placeCursor.placeCursor third
    (by omega) (by omega) (by omega) isTab
  have releasedAfter := @release_of_index w.placeCursor fourth ScanCode.backspace (.inr rfl)
    (by change w.index ≠ maxLine; rw [cut.index]; omega)
  refine ⟨w.placeCursor, ?_, ?_, ?_⟩
  · rw [tabThenBackspace, pressed, released, erased, releasedAfter]
  · constructor
    case row => exact cut.row.trans row
    case index =>
      change w.index = _
      rw [cut.index, sameIndex, index]
    case below =>
      intro k below
      have kept := cut.below k (by omega)
      change w.line u.row k = u.line u.row k at kept
      rw [row] at kept
      exact kept.trans (fills.below k (by omega))
  · intro x y points left right
    have placed : u.placeCursor.placeCursor.Points x y := points.quiet rfl rfl rfl
    exact (moved x y placed left right).quiet rfl rfl rfl

theorem backspace_newline (index : t.index = 74) (isNewline : t.load 73 = newline)
    (flag : t.newlineFlag = true) :
    ∃ u, t.keyPress who ScanCode.backspace = Tty.placeCursor u ∧ u.row = t.row ∧
      u.index = 72 := by
  have loaded : t.load (t.index - 1) = newline := by
    rw [index]
    exact isNewline
  obtain ⟨accesses, v, isTested, key, _⟩ := backspaceKey_cases who
    (by omega : 0 < t.index) (by rw [index]; decide)
  have same : v.index = t.index ∧ v.row = t.row := by
    rw [isTested]
    exact ⟨rfl, rfl⟩
  have size := @Agree.eraseNewline_index who v
  rw [same.1, index] at size
  refine ⟨v.eraseNewline who, ?_, ?_, size⟩
  · rw [keyPress_backspace, wrapLine_of_index who (by rw [index]; decide), key,
      if_pos ⟨flag, loaded⟩]
  · exact (SameControls.eraseNewline who v).row.trans same.2

/-- Behind 69 characters the newline comes between Tab and Backspace. -/
theorem tab_wraps {u : Tty} (pressed : t.keyPress first ScanCode.tab = u.placeCursor)
    (row : u.row = t.row) (full : u.index = maxLine) :
    (t.tabThenBackspace first second third fourth).keyboardIndex t.row = 72 := by
  obtain ⟨index, _, isNewline, flag⟩ := @wrapLine_full u.placeCursor second full
  have released := @keyPress_release second u.placeCursor ScanCode.tab (.inl rfl)
  have wrappedRow := (SameControls.wrapLine second u.placeCursor).row
  obtain ⟨w, erased, erasedRow, size⟩ :=
    @backspace_newline (u.placeCursor.wrapLine second).placeCursor third index isNewline flag
  have releasedAfter := @release_of_index w.placeCursor fourth ScanCode.backspace (.inr rfl)
    (by change w.index ≠ maxLine; rw [size]; decide)
  have sameRow : w.row = t.row := (erasedRow.trans wrappedRow).trans row
  rw [tabThenBackspace, pressed, released, erased, releasedAfter, ← sameRow]
  exact size

theorem tab_full (full : t.index = maxLine) :
    (t.tabThenBackspace first second third fourth).keyboardIndex t.row = 74 := by
  obtain ⟨index, zero, _, _⟩ := wrapLine_full first full
  have row := (SameControls.wrapLine first t).row
  rw [← row] at zero
  obtain ⟨u, count, pressed, fills, isCount, _⟩ := @tab_fills t first (by omega)
    (by rw [index]; decide) (by rw [zero]; decide)
  rw [index] at isCount
  have four : count = 4 := by omega
  subst four
  have erased := @tab_erased t first second third fourth u 4 pressed fills (by decide)
  rw [index] at erased
  obtain ⟨w, isLast, cut, _⟩ := erased (by decide) (by decide) (by decide) (by decide) le_rfl
  rw [isLast, ← row, ← cut.row]
  exact cut.index

/-- Tab, and Backspace after it, where Tab adds at least one character. -/
theorem tabThenBackspace_restores (shaped : t.Shaped) (column : t.InColumn)
    (accepted : t.index < (t.keyPress first ScanCode.tab).index) :
    t.Restores (t.tabThenBackspace first second third fourth) ↔
      t.index ≠ 69 ∧ t.index ≠ maxLine ∧ t.index ≠ 122 := by
  have low : 0 ≤ t.index := shaped.low
  by_cases full : t.index = maxLine
  · have size := @tab_full t first second third fourth full
    constructor
    · intro restores
      have index := size.symm.trans restores.index
      rw [full] at index
      exact absurd index (by decide)
    · exact fun other => absurd full other.2.1
  have settled := wrapLine_of_index first full
  have room : t.index + tabSpace < bufferSize ∧ t.screenX t.row + tabSpace < maxLine := by
    by_contra refused
    have same : t.keyPress first ScanCode.tab = t.placeCursor := by
      rw [keyPress_tab, settled, tabKey, if_neg fun guarded => refused guarded.2]
    rw [same] at accepted
    exact lt_irrefl _ accepted
  obtain ⟨u, count, pressed, fills, isCount, moved⟩ := @tab_fills t first
    (by rw [settled]; exact low) (by rw [settled]; exact room.1)
    (by rw [settled]; exact room.2)
  have erased := @tab_erased t first second third fourth u count pressed fills
  rw [settled] at fills isCount moved erased
  obtain ⟨size, right⟩ := room
  simp only [tabSpace, bufferSize, maxLine] at size right full
  by_cases wraps : t.index + count = maxLine
  · have isRow := @tab_wraps t first second third fourth u pressed fills.edits.row
      (by rw [fills.index, wraps])
    simp only [maxLine] at wraps
    constructor
    · intro restores
      have index := restores.index
      omega
    · omega
  obtain ⟨w, isLast, cut, restored⟩ := erased (by omega) (by omega)
    (by simp only [bufferSize]; omega) wraps (by simp only [maxLine]; omega) (by omega)
  simp only [maxLine] at wraps
  rw [isLast]
  constructor
  · intro restores
    have index := restores.index
    rw [← cut.row] at index
    change w.index = t.index at index
    rw [cut.index] at index
    exact ⟨by omega, full, by omega⟩
  · rintro ⟨_, _, notLast⟩
    have four : count = 4 := by omega
    have same : t.index + count - 4 = t.index := by omega
    have there := moved _ _ ⟨rfl, rfl⟩ column.1 notLast
    obtain ⟨left, _⟩ := column
    obtain ⟨x, y⟩ := restored _ _ there (by omega) (by omega)
    rw [cut.row, Int.add_sub_cancel] at x
    rw [cut.row] at y
    constructor
    case index =>
      rw [← cut.row]
      exact cut.index.trans same
    case line =>
      intro k _ below
      exact cut.below k (by omega)
    case x => exact x
    case y => exact y

end Keys

end Tty

/-- In every state a run of the driver reaches, Backspace undoes a Tab that adds
something if and only if the line before it has none of these lengths: 69, where Tab
fills the row, 73, where the row is full already, and 122, where only three cells fit. -/
theorem tab_backspace {start t : Tty} {history : List TtyRecord} (initial : start.Initial)
    (bounds : start.CursorsInBounds) (run : Run TtyStep start history t)
    (first second third fourth : Interrupted)
    (accepted : t.index < (t.keyPress first ScanCode.tab).index) :
    t.Restores (t.tabThenBackspace first second third fourth) ↔
      t.index ≠ 69 ∧ t.index ≠ maxLine ∧ t.index ≠ 122 := by
  have startColumns : start.InColumns := by
    intro terminal low high
    obtain ⟨⟨left, right⟩, _⟩ := bounds terminal low high
    exact ⟨by omega, right⟩
  have reached : t.RowsInvariant ∧ t.InColumns := by
    apply run.invariant _ ⟨initial.invariant, startColumns⟩
    intro state record next holds step
    exact ⟨(holds.1.step step).1, holds.2.step holds.1.displayed step⟩
  obtain ⟨holds, columns⟩ := reached
  exact Tty.tabThenBackspace_restores holds.shaped
    (columns t.curTerminal holds.displayed.1 holds.displayed.2) accepted

theorem sampleTty_inBounds : sampleTty.keyboardInit.CursorsInBounds := by
  intro terminal _ _
  have inside : (0 : Int) < 80 ∧ (0 : Int) < 25 := by decide
  exact ⟨⟨le_rfl, inside.1⟩, le_rfl, inside.2⟩

/-- A tab on an empty line. -/
theorem tab_backspace_empty :
    sampleTty.keyboardInit.Restores
      (sampleTty.keyboardInit.tabThenBackspace ⟨1, 1⟩ ⟨1, 1⟩ ⟨1, 1⟩ ⟨1, 1⟩) := by
  have run : Run TtyStep sampleTty.keyboardInit [] sampleTty.keyboardInit := .nil
  apply (tab_backspace sampleTty_initial sampleTty_inBounds run _ _ _ _ ?_).mpr
  · exact ⟨by decide, by decide, by decide⟩
  · decide +kernel

/-- Tab, pressed while the letter that fills the row is still down. -/
theorem tab_backspace_fullRow :
    ¬∀ start t history, start.Initial → start.CursorsInBounds →
      Run TtyStep start history t → ∀ who : Interrupted,
        t.index < (t.keyPress who ScanCode.tab).index →
          t.Restores (t.tabThenBackspace who who who who) := by
  intro restores
  obtain ⟨history, t, run, typed⟩ :=
    typing_run ⟨1, 1⟩ sampleTty_typing 73 (by decide) (by decide)
  have full : t.index = maxLine := typed.index
  have accepted : t.index < (t.keyPress ⟨1, 1⟩ ScanCode.tab).index := by
    obtain ⟨index, zero, _, _⟩ := Tty.wrapLine_full ⟨1, 1⟩ full
    rw [← (Tty.SameControls.wrapLine ⟨1, 1⟩ t).row] at zero
    obtain ⟨u, count, pressed, fills, _, _⟩ := @Tty.tab_fills t ⟨1, 1⟩ (by omega)
      (by rw [index]; decide) (by rw [zero]; decide)
    rw [pressed, full]
    change maxLine < u.index
    rw [fills.index, index]
    simp only [maxLine]
    omega
  have same := (restores _ _ _ sampleTty_initial sampleTty_inBounds run ⟨1, 1⟩ accepted).index
  rw [Tty.tab_full full, full] at same
  exact absurd same (by decide)

end LightweightOs
