import LightweightOs.KeyboardBounds

/-!
# Lines that wait for their reader

Enter completes the line of the displayed terminal and starts the next one in
the same row.  The line stays where it is until a key types over it; its final
`'\0'` is in the row after it when the line is full.
-/

namespace LightweightOs

namespace Tty

/-- The line that Enter completes. -/
def completedLine (t : Tty) : List Byte :=
  (List.range t.index.toNat).map (fun k : Nat => t.line t.row k) ++ [newline]

/-- The row of a terminal holds a completed line, and no key has been typed
there since. -/
structure Pending (t : Tty) (terminal : Int) (line : List Byte) : Prop where
  index : t.keyboardIndex (terminal - 1) = 0
  length : line.length ≤ 127
  text : ∀ k : Nat, ∀ c, (line ++ [nul])[k]? = some c → t.line (terminal - 1) k = c

/-- The key stores a character, a tab or the end of the line. -/
def Inserts (t : Tty) (scanCode : Byte) : Prop :=
  scanCode = ScanCode.enter ∨
    scanCode = ScanCode.tab ∧ t.index + tabSpace < bufferSize ∧
      t.screenX t.row + tabSpace < maxLine ∨
    (t.modifierKeys scanCode).acceptsChar scanCode

/-- Ctrl+L clears the row. -/
def Clears (t : Tty) (scanCode : Byte) : Prop :=
  (t.modifierKeys scanCode).ctrlFlag ∧ scanCode = ScanCode.l

/-- The keys that leave a pending line alone. -/
structure KeepsLine (t : Tty) (scanCode : Byte) (terminal : Int) (line : List Byte) :
    Prop where
  own : t.curTerminal = terminal → ¬t.Inserts scanCode ∧ ¬t.Clears scanCode
  above : t.curTerminal + 1 = terminal →
    ¬(scanCode = ScanCode.enter ∧ t.index = bufferSize - 1)
  below : t.curTerminal = terminal + 1 → line.length = 127 →
    ¬(t.index = 0 ∧ t.Inserts scanCode)

section Blocks

variable {t u : Tty} (who : Interrupted) (scanCode : Byte)

theorem clearKey_enterFlag (t : Tty) :
    (t.clearKey who scanCode).enterFlag = t.enterFlag := by
  obtain ⟨buffer, accesses, stored⟩ := stores_eq (List.range 127) nul t
  simp only [Tty.clearKey, stored]
  split
  · rfl
  · rfl

theorem tabStore_enterFlag (t : Tty) : (t.tabStore who).enterFlag = t.enterFlag := by
  unfold Tty.tabStore
  split <;> rfl

theorem tabKey_enterFlag (t : Tty) : (t.tabKey who scanCode).enterFlag = t.enterFlag := by
  unfold Tty.tabKey
  split
  · simp only [tabStore_enterFlag]
  · rfl

theorem eraseChar_enterFlag (t : Tty) : (t.eraseChar who).enterFlag = t.enterFlag := by
  unfold Tty.eraseChar
  dsimp only
  split <;> rfl

theorem backspaceKey_enterFlag (t : Tty) :
    (t.backspaceKey who scanCode).enterFlag = t.enterFlag := by
  apply @backspaceKey_keeps fun u => u.enterFlag = t.enterFlag
  case touch => exact fun _ _ same => same
  case eraseNewline => exact fun _ same => same
  case eraseChar => exact fun u same => (eraseChar_enterFlag who u).trans same
  case initially => rfl

/-- Only Enter sets a flag, that of the displayed terminal. -/
theorem keyBlocks_enterFlag (t : Tty) :
    (t.keyBlocks who scanCode).enterFlag =
      if scanCode = ScanCode.enter then assign t.enterFlag t.row true else t.enterFlag := by
  have charKey : ∀ t : Tty, (t.charKey who scanCode).enterFlag = t.enterFlag := by
    intro t
    unfold Tty.charKey
    split <;> rfl
  have wrapLine : ∀ t : Tty, (t.wrapLine who).enterFlag = t.enterFlag := by
    intro t
    unfold Tty.wrapLine
    split <;> rfl
  have placed : ∀ t : Tty, t.placeCursor.enterFlag = t.enterFlag := fun _ => rfl
  rw [Tty.keyBlocks, charKey, placed, backspaceKey_enterFlag, tabKey_enterFlag,
    clearKey_enterFlag, wrapLine, Tty.enterKey]
  split <;> rfl

/-- A key that neither types nor clears leaves an empty row alone. -/
theorem keyBlocks_keepsRow (empty : t.index = 0) (insertsNot : ¬t.Inserts scanCode)
    (clearsNot : ¬t.Clears scanCode) :
    (t.keyBlocks who scanCode).keyboardBuffer = t.keyboardBuffer ∧
      (t.keyBlocks who scanCode).keyboardIndex = t.keyboardIndex := by
  have modified : (t.modifierKeys scanCode).index = 0 := empty
  have notEnter : scanCode ≠ ScanCode.enter := fun pressed => insertsNot (.inl pressed)
  have noTab : (t.modifierKeys scanCode).tabKey who scanCode =
      t.modifierKeys scanCode := if_neg fun pressed => insertsNot (.inr (.inl pressed))
  have noErase : (t.modifierKeys scanCode).backspaceKey who scanCode =
      t.modifierKeys scanCode := by
    apply if_neg
    intro pressed
    rw [modified] at pressed
    exact lt_irrefl 0 pressed.1
  have noChar : (t.modifierKeys scanCode).placeCursor.charKey who scanCode =
      (t.modifierKeys scanCode).placeCursor :=
    if_neg fun accepted => insertsNot (.inr (.inr accepted))
  have noWrap : (t.modifierKeys scanCode).wrapLine who = t.modifierKeys scanCode := by
    apply wrapLine_of_index
    rw [modified]
    decide
  have noClear : (t.modifierKeys scanCode).clearKey who scanCode =
      t.modifierKeys scanCode := clearKey_of_not who clearsNot
  rw [Tty.keyBlocks, enterKey_of_ne _ who notEnter, noWrap, noClear, noTab, noErase, noChar]
  exact ⟨rfl, rfl⟩

theorem keyBlocks_enter (t : Tty) :
    (t.keyBlocks who ScanCode.enter) =
      ((t.modifierKeys ScanCode.enter).enterKey who ScanCode.enter).placeCursor := by
  have index : ((t.modifierKeys ScanCode.enter).enterKey who ScanCode.enter).index = 0 := by
    rw [Tty.enterKey, if_pos rfl, setIndex_index]
  rw [Tty.keyBlocks, wrapLine_of_index who (by rw [index]; decide),
    clearKey_of_not who (by simp [ScanCode.enter, ScanCode.l]),
    tabKey_of_ne _ who (by decide), backspaceKey_of_ne _ who (by decide)]
  exact if_neg fun accepted => accepted.2.1 (by decide)

/-- Nothing but `'\0'` has been stored. -/
def Nulls (t u : Tty) : Prop :=
  u.row = t.row ∧ ∀ row k, u.line row k = t.line row k ∨ u.line row k = nul

theorem Nulls.refl (t : Tty) : Nulls t t := ⟨rfl, fun _ _ => .inl rfl⟩

theorem Nulls.trans {v : Tty} (first : Nulls t u) (second : Nulls u v) : Nulls t v := by
  refine ⟨second.1.trans first.1, ?_⟩
  intro row k
  rcases second.2 row k with same | isNul
  · rw [same]
    exact first.2 row k
  · exact .inr isNul

theorem Nulls.store (t : Tty) (k : Int) : Nulls t (t.store k nul) := by
  refine ⟨rfl, ?_⟩
  intro row j
  simp only [line, Tty.store, touch, Function.update_apply]
  split
  · exact .inr rfl
  · exact .inl rfl

theorem Nulls.eraseChar (t : Tty) : Nulls t (t.eraseChar who) := by
  have stored := Nulls.store t (t.index - 1)
  unfold Tty.eraseChar
  dsimp only
  split <;> exact ⟨rfl, stored.2⟩

theorem Nulls.eraseNewline (t : Tty) : Nulls t (t.eraseNewline who) := by
  have stored := (Nulls.store t (t.index - 1)).trans (Nulls.store _ (t.index - 2))
  exact ⟨rfl, stored.2⟩

theorem Nulls.backspaceKey (t : Tty) : Nulls t (t.backspaceKey who scanCode) := by
  apply backspaceKey_keeps
  case touch => exact fun u k nulls => ⟨nulls.1, nulls.2⟩
  case eraseNewline => exact fun u nulls => nulls.trans (.eraseNewline who u)
  case eraseChar => exact fun u nulls => nulls.trans (.eraseChar who u)
  case initially => exact .refl t

theorem Nulls.clearKey (t : Tty) : Nulls t (t.clearKey who scanCode) := by
  have stores : ∀ (positions : List Nat) (t : Tty),
      Nulls t (positions.foldl (fun t (i : Nat) => t.store i nul) t) := by
    intro positions
    induction positions with
    | nil => exact .refl
    | cons i rest induction => exact fun t => (Nulls.store t i).trans (induction _)
  unfold Tty.clearKey
  split
  · have cleared := stores (List.range 127) t
    revert cleared
    generalize (List.range 127).foldl (fun t (i : Nat) => t.store i nul) t = u
    intro cleared
    exact ⟨cleared.1, cleared.2⟩
  · exact .refl t

/-- The first byte of the row in use is `'\0'`. -/
def FirstNul (t : Tty) : Prop := t.line t.row 0 = nul

theorem Nulls.firstNul (nulls : Nulls t u) (first : t.FirstNul) : u.FirstNul := by
  rw [FirstNul, nulls.1]
  rcases nulls.2 t.row 0 with same | isNul
  · rw [same]
    exact first
  · exact isNul

theorem FirstNul.wrapLine (first : t.FirstNul) : (t.wrapLine who).FirstNul := by
  unfold Tty.wrapLine
  split
  case isTrue full =>
    have different : (0 : Int) ≠ t.index := by
      rw [full.1]
      decide
    exact (store_line_of_ne t t.index newline different).trans first
  case isFalse => exact first

theorem FirstNul.charKey (first : t.FirstNul) (started : t.index ≠ 0) :
    (t.charKey who scanCode).FirstNul := by
  unfold Tty.charKey
  split
  · exact (store_line_of_ne t t.index (t.charOf scanCode) (Ne.symm started)).trans first
  · exact first

theorem FirstNul.tabKey (first : t.FirstNul) (started : 0 < t.index) :
    (t.tabKey who scanCode).FirstNul ∧ 0 < (t.tabKey who scanCode).index := by
  unfold Tty.tabKey
  split
  case isTrue pressed =>
    obtain ⟨count, fills, _⟩ := fills_tabStores who started.le pressed.2.1
    constructor
    · rw [FirstNul, fills.edits.row, fills.below 0 started]
      exact first
    · rw [fills.index]
      omega
  case isFalse => exact ⟨first, started⟩

theorem FirstNul.enterKey (first : t.FirstNul) (started : 0 < t.index) :
    (t.enterKey who scanCode).FirstNul := by
  unfold Tty.enterKey
  split
  · have one := store_line_of_ne t t.index newline (show (0 : Int) ≠ t.index by omega)
    have next : ((t.store t.index newline).setIndex (t.index + 1)).index = t.index + 1 :=
      setIndex_index _ _
    have two := store_line_of_ne ((t.store t.index newline).setIndex (t.index + 1))
      ((t.store t.index newline).setIndex (t.index + 1)).index nul
      (show (0 : Int) ≠ _ by rw [next]; omega)
    exact (two.trans one).trans first
  · exact first

theorem wrapLine_index_le (t : Tty) : t.index ≤ (t.wrapLine who).index := by
  unfold Tty.wrapLine
  split
  · change t.index ≤ (((t.store t.index newline).putcKeyboard who newline).setIndex
      (t.index + 1)).index
    rw [setIndex_index]
    omega
  · exact le_rfl

theorem FirstNul.erased (first : t.FirstNul)
    (erases : scanCode = ScanCode.backspace ∨ t.Clears scanCode) :
    (t.keyBlocks who scanCode).FirstNul := by
  have notEnter : scanCode ≠ ScanCode.enter := by
    rcases erases with rfl | ⟨_, rfl⟩ <;> decide
  have notTab : scanCode ≠ ScanCode.tab := by
    rcases erases with rfl | ⟨_, rfl⟩ <;> decide
  have modified : (t.modifierKeys scanCode).FirstNul := first
  have cleared := Nulls.clearKey who scanCode ((t.modifierKeys scanCode).wrapLine who)
  have nulls := cleared.trans (Nulls.backspaceKey who scanCode _)
  have erased := nulls.firstNul (modified.wrapLine who)
  have sameWrap := SameControls.wrapLine who (t.modifierKeys scanCode)
  have sameClear := sameWrap.trans (SameControls.clearKey who scanCode _)
  have sameCtrl := (sameClear.trans (SameControls.backspaceKey who scanCode _)).ctrlFlag
  rw [Tty.keyBlocks, enterKey_of_ne _ who notEnter, tabKey_of_ne _ who notTab, Tty.charKey,
    if_neg]
  · exact erased
  · intro accepted
    rcases erases with rfl | ⟨ctrl, _⟩
    · exact accepted.2.1 (by decide)
    · have released := sameCtrl.symm.trans accepted.2.2.1
      rw [released] at ctrl
      cases ctrl

/-- Once a line has been started the other keys store behind its first place. -/
theorem FirstNul.started (first : t.FirstNul) (started : 0 < t.index)
    (notBackspace : scanCode ≠ ScanCode.backspace) (clearsNot : ¬t.Clears scanCode) :
    (t.keyBlocks who scanCode).FirstNul := by
  have modified : (t.modifierKeys scanCode).FirstNul := first
  have modifiedStarted : 0 < (t.modifierKeys scanCode).index := started
  by_cases isEnter : scanCode = ScanCode.enter
  · subst isEnter
    rw [keyBlocks_enter who t]
    exact modified.enterKey who ScanCode.enter modifiedStarted
  · have wrapped := modified.wrapLine who
    have wrappedStarted := modifiedStarted.trans_le (wrapLine_index_le who _)
    have sameCtrl := (SameControls.wrapLine who (t.modifierKeys scanCode)).ctrlFlag
    rw [Clears, ← sameCtrl] at clearsNot
    obtain ⟨tabbed, tabbedStarted⟩ := wrapped.tabKey who scanCode wrappedStarted
    have placed : ((((t.modifierKeys scanCode).wrapLine who).tabKey who
        scanCode).placeCursor).FirstNul := tabbed
    rw [Tty.keyBlocks, enterKey_of_ne _ who isEnter, clearKey_of_not who clearsNot,
      backspaceKey_of_ne _ who notBackspace]
    exact placed.charKey who scanCode tabbedStarted.ne'

/-- The first place is written only by a key that inserts there. -/
theorem FirstNul.keyBlocks (first : t.FirstNul) (shaped : t.Shaped)
    (keeps : ¬(t.index = 0 ∧ t.Inserts scanCode)) :
    (t.keyBlocks who scanCode).FirstNul := by
  by_cases erases : scanCode = ScanCode.backspace ∨ t.Clears scanCode
  · exact first.erased who scanCode erases
  · have notBackspace : scanCode ≠ ScanCode.backspace := fun pressed =>
      erases (.inl pressed)
    have clearsNot : ¬t.Clears scanCode := fun clears => erases (.inr clears)
    rcases shaped.low.eq_or_lt with isZero | started
    · have empty : t.index = 0 := isZero.symm
      obtain ⟨buffer, _⟩ := keyBlocks_keepsRow who scanCode empty
        (fun inserts => keeps ⟨empty, inserts⟩) clearsNot
      have sameRow : (t.keyBlocks who scanCode).row = t.row := by
        simp only [row, keyBlocks_curTerminal]
      rw [FirstNul, sameRow, line, buffer]
      exact first
    · exact first.started who scanCode started notBackspace clearsNot

end Blocks

section Pending

variable {t : Tty} {terminal : Int} {line : List Byte} (who : Interrupted)

/-- Only the row, its index and the byte after it matter. -/
theorem Pending.of_eq {u : Tty} (pending : Pending t terminal line)
    (index : u.keyboardIndex (terminal - 1) = t.keyboardIndex (terminal - 1))
    (row : ∀ k : Nat, (k : Int) ≤ bufferSize - 1 →
      u.line (terminal - 1) k = t.line (terminal - 1) k)
    (ending : line.length = 127 → t.line (terminal - 1) 127 = nul →
      u.line (terminal - 1) 127 = nul) : Pending u terminal line where
  index := index.trans pending.index
  length := pending.length
  text := by
    intro k c found
    have here := pending.text k c found
    have bound : k < (line ++ [nul]).length := (List.getElem?_eq_some_iff.mp found).1
    have length := pending.length
    simp only [List.length_append, List.length_singleton] at bound
    rcases lt_or_ge k 127 with inside | outside
    · rw [row k (by simp only [bufferSize]; omega)]
      exact here
    · have last : k = 127 := by omega
      have full : line.length = 127 := by omega
      have isNul : c = nul := by
        have atEnd := List.getElem?_concat_length (l := line) (a := nul)
        rw [full, ← last, found] at atEnd
        exact Option.some.inj atEnd
      rw [last] at here ⊢
      rw [isNul] at here ⊢
      exact ending full here

theorem enterKey_buffer (t : Tty) :
    (t.keyBlocks who ScanCode.enter).keyboardBuffer =
      assign (assign t.keyboardBuffer (cell t.row t.index) newline)
        (cell t.row (t.index + 1)) nul := by
  have next : ((t.store t.index newline).setIndex (t.index + 1)).index = t.index + 1 :=
    setIndex_index _ _
  rw [keyBlocks_enter, Tty.enterKey, if_pos rfl]
  change assign _ (cell t.row ((t.store t.index newline).setIndex (t.index + 1)).index)
    nul = _
  rw [next]
  rfl

theorem enterKey_indices (t : Tty) :
    (t.keyBlocks who ScanCode.enter).keyboardIndex = assign t.keyboardIndex t.row 0 := by
  rw [keyBlocks_enter, Tty.enterKey, if_pos rfl]
  change assign (assign t.keyboardIndex t.row _) t.row 0 = assign t.keyboardIndex t.row 0
  rw [assign, Function.update_idem]

theorem Pending.enterFull (pending : Pending t terminal line)
    (full : t.index = bufferSize - 1) (other : t.curTerminal ≠ terminal)
    (notAbove : t.curTerminal + 1 ≠ terminal) :
    Pending (t.keyBlocks who ScanCode.enter) terminal line := by
  have untouched : ∀ k : Int, 0 ≤ k → k ≤ 127 →
      (t.keyBlocks who ScanCode.enter).line (terminal - 1) k =
        t.line (terminal - 1) k := by
    intro k low high
    have first : cell (terminal - 1) k ≠ cell t.row t.index := by
      simp only [cell, row, bufferSize] at full ⊢
      omega
    have second : cell (terminal - 1) k ≠ cell t.row (t.index + 1) := by
      simp only [cell, row, bufferSize] at full ⊢
      omega
    simp only [Tty.line, enterKey_buffer, assign]
    rw [Function.update_of_ne second, Function.update_of_ne first]
  apply pending.of_eq
  case index =>
    have apart : terminal - 1 ≠ t.row := by
      simp only [row]
      omega
    rw [enterKey_indices, assign, Function.update_of_ne apart]
  case row =>
    intro k high
    simp only [bufferSize] at high
    exact untouched k (by omega) (by omega)
  case ending =>
    intro _ isNul
    rw [untouched 127 (by decide) le_rfl]
    exact isNul

theorem Pending.keyBlocks (pending : Pending t terminal line) {scanCode : Byte}
    (holds : t.RowsInvariant) (keeps : KeepsLine t scanCode terminal line) :
    Pending (t.keyBlocks who scanCode) terminal line := by
  have shaped := holds.shaped
  by_cases own : t.curTerminal = terminal
  · obtain ⟨insertsNot, clearsNot⟩ := keeps.own own
    have empty : t.index = 0 := by
      rw [Tty.index, Tty.row, own]
      exact pending.index
    obtain ⟨buffer, indices⟩ := keyBlocks_keepsRow who scanCode empty insertsNot clearsNot
    apply pending.of_eq
    case index => rw [indices]
    case row => exact fun k _ => by simp only [Tty.line, buffer]
    case ending => exact fun _ isNul => by rwa [Tty.line, buffer]
  · by_cases full : scanCode = ScanCode.enter ∧ t.index = bufferSize - 1
    · obtain ⟨rfl, isFull⟩ := full
      apply pending.enterFull who isFull own
      exact fun above => keeps.above above ⟨rfl, isFull⟩
    · have edited := shaped.keyBlocks who scanCode fun pressed isFull =>
        full ⟨pressed, isFull⟩
      have apart : terminal - 1 ≠ t.row := by
        simp only [row]
        omega
      apply pending.of_eq
      case index => exact edited.edits.indices _ apart
      case row =>
        intro k high
        exact edited.edits.buffer _ (outside_cell (by omega) high apart)
      case ending =>
        intro isFull isNul
        have place : cell (terminal - 1) 127 = cell terminal 0 := by
          simp only [cell, bufferSize]
          omega
        rw [Tty.line, place] at isNul ⊢
        by_cases below : t.curTerminal = terminal + 1
        · -- the line ends in the first byte of the row in use
          have sameRow : t.row = terminal := by
            simp only [row]
            omega
          have first : t.FirstNul := by
            rw [FirstNul, Tty.line, sameRow]
            exact isNul
          have kept := first.keyBlocks who scanCode shaped (keeps.below below isFull)
          rw [FirstNul, edited.edits.row, sameRow] at kept
          exact kept
        · have outside : Outside t.row (cell terminal 0) := by
            simp only [Outside, cell, row, bufferSize]
            omega
          rw [edited.edits.buffer _ outside]
          exact isNul

theorem keyPress_rows (t : Tty) (scanCode : Byte) :
    (t.keyPress who scanCode).keyboardBuffer =
        (t.keyBlocks who scanCode).keyboardBuffer ∧
      (t.keyPress who scanCode).keyboardIndex =
        (t.keyBlocks who scanCode).keyboardIndex ∧
      (t.keyPress who scanCode).enterFlag = (t.keyBlocks who scanCode).enterFlag := by
  rw [Tty.keyPress]
  cases (t.keyBlocks who scanCode).selectedTerminal scanCode with
  | none => exact ⟨rfl, rfl, rfl⟩
  | some selected => exact ⟨rfl, rfl, rfl⟩

theorem Pending.keyPress (pending : Pending t terminal line) {scanCode : Byte}
    (holds : t.RowsInvariant) (keeps : KeepsLine t scanCode terminal line) :
    Pending (t.keyPress who scanCode) terminal line := by
  have blocks := pending.keyBlocks who holds keeps
  obtain ⟨buffer, indices, _⟩ := keyPress_rows who t scanCode
  apply blocks.of_eq
  case index => rw [indices]
  case row => exact fun k _ => by simp only [Tty.line, buffer]
  case ending => exact fun _ isNul => by rwa [Tty.line, buffer]

theorem keyPress_enter_line (t : Tty) (k : Int) :
    (t.keyPress who ScanCode.enter).line t.row k =
      if k = t.index + 1 then nul else if k = t.index then newline else t.line t.row k := by
  simp only [Tty.line, (keyPress_rows who t ScanCode.enter).1, enterKey_buffer, assign,
    Function.update_apply, cell_injective]

theorem completedLine_length (t : Tty) : t.completedLine.length = t.index.toNat + 1 := by
  rw [completedLine, List.length_append, List.length_map, List.length_range,
    List.length_singleton]

theorem keyPress_enter_text (low : 0 ≤ t.index) (k : Nat) (c : Byte)
    (found : (t.completedLine ++ [nul])[k]? = some c) :
    (t.keyPress who ScanCode.enter).line t.row k = c := by
  have size := t.completedLine_length
  have bound : k < (t.completedLine ++ [nul]).length :=
    (List.getElem?_eq_some_iff.mp found).1
  rw [List.length_append, size, List.length_singleton] at bound
  rw [keyPress_enter_line]
  rcases lt_or_ge k t.index.toNat with typed | ended
  · rw [if_neg (by omega), if_neg (by omega)]
    rw [completedLine, List.append_assoc, List.getElem?_append_left (by simpa using typed),
      List.getElem?_map, List.getElem?_range typed] at found
    exact Option.some.inj found
  · rcases ended.eq_or_lt with atNewline | atNul
    · rw [if_neg (by omega), if_pos (by omega)]
      rw [completedLine, List.append_assoc, List.getElem?_append_right (by simpa using ended),
        List.length_map, List.length_range, atNewline, Nat.sub_self] at found
      exact Option.some.inj found
    · rw [if_pos (by omega)]
      rw [List.getElem?_append_right (by omega), size,
        show k - (t.index.toNat + 1) = 0 by omega] at found
      exact Option.some.inj found

/-- Enter leaves the line it completes pending on the displayed terminal. -/
theorem pending_enter (holds : t.RowsInvariant) :
    Pending (t.keyPress who ScanCode.enter) t.curTerminal t.completedLine := by
  have low : 0 ≤ t.index := holds.shaped.low
  have high : t.index ≤ bufferSize - 1 := holds.shaped.high
  simp only [bufferSize] at high
  obtain ⟨_, indices, _⟩ := keyPress_rows who t ScanCode.enter
  constructor
  case index =>
    rw [indices, enterKey_indices]
    exact Function.update_self _ _ _
  case length =>
    rw [completedLine_length]
    omega
  case text => exact keyPress_enter_text who low

/-- All that `terminal_read` may store is a `'\0'` over a newline after the row. -/
theorem terminalReadLine_stores (t : Tty) (bytes : Int) :
    (t.terminalReadLine bytes).1.keyboardBuffer =
        (if t.load 127 = newline then assign t.keyboardBuffer (cell t.row 127) nul
          else t.keyboardBuffer) ∧
      (t.terminalReadLine bytes).1.keyboardIndex = t.keyboardIndex ∧
      (t.terminalReadLine bytes).1.enterFlag = t.enterFlag := by
  have copied := copyLine_eq t 0 bytes.toNat
  have sameLoad : ((t.copyLine 0 bytes.toNat).1.touch 127).load 127 = t.load 127 := by
    rw [copied]
    rfl
  simp only [Tty.terminalReadLine, sameLoad]
  by_cases marked : t.load 127 = newline
  · rw [if_pos marked, if_pos marked, copied]
    exact ⟨rfl, rfl, rfl⟩
  · rw [if_neg marked, if_neg marked, copied]
    exact ⟨rfl, rfl, rfl⟩

/-- Reading another terminal's line keeps a pending one, unless it begins with
the newline that `terminal_read` clears. -/
theorem Pending.terminalReadLine (pending : Pending t terminal line) (bytes : Int)
    (keeps : t.curTerminal + 1 = terminal → line.head? ≠ some newline) :
    Pending (t.terminalReadLine bytes).1 terminal line := by
  obtain ⟨buffer, indices, _⟩ := terminalReadLine_stores t bytes
  by_cases marked : t.load 127 = newline
  · rw [if_pos marked] at buffer
    apply pending.of_eq
    case index => rw [indices]
    case row =>
      intro k high
      rw [Tty.line, Tty.line, buffer, assign]
      apply Function.update_of_ne
      intro cleared
      -- the cleared byte would be the first of the pending line
      have first : k = 0 ∧ t.curTerminal + 1 = terminal := by
        simp only [cell, Tty.row, bufferSize] at cleared high
        omega
      obtain ⟨rfl, above⟩ := first
      have here : t.line (terminal - 1) ((0 : Nat) : Int) = newline := by
        rw [Tty.line, cleared]
        exact marked
      cases line with
      | nil =>
          have ended := pending.text 0 nul rfl
          rw [here] at ended
          exact absurd ended (by decide)
      | cons c rest =>
          have starts := pending.text 0 c rfl
          rw [here] at starts
          exact keeps above (congrArg some starts.symm)
    case ending =>
      intro _ isNul
      rw [Tty.line, buffer, assign, Function.update_apply]
      split
      · rfl
      · exact isNul
  · rw [if_neg marked] at buffer
    apply pending.of_eq
    case index => rw [indices]
    case row => exact fun k _ => by rw [Tty.line, Tty.line, buffer]
    case ending => exact fun _ isNul => by rwa [Tty.line, buffer]

theorem copyLine_prefix (t : Tty) (text : List Byte) (left start : Nat)
    (held : ∀ k : Nat, ∀ c, (text ++ [nul])[k]? = some c →
      t.line t.row (start + k : Nat) = c) :
    (t.copyLine start left).2 <+: text ++ [nul] := by
  induction left generalizing t text start with
  | zero => exact List.nil_prefix
  | succ left induction =>
      cases text with
      | nil =>
          have isNul : t.load start = nul := by
            have here := held 0 nul rfl
            rwa [Nat.add_zero] at here
          simp only [copyLine, isNul, if_true]
          exact List.prefix_rfl
      | cons c rest =>
          have isChar : t.load start = c := by
            have here := held 0 c rfl
            rwa [Nat.add_zero] at here
          simp only [copyLine, isChar]
          split
          · exact ⟨rest ++ [nul], rfl⟩
          · have later := induction ((t.touch start).touch start) rest (start + 1) (by
              intro k d found
              have here := held (k + 1) d found
              rw [show start + 1 + k = start + (k + 1) by omega]
              exact here)
            push_cast at later
            exact (List.prefix_cons_inj c).mpr later

theorem Pending.copies (pending : Pending t t.curTerminal line) (bytes : Int) :
    (t.terminalReadLine bytes).2.1 <+: line ++ [nul] := by
  have copied := copyLine_prefix t line bytes.toNat 0 (by
    intro k c found
    rw [Nat.zero_add]
    exact pending.text k c found)
  have output : (t.terminalReadLine bytes).2.1 = (t.copyLine (0 : Nat) bytes.toNat).2 := by
    simp only [Tty.terminalReadLine]
    split <;> rfl
  rwa [output]

end Pending

end Tty

end LightweightOs
