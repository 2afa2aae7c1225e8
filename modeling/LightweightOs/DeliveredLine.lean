import LightweightOs.TypedText
import LightweightOs.TerminalRead

/-!
# The line a reader is given

A blocked reader waits through the editing of a line, and Enter ends its wait.  It is
then given the line as the driver keeps it, with the newline of a full row in it.
-/

namespace LightweightOs

namespace Tty

/-- A line is typed, and after Enter keys come up. -/
def typeLine (t : Tty) (typed : List Key) (enter : Key) (released : List Key) : Tty :=
  ((t.pressAll typed).press enter).pressAll released

/-- `terminal_read` returns the text and a newline: of the bytes it copied, as many as
it counts. -/
structure ReturnsLine (t : Tty) (bytes : Int) (text : List Byte) : Prop where
  returned : (t.terminalReadLine bytes).2.1.take (t.terminalReadLine bytes).2.2.toNat =
    text ++ [newline]
  count : (t.terminalReadLine bytes).2.2 = text.length + 1

section Typing

variable {t : Tty} {keys : List Key}

theorem pressAll_enterFlag (notEnter : ∀ key ∈ keys, key.scanCode ≠ ScanCode.enter) :
    (t.pressAll keys).enterFlag = t.enterFlag := by
  induction keys using List.reverseRecOn with
  | nil => rfl
  | append_singleton keys key induction =>
      rw [List.forall_mem_append, List.forall_mem_singleton] at notEnter
      rw [pressAll_concat, press, (keyPress_rows key.who _ key.scanCode).2.2,
        keyBlocks_enterFlag, if_neg notEnter.2]
      exact induction notEnter.1

/-- A key that comes up changes nothing about an empty line and what lies behind it. -/
structure Waits (t u : Tty) : Prop where
  curTerminal : u.curTerminal = t.curTerminal
  keyboardBuffer : u.keyboardBuffer = t.keyboardBuffer
  keyboardIndex : u.keyboardIndex = t.keyboardIndex
  enterFlag : u.enterFlag = t.enterFlag

theorem Waits.row {u : Tty} (waits : Waits t u) : u.row = t.row := by
  rw [Tty.row, Tty.row, waits.curTerminal]

theorem Waits.index {u : Tty} (waits : Waits t u) : u.index = t.index := by
  rw [Tty.index, Tty.index, waits.row, waits.keyboardIndex]

theorem Waits.trans {u v : Tty} (first : Waits t u) (second : Waits u v) : Waits t v :=
  ⟨second.curTerminal.trans first.curTerminal,
    second.keyboardBuffer.trans first.keyboardBuffer,
    second.keyboardIndex.trans first.keyboardIndex, second.enterFlag.trans first.enterFlag⟩

theorem waits_release (empty : t.index = 0) {key : Key} (up : 0x80 ≤ key.scanCode.toNat) :
    Waits t (t.press key) := by
  obtain ⟨idle, selectsNot⟩ := idle_of_up up
  have notFull : (t.modifierKeys key.scanCode).index ≠ maxLine := by
    change t.index ≠ maxLine
    rw [empty]
    decide
  rw [press, keyPress_of_code key.who t selectsNot, keyBlocks_idle_wrap key.who t idle,
    wrapLine_of_index key.who notFull]
  exact ⟨rfl, rfl, rfl, rfl⟩

theorem waits_releases (empty : t.index = 0)
    (up : ∀ key ∈ keys, 0x80 ≤ key.scanCode.toNat) : Waits t (t.pressAll keys) := by
  induction keys using List.reverseRecOn with
  | nil => exact ⟨rfl, rfl, rfl, rfl⟩
  | append_singleton keys key induction =>
      rw [List.forall_mem_append, List.forall_mem_singleton] at up
      have before := induction up.1
      rw [pressAll_concat]
      exact before.trans (waits_release (before.index.trans empty) up.2)

end Typing

end Tty

namespace Editor

variable {e : Editor}

/-- The line has the characters of the text and the driver's newline. -/
theorem mem_line {c : Byte} (member : c ∈ e.line) : c ∈ e.text ∨ c = newline := by
  rw [line, wrapped] at member
  split at member
  · exact .inl member
  · split at member
    · exact .inl member
    · rw [List.mem_append, List.mem_cons] at member
      rcases member with inRow | isNewline | behind
      · exact .inl (List.mem_of_mem_take inRow)
      · exact .inr isNewline
      · exact .inl (List.mem_of_mem_drop behind)

theorem line_length_le (e : Editor) : e.line.length ≤ e.text.length + 1 := by
  rw [line, wrapped]
  split
  · exact Nat.le_succ _
  · split
    · exact Nat.le_succ _
    · rw [List.length_append, List.length_cons, List.length_take, List.length_drop]
      omega

end Editor

namespace Tty

section Reading

variable {t u : Tty} {e : Editor} (who : Interrupted)

theorem keyPress_enter_row (t : Tty) : (t.keyPress who ScanCode.enter).row = t.row := by
  rw [keyPress_of_code who t (by decide), Tty.row, keyBlocks_curTerminal]
  rfl

theorem Holds.completedLine (holds : t.Holds e) : t.completedLine = e.line ++ [newline] := by
  rw [Tty.completedLine, holds.index, Int.toNat_natCast]
  congr 1
  apply List.ext_getElem?
  intro k
  rw [List.getElem?_map]
  rcases lt_or_ge k e.line.length with inside | behind
  · rw [List.getElem?_range inside, List.getElem?_eq_getElem inside, Option.map_some]
    exact congrArg some (holds.row k _ (List.getElem?_eq_getElem inside))
  · rw [List.getElem?_eq_none behind, List.getElem?_eq_none (by simpa using behind)]
    rfl

theorem Holds.copied (holds : t.Holds e) (fits : e.text.length ≤ 125)
    (waits : Waits (t.keyPress who ScanCode.enter) u) {bytes : Int} (room : 128 ≤ bytes) :
    (u.copyLine 0 bytes.toNat).2 = e.line ++ [newline, nul] := by
  have row := keyPress_enter_row who t
  have plain : nul ∉ e.line ++ [newline] := by
    rw [List.mem_append, List.mem_singleton, not_or]
    refine ⟨?_, by decide⟩
    intro member
    rcases e.mem_line member with inText | isNewline
    · exact (holds.plain _ inText).2.2 rfl
    · exact absurd isNewline (by decide)
  have low : 0 ≤ t.index := by
    rw [holds.index]
    exact Int.natCast_nonneg _
  have all := copyLine_take u (e.line ++ [newline]) bytes.toNat 0 plain (by
    intro k c found
    rw [← holds.completedLine] at found
    have stored := keyPress_enter_text who low k c found
    rw [Nat.zero_add, waits.row, row, Tty.line, waits.keyboardBuffer]
    exact stored)
  have length := e.line_length_le
  rw [List.append_assoc, List.take_of_length_le] at all
  · exact all
  · rw [List.length_append, List.length_append, List.length_singleton, List.length_singleton]
    omega

/-- The byte behind the row is the one before, unless the line is full. -/
theorem Holds.behind (holds : t.Holds e) (fits : e.text.length ≤ 125)
    (waits : Waits (t.keyPress who ScanCode.enter) u) :
    u.load 127 = if e.line.length = 126 then nul else t.load 127 := by
  have row := keyPress_enter_row who t
  have length := e.line_length_le
  have index := holds.index
  have stored := keyPress_enter_line who t 127
  have same : u.load 127 = (t.keyPress who ScanCode.enter).line t.row 127 := by
    rw [Tty.load, waits.row, row, waits.keyboardBuffer]
    rfl
  rw [same, stored]
  by_cases full : e.line.length = 126
  · rw [if_pos (by omega), if_pos full]
  · rw [if_neg (by omega), if_neg (by omega), if_neg full]
    rfl

end Reading

section Lines

variable {start : Tty} {typed released : List Key} {enter : Key} {bytes : Int}

theorem typeLine_waits (empty : start.index = 0) (ctrlUp : start.ctrlFlag = false)
    (altUp : start.altFlag = false) (text : ∀ key ∈ typed, TextCode key.scanCode)
    (fits : start.editor.Fits typed) (isEnter : enter.scanCode = ScanCode.enter)
    (up : ∀ key ∈ released, 0x80 ≤ key.scanCode.toNat) :
    (start.pressAll typed).Holds (start.editor.pressAll typed) ∧
      Edited start (start.pressAll typed) ∧
      Waits ((start.pressAll typed).keyPress enter.who ScanCode.enter)
        (start.typeLine typed enter released) := by
  have initially := editor_holds empty ctrlUp altUp
  have shaped : start.Shaped := by
    rw [Shaped, empty]
    exact .zero _
  refine ⟨initially.pressAll text fits, initially.edited shaped text fits, ?_⟩
  rw [typeLine, press, isEnter]
  apply waits_releases _ up
  rw [Tty.index, (keyPress_rows enter.who _ ScanCode.enter).2.1, enterKey_indices,
    keyPress_enter_row]
  exact assign_self _ _ _

theorem typeLine_output (empty : start.index = 0) (ctrlUp : start.ctrlFlag = false)
    (altUp : start.altFlag = false) (text : ∀ key ∈ typed, TextCode key.scanCode)
    (fits : start.editor.Fits typed) (isEnter : enter.scanCode = ScanCode.enter)
    (up : ∀ key ∈ released, 0x80 ≤ key.scanCode.toNat) (room : 128 ≤ bytes) :
    ((start.typeLine typed enter released).terminalReadLine bytes).2.1 =
      (start.editor.pressAll typed).line ++ [newline, nul] := by
  obtain ⟨holds, _, waits⟩ := typeLine_waits empty ctrlUp altUp text fits isEnter up
  rw [(terminalReadLine_output _ bytes).1]
  exact holds.copied enter.who (fits typed List.prefix_rfl) waits room

theorem typeLine_returns (empty : start.index = 0) (ctrlUp : start.ctrlFlag = false)
    (altUp : start.altFlag = false) (text : ∀ key ∈ typed, TextCode key.scanCode)
    (fits : start.editor.Fits typed) (isEnter : enter.scanCode = ScanCode.enter)
    (up : ∀ key ∈ released, 0x80 ≤ key.scanCode.toNat) (room : 128 ≤ bytes)
    (behind : (start.editor.pressAll typed).text.length = 125 ∨ start.load 127 ≠ newline) :
    (start.typeLine typed enter released).ReturnsLine bytes
      (start.editor.pressAll typed).line := by
  obtain ⟨holds, edited, waits⟩ := typeLine_waits empty ctrlUp altUp text fits isEnter up
  have size := fits typed List.prefix_rfl
  have output := typeLine_output empty ctrlUp altUp text fits isEnter up room
  obtain ⟨copied, counted⟩ :=
    terminalReadLine_output (start.typeLine typed enter released) bytes
  have unmarked : (start.typeLine typed enter released).load 127 ≠ newline := by
    rw [holds.behind enter.who size waits]
    split
    case isTrue => decide
    case isFalse notFull =>
      have untouched : (start.pressAll typed).load 127 = start.load 127 := by
        rw [load, load, edited.edits.row]
        apply edited.edits.buffer
        simp only [Outside, cell, bufferSize]
        omega
      rw [untouched]
      apply behind.resolve_left
      -- a line of 125 characters has its newline, and Enter ends it behind the row
      intro full
      have settled : (start.editor.pressAll typed).pending = false := by
        cases waiting : (start.editor.pressAll typed).pending with
        | false => rfl
        | true =>
            have row := holds.full waiting
            omega
      have length := Editor.line_length _ settled
      rw [full] at length
      exact notFull length
  rw [← copied, if_neg unmarked, output] at counted
  have count : ((start.typeLine typed enter released).terminalReadLine bytes).2.2 =
      (start.editor.pressAll typed).line.length + 1 := by
    rw [counted, List.length_append]
    simp only [List.length_cons, List.length_nil]
    omega
  refine ⟨?_, count⟩
  have places : ((start.editor.pressAll typed).line.length + 1 : Int).toNat =
      ((start.editor.pressAll typed).line ++ [newline]).length := by
    rw [List.length_append, List.length_singleton]
    omega
  have parts : (start.editor.pressAll typed).line ++ [newline, nul] =
      (start.editor.pressAll typed).line ++ [newline] ++ [nul] := by
    rw [List.append_assoc]
    rfl
  rw [count, output, places, parts]
  exact List.take_left

end Lines

end Tty

/-- A reader that is blocked while a line is typed waits for Enter.  It is given the
characters that remain, with the driver's newline behind the 73rd when that has been
added, and a newline; the value is their number unless a newline lies behind the row. -/
theorem typed_line {start : Tty} {typed released : List Key} {enter : Key} {bytes : Int}
    (empty : start.index = 0) (ctrlUp : start.ctrlFlag = false)
    (altUp : start.altFlag = false)
    (blocked : start.lineReady start.curTerminal = false)
    (text : ∀ key ∈ typed, Tty.TextCode key.scanCode) (fits : start.editor.Fits typed)
    (isEnter : enter.scanCode = ScanCode.enter)
    (up : ∀ key ∈ released, 0x80 ≤ key.scanCode.toNat) (room : 128 ≤ bytes) :
    (∀ shorter, shorter <+: typed →
      (start.pressAll shorter).lineReady start.curTerminal = false) ∧
    (start.typeLine typed enter released).lineReady start.curTerminal = true ∧
    ((start.typeLine typed enter released).terminalReadLine bytes).2.1 =
      (start.editor.pressAll typed).line ++ [newline, nul] ∧
    ((start.editor.pressAll typed).text.length = 125 ∨ start.load 127 ≠ newline →
      (start.typeLine typed enter released).ReturnsLine bytes
        (start.editor.pressAll typed).line) := by
  refine ⟨?_, ?_, ?_, ?_⟩
  · intro shorter isPrefix
    have notEnter : ∀ key ∈ shorter, key.scanCode ≠ ScanCode.enter := fun key member =>
      (text key (isPrefix.subset member)).1
    rw [Tty.lineReady, Tty.pressAll_enterFlag notEnter]
    exact blocked
  · obtain ⟨_, edited, waits⟩ :=
      Tty.typeLine_waits empty ctrlUp altUp text fits isEnter up
    have row : start.curTerminal - 1 = (start.pressAll typed).row := edited.edits.row.symm
    rw [Tty.lineReady, waits.enterFlag, row,
      (Tty.keyPress_rows enter.who _ ScanCode.enter).2.2, Tty.keyBlocks_enterFlag,
      if_pos rfl]
    exact assign_self _ _ _
  · exact Tty.typeLine_output empty ctrlUp altUp text fits isEnter up room
  · exact Tty.typeLine_returns empty ctrlUp altUp text fits isEnter up room

/-- A letter, and what its key sends when it comes up. -/
def typedLetter : List Key := [shellKey letterA, shellKey letterARel]

theorem typed_line_letter :
    (sampleTty.keyboardInit.typeLine typedLetter (shellKey ScanCode.enter) []).ReturnsLine 128
      [0x61#8] := by
  have fits : sampleTty.keyboardInit.editor.Fits typedLetter :=
    Editor.fits_of_count _ (by decide)
  have isEnter : (shellKey ScanCode.enter).scanCode = ScanCode.enter := rfl
  obtain ⟨_, _, _, returns⟩ := typed_line rfl rfl rfl rfl (by decide) fits isEnter
    (List.forall_mem_nil _) (show (128 : Int) ≤ 128 from le_rfl)
  exact returns (.inr (by decide))

/-- Seventy-three letters. -/
def typedRow : List Key := (List.replicate 73 typedLetter).flatten

/-- A reader that is blocked is given more than the 73 characters of a full row. -/
theorem typed_line_fullRow :
    ¬∀ (start : Tty) (typed released : List Key) (enter : Key) (bytes : Int),
      start.index = 0 → start.ctrlFlag = false → start.altFlag = false →
      start.lineReady start.curTerminal = false →
      (∀ key ∈ typed, Tty.TextCode key.scanCode) → start.editor.Fits typed →
      enter.scanCode = ScanCode.enter → (∀ key ∈ released, 0x80 ≤ key.scanCode.toNat) →
      128 ≤ bytes →
      (start.typeLine typed enter released).ReturnsLine bytes
        (start.editor.pressAll typed).text := by
  intro verbatim
  have fits : sampleTty.keyboardInit.editor.Fits typedRow :=
    Editor.fits_of_count _ (by decide +kernel)
  have text : ∀ key ∈ typedRow, Tty.TextCode key.scanCode := by decide +kernel
  have none : ∀ key ∈ ([] : List Key), 0x80 ≤ key.scanCode.toNat := List.forall_mem_nil _
  have isEnter : (shellKey ScanCode.enter).scanCode = ScanCode.enter := rfl
  have delivered := (verbatim sampleTty.keyboardInit typedRow [] _ 128 rfl rfl rfl rfl text fits
    isEnter none le_rfl).count
  have counted := (Tty.typeLine_returns rfl rfl rfl text fits isEnter none
    (show (128 : Int) ≤ 128 from le_rfl) (.inr (by decide))).count
  have lengths : (sampleTty.keyboardInit.editor.pressAll typedRow).text.length = 73 ∧
      (sampleTty.keyboardInit.editor.pressAll typedRow).line.length = 74 := by
    decide +kernel
  rw [delivered, lengths.1, lengths.2] at counted
  exact absurd counted (by decide)

end LightweightOs
