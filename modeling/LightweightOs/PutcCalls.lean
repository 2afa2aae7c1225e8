import LightweightOs.Screen
import LightweightOs.KeyboardRows

/-!
# The calls of putc

`clear`, `terminal_write` and the blocks of `keyboard_handler` touch the pages
only by clearing the display and by calling `putc`; the calls each of them makes
are listed here in order, with the state each call is made in.
-/

namespace LightweightOs

/-- A call of `putc` and the console it is made on. -/
structure PutcCall where
  con : Console
  curTerminal : Int
  curProcessLocal : Int
  c : Byte
  keyboardPrint : Bool

namespace PutcCall

variable (call : PutcCall)

def result : Console :=
  call.con.putc call.curTerminal call.curProcessLocal call.c call.keyboardPrint

/-- The terminal whose cursor the call uses. -/
def terminal : Int :=
  if call.keyboardPrint then call.curTerminal else call.curProcessLocal

def page : Int := Console.pageOf call.curTerminal call.terminal

/-- The address of the character cell the call stores; a newline stores none. -/
def cell : Option Int :=
  if call.c = newline ∨ call.c = carriageReturn then none
  else some (cellAddr call.page (call.con.screenY (call.terminal - 1))
    (call.con.screenX (call.terminal - 1)))

/-- The two bytes of the cell lie in the text of the page. -/
def Inside : Prop :=
  ∀ address ∈ call.cell, call.page ≤ address ∧ address + 1 < call.page + 80 * 25 * 2

end PutcCall

namespace Console

/-- The calls that print a text. -/
def putcCalls (con : Console) (curTerminal curProcessLocal : Int)
    (keyboardPrint : Bool) : List Byte → List PutcCall
  | [] => []
  | c :: rest =>
      ⟨con, curTerminal, curProcessLocal, c, keyboardPrint⟩ ::
        (con.putc curTerminal curProcessLocal c keyboardPrint).putcCalls curTerminal
          curProcessLocal keyboardPrint rest

def terminalWriteCalls (con : Console) (curTerminal curProcessLocal : Int)
    (input : List Byte) : List PutcCall :=
  con.putcCalls curTerminal curProcessLocal false
    (input.map fun c => if c = tab then space else c)

/-- The state of `clear` when it begins to print the prompt. -/
def cleared (con : Console) (curTerminal : Int) : Console :=
  let cursorIdx := curTerminal - 1
  let con :=
    { con with
      vram := clearDisplay con.vram
      screenY := assign con.screenY cursorIdx 0
      screenX := assign con.screenX cursorIdx 0 }
  con.updateCursor (con.screenY cursorIdx) (con.screenX cursorIdx)

def clearCalls (con : Console) (curTerminal curProcessLocal processId : Int) :
    List PutcCall :=
  if processId = 1 ∨ processId = 2 ∨ processId = 3 then
    (con.cleared curTerminal).putcCalls curTerminal curProcessLocal true prompt
  else []

/-- Between the two states the pages change by the calls, made one after the
other, and by clearing the display. -/
inductive Follows : Console → List PutcCall → Console → Prop where
  | quiet {con next : Console} (vram : next.vram = con.vram) : Follows con [] next
  | clears {con next : Console} (vram : next.vram = clearDisplay con.vram) :
      Follows con [] next
  | calls {con next : Console} (call : PutcCall) (before : call.con.vram = con.vram)
      (after : next.vram = call.result.vram) : Follows con [call] next
  | trans {con middle next : Console} {calls later : List PutcCall}
      (first : Follows con calls middle) (second : Follows middle later next) :
      Follows con (calls ++ later) next

theorem Follows.cons {con next : Console} {later : List PutcCall} (call : PutcCall)
    (before : call.con.vram = con.vram) (second : Follows call.result later next) :
    Follows con (call :: later) next :=
  Follows.trans (.calls call before rfl) second

theorem follows_puts (con : Console) (curTerminal curProcessLocal : Int)
    (keyboardPrint : Bool) (text : List Byte) :
    Follows con (con.putcCalls curTerminal curProcessLocal keyboardPrint text)
      (text.foldl (fun con c => con.putc curTerminal curProcessLocal c keyboardPrint)
        con) := by
  induction text generalizing con with
  | nil => exact .quiet rfl
  | cons c rest induction => exact .cons _ rfl (induction _)

theorem follows_terminalWrite (con : Console) (curTerminal curProcessLocal : Int)
    (input : List Byte) :
    Follows con (con.terminalWriteCalls curTerminal curProcessLocal input)
      (con.terminalWrite curTerminal curProcessLocal input) := by
  have printed := con.follows_puts curTerminal curProcessLocal false
    (input.map fun c => if c = tab then space else c)
  rw [List.foldl_map] at printed
  exact printed

@[simp] theorem cleared_vram (con : Console) (curTerminal : Int) :
    (con.cleared curTerminal).vram = clearDisplay con.vram := by
  simp only [cleared, updateCursor]

@[simp] theorem cleared_screenX (con : Console) (curTerminal : Int) :
    (con.cleared curTerminal).screenX = assign con.screenX (curTerminal - 1) 0 := by
  simp only [cleared, updateCursor]

@[simp] theorem cleared_screenY (con : Console) (curTerminal : Int) :
    (con.cleared curTerminal).screenY = assign con.screenY (curTerminal - 1) 0 := by
  simp only [cleared, updateCursor]

theorem clear_eq (con : Console) (curTerminal curProcessLocal processId : Int) :
    con.clear curTerminal curProcessLocal processId =
      if processId = 1 ∨ processId = 2 ∨ processId = 3 then
        prompt.foldl (fun con c => con.putc curTerminal curProcessLocal c true)
          (con.cleared curTerminal)
      else con.cleared curTerminal := by
  simp only [clear, cleared]

theorem follows_clear (con : Console) (curTerminal curProcessLocal processId : Int) :
    Follows con (con.clearCalls curTerminal curProcessLocal processId)
      (con.clear curTerminal curProcessLocal processId) := by
  have first : Follows con [] (con.cleared curTerminal) :=
    .clears (con.cleared_vram curTerminal)
  rw [clear_eq, clearCalls]
  split
  · exact first.trans (follows_puts _ curTerminal curProcessLocal true prompt)
  · exact first

theorem putc_text (con : Console) (curTerminal curProcessLocal : Int) {c : Byte}
    (isText : ¬(c = newline ∨ c = carriageReturn)) :
    (con.putc curTerminal curProcessLocal c true).screenX (curTerminal - 1) =
        (con.screenX (curTerminal - 1) + 1).tmod numCols ∧
      (con.putc curTerminal curProcessLocal c true).screenY (curTerminal - 1) =
        con.screenY (curTerminal - 1) +
          ((con.screenX (curTerminal - 1) + 1).tmod numCols).tdiv numCols := by
  simp only [putc, or_true, if_true, putcDisplay, if_neg isText, updateCursor,
    assign_self, and_self]

theorem puts_text (con : Console) (curTerminal curProcessLocal : Int) (text : List Byte)
    (plain : ∀ c ∈ text, ¬(c = newline ∨ c = carriageReturn))
    (low : 0 ≤ con.screenX (curTerminal - 1))
    (room : con.screenX (curTerminal - 1) + text.length < 80) :
    (text.foldl (fun con c => con.putc curTerminal curProcessLocal c true) con).screenX
          (curTerminal - 1) = con.screenX (curTerminal - 1) + text.length ∧
      (text.foldl (fun con c => con.putc curTerminal curProcessLocal c true) con).screenY
          (curTerminal - 1) = con.screenY (curTerminal - 1) := by
  induction text generalizing con with
  | nil => simp
  | cons c rest induction =>
      rw [List.forall_mem_cons] at plain
      rw [List.length_cons] at room ⊢
      obtain ⟨x, y⟩ := con.putc_text curTerminal curProcessLocal plain.1
      have column : (con.screenX (curTerminal - 1) + 1).tmod numCols =
          con.screenX (curTerminal - 1) + 1 :=
        Int.tmod_eq_of_lt (by omega) (by simp only [numCols]; omega)
      have sameRow : (con.screenX (curTerminal - 1) + 1).tdiv numCols = 0 :=
        Int.tdiv_eq_zero_of_lt (by omega) (by simp only [numCols]; omega)
      rw [column] at x y
      rw [sameRow, add_zero] at y
      obtain ⟨lastX, lastY⟩ := induction
        (con.putc curTerminal curProcessLocal c true) plain.2 (by omega) (by omega)
      rw [List.foldl_cons, lastX, lastY, x, y]
      exact ⟨by omega, rfl⟩

theorem putc_newline (con : Console) (curTerminal curProcessLocal : Int) {c : Byte}
    (isNewline : c = newline ∨ c = carriageReturn) :
    (con.putc curTerminal curProcessLocal c true).screenX (curTerminal - 1) = 0 ∧
      (con.putc curTerminal curProcessLocal c true).screenY (curTerminal - 1) =
        if con.screenY (curTerminal - 1) + 1 ≥ 25 then numRows - 1
        else con.screenY (curTerminal - 1) + 1 := by
  simp only [putc, or_true, if_true, putcDisplay, if_pos isNewline, updateCursor,
    assign_self]
  split <;> simp

theorem putc_others (con : Console) (curTerminal curProcessLocal : Int) (c : Byte)
    {other : Int} (different : other ≠ curTerminal - 1) :
    (con.putc curTerminal curProcessLocal c true).screenX other = con.screenX other ∧
      (con.putc curTerminal curProcessLocal c true).screenY other = con.screenY other := by
  simp only [putc, or_true, if_true, putcDisplay, updateCursor]
  split
  · simp only [assign_self]
    split <;> simp [different]
  · simp [different]

theorem puts_others (con : Console) (curTerminal curProcessLocal : Int)
    (text : List Byte) {other : Int} (different : other ≠ curTerminal - 1) :
    (text.foldl (fun con c => con.putc curTerminal curProcessLocal c true) con).screenX
          other = con.screenX other ∧
      (text.foldl (fun con c => con.putc curTerminal curProcessLocal c true) con).screenY
          other = con.screenY other := by
  induction text generalizing con with
  | nil => exact ⟨rfl, rfl⟩
  | cons c rest induction =>
      obtain ⟨x, y⟩ := con.putc_others curTerminal curProcessLocal c different
      obtain ⟨restX, restY⟩ := induction (con.putc curTerminal curProcessLocal c true)
      exact ⟨restX.trans x, restY.trans y⟩

theorem clear_others (con : Console) (curTerminal curProcessLocal processId : Int)
    {other : Int} (different : other ≠ curTerminal - 1) :
    (con.clear curTerminal curProcessLocal processId).screenX other = con.screenX other ∧
      (con.clear curTerminal curProcessLocal processId).screenY other =
        con.screenY other := by
  have x : (con.cleared curTerminal).screenX other = con.screenX other := by
    rw [cleared_screenX, assign_of_ne different]
  have y : (con.cleared curTerminal).screenY other = con.screenY other := by
    rw [cleared_screenY, assign_of_ne different]
  obtain ⟨putsX, putsY⟩ :=
    (con.cleared curTerminal).puts_others curTerminal curProcessLocal prompt different
  rw [clear_eq]
  split
  · exact ⟨putsX.trans x, putsY.trans y⟩
  · exact ⟨x, y⟩

end Console

namespace Tty

/-- The call of `putc_keyboard`. -/
def echo (t : Tty) (who : Interrupted) (c : Byte) : PutcCall :=
  ⟨t.toConsole, t.curTerminal, who.curProcessLocal, c, true⟩

def enterCalls (t : Tty) (who : Interrupted) (scanCode : Byte) : List PutcCall :=
  if scanCode = ScanCode.enter then [t.echo who newline] else []

def wrapCalls (t : Tty) (who : Interrupted) : List PutcCall :=
  if t.index = maxLine ∧ t.index + 1 < bufferSize then [t.echo who newline] else []

def clearKeyCalls (t : Tty) (who : Interrupted) (scanCode : Byte) : List PutcCall :=
  if t.ctrlFlag ∧ scanCode = ScanCode.l then
    t.toConsole.clearCalls t.curTerminal who.curProcessLocal who.processId
  else []

def tabStoreCalls (t : Tty) (who : Interrupted) : List PutcCall :=
  if t.index + 2 < bufferSize then [t.echo who space] else []

def tabCalls (t : Tty) (who : Interrupted) (scanCode : Byte) : List PutcCall :=
  if scanCode = ScanCode.tab ∧ t.index + tabSpace < bufferSize ∧
      t.screenX t.row + tabSpace < maxLine then
    let second := t.tabStore who
    let third := second.tabStore who
    let fourth := third.tabStore who
    t.tabStoreCalls who ++ second.tabStoreCalls who ++ third.tabStoreCalls who ++
      fourth.tabStoreCalls who
  else []

def eraseNewlineCalls (t : Tty) (who : Interrupted) : List PutcCall :=
  let t := t.store (t.index - 1) nul
  let t := t.store (t.index - 2) nul
  let t := { t with screenY := assign t.screenY t.row (t.screenY t.row - 1) }
  let t := { t with screenX := assign t.screenX t.row (maxLine - 1) }
  [t.echo who (t.load (t.index - 2))]

def eraseCharCalls (t : Tty) (who : Interrupted) : List PutcCall :=
  let t := (t.store (t.index - 1) nul).retreat
  [t.echo who (t.load (t.index - 1))]

def backspaceCalls (t : Tty) (who : Interrupted) (scanCode : Byte) : List PutcCall :=
  if t.index > 0 ∧ t.index ≤ bufferSize - 1 ∧ scanCode = ScanCode.backspace then
    let tested := if t.newlineFlag then t.touch (t.index - 1) else t
    if t.newlineFlag ∧ t.load (t.index - 1) = newline then
      tested.eraseNewlineCalls who
    else
      let tested := tested.touch (t.index - 1)
      if t.load (t.index - 1) = tab then
        let second := tested.eraseChar who
        let third := second.eraseChar who
        let fourth := third.eraseChar who
        tested.eraseCharCalls who ++ second.eraseCharCalls who ++
          third.eraseCharCalls who ++ fourth.eraseCharCalls who
      else tested.eraseCharCalls who
  else []

def charCalls (t : Tty) (who : Interrupted) (scanCode : Byte) : List PutcCall :=
  if t.acceptsChar scanCode then
    let t := t.store t.index (t.charOf scanCode)
    [t.echo who (t.load t.index)]
  else []

/-- The calls `keyboard_handler` makes for a scan code. -/
def keyCalls (t : Tty) (who : Interrupted) (scanCode : Byte) : List PutcCall :=
  let modified := t.modifierKeys scanCode
  let entered := modified.enterKey who scanCode
  let wrapped := entered.wrapLine who
  let cleared := wrapped.clearKey who scanCode
  let tabbed := cleared.tabKey who scanCode
  let erased := tabbed.backspaceKey who scanCode
  modified.enterCalls who scanCode ++ entered.wrapCalls who ++
    wrapped.clearKeyCalls who scanCode ++ cleared.tabCalls who scanCode ++
    tabbed.backspaceCalls who scanCode ++ erased.placeCursor.charCalls who scanCode

section Follows

variable {t : Tty} (who : Interrupted) (scanCode : Byte)

def Follows (t : Tty) (calls : List PutcCall) (u : Tty) : Prop :=
  Console.Follows t.toConsole calls u.toConsole

theorem Follows.trans {u v : Tty} {calls later : List PutcCall}
    (first : Follows t calls u) (second : Follows u later v) :
    Follows t (calls ++ later) v := Console.Follows.trans first second

theorem Follows.after {u v : Tty} {calls : List PutcCall} (first : Follows t calls u)
    (same : v.vram = u.vram) : Follows t calls v := by
  have second : Follows u [] v := .quiet same
  simpa using first.trans second

theorem Follows.placeCursor {u : Tty} {calls : List PutcCall} (first : Follows t calls u) :
    Follows t calls u.placeCursor := first.after rfl

theorem follows_enterKey (t : Tty) :
    Follows t (t.enterCalls who scanCode) (t.enterKey who scanCode) := by
  unfold Tty.enterCalls Tty.enterKey
  split
  · exact .calls _ rfl rfl
  · exact .quiet rfl

theorem follows_wrapLine (t : Tty) : Follows t (t.wrapCalls who) (t.wrapLine who) := by
  unfold Tty.wrapCalls Tty.wrapLine
  split
  · exact .calls _ rfl rfl
  · exact .quiet rfl

theorem clearKey_toConsole (t : Tty) :
    (t.clearKey who scanCode).toConsole =
      if t.ctrlFlag ∧ scanCode = ScanCode.l then
        t.toConsole.clear t.curTerminal who.curProcessLocal who.processId
      else t.toConsole := by
  obtain ⟨buffer, accesses, stored⟩ := stores_eq (List.range 127) nul t
  simp only [Tty.clearKey, stored]
  split
  · rfl
  · rfl

theorem follows_clearKey (t : Tty) :
    Follows t (t.clearKeyCalls who scanCode) (t.clearKey who scanCode) := by
  rw [Follows, clearKey_toConsole, clearKeyCalls]
  split
  · exact Console.follows_clear _ _ _ _
  · exact .quiet rfl

theorem follows_tabStore (t : Tty) :
    Follows t (t.tabStoreCalls who) (t.tabStore who) := by
  unfold Tty.tabStoreCalls Tty.tabStore
  split
  · exact .calls _ rfl rfl
  · exact .quiet rfl

theorem follows_tabKey (t : Tty) :
    Follows t (t.tabCalls who scanCode) (t.tabKey who scanCode) := by
  unfold Tty.tabCalls Tty.tabKey
  split
  · have second := (follows_tabStore who t).trans (follows_tabStore who _)
    have third := second.trans (follows_tabStore who _)
    exact third.trans (follows_tabStore who _)
  · exact .quiet rfl

theorem follows_eraseNewline (t : Tty) :
    Follows t (t.eraseNewlineCalls who) (t.eraseNewline who) :=
  .calls _ rfl rfl

theorem follows_eraseChar (t : Tty) :
    Follows t (t.eraseCharCalls who) (t.eraseChar who) := by
  unfold Tty.eraseCharCalls Tty.eraseChar
  dsimp only
  split <;> exact .calls _ rfl rfl

theorem follows_backspaceKey (t : Tty) :
    Follows t (t.backspaceCalls who scanCode) (t.backspaceKey who scanCode) := by
  unfold Tty.backspaceCalls Tty.backspaceKey
  split
  case isFalse => exact .quiet rfl
  case isTrue =>
    have tested : Follows t [] (if t.newlineFlag then t.touch (t.index - 1) else t) := by
      split <;> exact .quiet rfl
    revert tested
    generalize (if t.newlineFlag then t.touch (t.index - 1) else t) = u
    intro tested
    dsimp only
    split
    · exact tested.trans (follows_eraseNewline who u)
    · have touched : Follows t [] (u.touch (t.index - 1)) := tested.after rfl
      split
      · have first := touched.trans (follows_eraseChar who _)
        have second := first.trans (follows_eraseChar who _)
        have third := second.trans (follows_eraseChar who _)
        exact third.trans (follows_eraseChar who _)
      · exact touched.trans (follows_eraseChar who _)

theorem follows_charKey (t : Tty) :
    Follows t (t.charCalls who scanCode) (t.charKey who scanCode) := by
  unfold Tty.charCalls Tty.charKey
  split
  · exact .calls _ rfl rfl
  · exact .quiet rfl

/-- The pages change only by the calls listed and by clearing the display. -/
theorem follows_keyBlocks (t : Tty) :
    Follows t (t.keyCalls who scanCode) (t.keyBlocks who scanCode) := by
  have modified : Follows t [] (t.modifierKeys scanCode) := .quiet rfl
  have entered := modified.trans (follows_enterKey who scanCode _)
  have wrapped := entered.trans (follows_wrapLine who _)
  have cleared := wrapped.trans (follows_clearKey who scanCode _)
  have tabbed := cleared.trans (follows_tabKey who scanCode _)
  have erased := tabbed.trans (follows_backspaceKey who scanCode _)
  exact erased.placeCursor.trans (follows_charKey who scanCode _)

end Follows

theorem keyPress_cursors (t : Tty) (who : Interrupted) (scanCode : Byte) :
    (t.keyPress who scanCode).screenX = (t.keyBlocks who scanCode).screenX ∧
      (t.keyPress who scanCode).screenY = (t.keyBlocks who scanCode).screenY := by
  rw [Tty.keyPress]
  cases (t.keyBlocks who scanCode).selectedTerminal scanCode with
  | none => exact ⟨rfl, rfl⟩
  | some selected => exact ⟨rfl, rfl⟩

end Tty

end LightweightOs
