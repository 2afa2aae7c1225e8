import LightweightOs.PutcCalls
import LightweightOs.KeyboardBounds

/-!
# Bounds of the cursors

A run of the driver takes scan codes and calls of `terminal_write` for any
terminal in any order.  Everything but Backspace keeps the cursors on their
screens; Backspace moves the cursor by hand from what the keyboard buffer holds,
and leaves the screen when output has moved the cursor in the meantime.
-/

namespace LightweightOs

open Transition

/-- The cursors of the three terminals are on their screens. -/
def Console.CursorsInBounds (con : Console) : Prop :=
  ∀ terminal, 1 ≤ terminal → terminal ≤ 3 →
    (0 ≤ con.screenX (terminal - 1) ∧ con.screenX (terminal - 1) < 80) ∧
      (0 ≤ con.screenY (terminal - 1) ∧ con.screenY (terminal - 1) < 25)

inductive ScreenEvent where
  | key (who : Interrupted) (scanCode : Byte)
  | write (curProcessLocal : Int) (input : List Byte)

namespace Tty

def screenPerform (t : Tty) : ScreenEvent → Tty
  | .key who scanCode => t.keyPress who scanCode
  | .write curProcessLocal input =>
      { t with
        toConsole := t.toConsole.terminalWrite t.curTerminal curProcessLocal input }

/-- A process belongs to one of the three terminals. -/
def ScreenAllows : ScreenEvent → Prop
  | .key _ _ => True
  | .write curProcessLocal _ => 1 ≤ curProcessLocal ∧ curProcessLocal ≤ 3

/-- The calls of `putc` an event makes. -/
def screenCalls (t : Tty) : ScreenEvent → List PutcCall
  | .key who scanCode => t.keyCalls who scanCode
  | .write curProcessLocal input =>
      t.toConsole.terminalWriteCalls t.curTerminal curProcessLocal input

/-- What Backspace erases lies before the cursor: a place on the row above for the
automatic newline, four places for a tab, and one place otherwise. -/
def EraseFits (t : Tty) : Prop :=
  if t.newlineFlag ∧ t.load (t.index - 1) = newline then 1 ≤ t.screenY t.row
  else if t.load (t.index - 1) = tab then 4 ≤ t.screenX t.row
  else 1 ≤ t.screenX t.row

/-- Backspace erases nothing, or it first adds the automatic newline, or what it
erases fits. -/
def SafeErase (t : Tty) : Prop :=
  t.index = 0 ∨ t.index = maxLine ∨ t.EraseFits

instance (event : ScreenEvent) : Decidable (ScreenAllows event) :=
  match event with
  | .key _ _ => inferInstanceAs (Decidable True)
  | .write _ _ => inferInstanceAs (Decidable (_ ∧ _))

instance (t : Tty) : Decidable t.EraseFits := by
  unfold EraseFits
  infer_instance

instance (t : Tty) : Decidable t.SafeErase := inferInstanceAs (Decidable (_ ∨ _ ∨ _))

end Tty

structure ScreenRecord where
  before : Tty
  event : ScreenEvent
  after : Tty

structure ScreenStep (t : Tty) (record : ScreenRecord) (u : Tty) : Prop where
  before : record.before = t
  after : record.after = u
  allowed : Tty.ScreenAllows record.event
  performed : u = t.screenPerform record.event

namespace ScreenRecord

/-- After the event the cursors are on their screens, and no character was
stored outside one. -/
structure InBounds (record : ScreenRecord) : Prop where
  cursors : record.after.CursorsInBounds
  cells : ∀ call ∈ record.before.screenCalls record.event, call.Inside

def Careful (record : ScreenRecord) : Prop :=
  match record.event with
  | .key _ scanCode => scanCode = ScanCode.backspace → record.before.SafeErase
  | .write _ _ => True

instance (record : ScreenRecord) : Decidable record.Careful :=
  match record with
  | ⟨_, .key _ _, _⟩ => inferInstanceAs (Decidable (_ → _))
  | ⟨_, .write _ _, _⟩ => inferInstanceAs (Decidable True)

end ScreenRecord

namespace Console

variable {con : Console}

theorem CursorsInBounds.logical (bounds : con.CursorsInBounds) (curTerminal : Int)
    {terminal : Int} (low : 1 ≤ terminal) (high : terminal ≤ 3) :
    (con.logical curTerminal terminal).InBounds := by
  obtain ⟨⟨left, right⟩, top, bottom⟩ := bounds terminal low high
  exact ⟨left, right, top, bottom⟩

theorem CursorsInBounds.inside {call : PutcCall} (bounds : call.con.CursorsInBounds)
    (low : 1 ≤ call.terminal) (high : call.terminal ≤ 3) : call.Inside := by
  intro address isCell
  obtain ⟨⟨left, right⟩, top, bottom⟩ := bounds call.terminal low high
  simp only [PutcCall.cell] at isCell
  split at isCell
  · cases isCell
  · cases isCell
    simp only [cellAddr, numCols]
    omega

theorem CursorsInBounds.result {call : PutcCall} (bounds : call.con.CursorsInBounds)
    (low : 1 ≤ call.terminal) (high : call.terminal ≤ 3) :
    call.result.CursorsInBounds := by
  intro terminal atLeast atMost
  have prints := call.con.prints_putc call.curTerminal call.curProcessLocal call.c
    call.keyboardPrint rfl (bounds.logical call.curTerminal low high)
  by_cases own : terminal = call.terminal
  · subst own
    have inside := prints.printed.inBounds
      ((bounds.logical call.curTerminal low high).puts [call.c])
    exact ⟨⟨inside.left, inside.right⟩, inside.top, inside.bottom⟩
  · have different : terminal - 1 ≠ call.terminal - 1 := by omega
    obtain ⟨x, y⟩ := prints.cursors (terminal - 1) different
    rw [PutcCall.result, x, y]
    exact bounds terminal atLeast atMost

theorem CursorsInBounds.cleared (bounds : con.CursorsInBounds) (curTerminal : Int) :
    (con.cleared curTerminal).CursorsInBounds := by
  intro terminal low high
  rw [cleared_screenX, cleared_screenY]
  by_cases own : terminal - 1 = curTerminal - 1
  · rw [own, assign_self, assign_self]
    decide
  · rw [assign_of_ne own, assign_of_ne own]
    exact bounds terminal low high

theorem CursorsInBounds.puts (bounds : con.CursorsInBounds)
    {curTerminal curProcessLocal : Int} {keyboardPrint : Bool} {terminal : Int}
    (isTerminal : (if keyboardPrint then curTerminal else curProcessLocal) = terminal)
    (low : 1 ≤ terminal) (high : terminal ≤ 3) (text : List Byte) :
    (text.foldl (fun con c => con.putc curTerminal curProcessLocal c keyboardPrint)
        con).CursorsInBounds ∧
      ∀ call ∈ con.putcCalls curTerminal curProcessLocal keyboardPrint text,
        call.Inside := by
  induction text generalizing con with
  | nil => exact ⟨bounds, by simp [putcCalls]⟩
  | cons c rest induction =>
      have own : (⟨con, curTerminal, curProcessLocal, c, keyboardPrint⟩ :
          PutcCall).terminal = terminal := isTerminal
      obtain ⟨after, later⟩ := induction (@CursorsInBounds.result
        ⟨con, curTerminal, curProcessLocal, c, keyboardPrint⟩ bounds
        (own ▸ low) (own ▸ high))
      refine ⟨after, ?_⟩
      simp only [putcCalls, List.forall_mem_cons]
      exact ⟨CursorsInBounds.inside bounds (own ▸ low) (own ▸ high), later⟩

end Console

namespace Tty

variable {t u v : Tty} (who : Interrupted) (scanCode : Byte)

structure OnScreen (t : Tty) : Prop where
  displayed : 1 ≤ t.curTerminal ∧ t.curTerminal ≤ 3
  bounds : t.CursorsInBounds

/-- A block that ended with the cursors on their screens and made these calls,
all of them inside. -/
structure Contained (u : Tty) (calls : List PutcCall) : Prop where
  onScreen : u.OnScreen
  inside : ∀ call ∈ calls, call.Inside

theorem OnScreen.contained (on : t.OnScreen) : t.Contained [] := ⟨on, by simp⟩

theorem Contained.trans {calls later : List PutcCall} (first : t.Contained calls)
    (second : u.Contained later) : u.Contained (calls ++ later) := by
  refine ⟨second.onScreen, ?_⟩
  rw [List.forall_mem_append]
  exact ⟨first.inside, second.inside⟩

theorem OnScreen.echo (on : t.OnScreen) (c : Byte) :
    (t.putcKeyboard who c).Contained [t.echo who c] := by
  obtain ⟨low, high⟩ := on.displayed
  have own : (t.echo who c).terminal = t.curTerminal := rfl
  have after := @Console.CursorsInBounds.result (t.echo who c) on.bounds (own ▸ low)
    (own ▸ high)
  have inside := @Console.CursorsInBounds.inside (t.echo who c) on.bounds (own ▸ low)
    (own ▸ high)
  refine ⟨⟨on.displayed, after⟩, ?_⟩
  rw [List.forall_mem_singleton]
  exact inside

theorem OnScreen.cursor (on : t.OnScreen) :
    (0 ≤ t.screenX t.row ∧ t.screenX t.row < 80) ∧
      (0 ≤ t.screenY t.row ∧ t.screenY t.row < 25) :=
  on.bounds t.curTerminal on.displayed.1 on.displayed.2

theorem OnScreen.place (on : t.OnScreen) (isTerminal : u.curTerminal = t.curTerminal)
    (x : ∀ row, row ≠ t.row → u.screenX row = t.screenX row)
    (y : ∀ row, row ≠ t.row → u.screenY row = t.screenY row)
    (column : 0 ≤ u.screenX t.row ∧ u.screenX t.row < 80)
    (line : 0 ≤ u.screenY t.row ∧ u.screenY t.row < 25) : u.OnScreen := by
  refine ⟨isTerminal ▸ on.displayed, ?_⟩
  intro terminal low high
  by_cases own : terminal - 1 = t.row
  · rw [own]
    exact ⟨column, line⟩
  · rw [x _ own, y _ own]
    exact on.bounds terminal low high

theorem OnScreen.enterKey (on : t.OnScreen) :
    (t.enterKey who scanCode).Contained (t.enterCalls who scanCode) := by
  have printed := on.echo who newline
  unfold Tty.enterKey Tty.enterCalls
  split
  · exact ⟨⟨on.displayed, printed.onScreen.bounds⟩, printed.inside⟩
  · exact on.contained

theorem OnScreen.wrapLine (on : t.OnScreen) :
    (t.wrapLine who).Contained (t.wrapCalls who) := by
  have printed := on.echo who newline
  unfold Tty.wrapLine Tty.wrapCalls
  split
  · exact ⟨⟨on.displayed, printed.onScreen.bounds⟩, printed.inside⟩
  · exact on.contained

theorem OnScreen.clearKey (on : t.OnScreen) :
    (t.clearKey who scanCode).Contained (t.clearKeyCalls who scanCode) := by
  obtain ⟨low, high⟩ := on.displayed
  have sameTerminal := (SameControls.clearKey who scanCode t).curTerminal
  have cleared := on.bounds.cleared t.curTerminal
  have printed := @Console.CursorsInBounds.puts _ cleared t.curTerminal
    who.curProcessLocal true _ rfl low high Console.prompt
  refine ⟨⟨sameTerminal ▸ on.displayed, ?_⟩, ?_⟩
  · rw [clearKey_toConsole, Console.clear_eq]
    split_ifs
    · exact printed.1
    · exact cleared
    · exact on.bounds
  · rw [clearKeyCalls, Console.clearCalls]
    split_ifs
    · exact printed.2
    · simp
    · simp

theorem OnScreen.tabStore (on : t.OnScreen) :
    (t.tabStore who).Contained (t.tabStoreCalls who) := by
  have printed := on.echo who space
  unfold Tty.tabStore Tty.tabStoreCalls
  split
  · exact ⟨⟨on.displayed, printed.onScreen.bounds⟩, printed.inside⟩
  · exact on.contained

theorem OnScreen.tabKey (on : t.OnScreen) :
    (t.tabKey who scanCode).Contained (t.tabCalls who scanCode) := by
  unfold Tty.tabKey Tty.tabCalls
  split
  · have first := on.tabStore who
    have second := first.onScreen.tabStore who
    have third := second.onScreen.tabStore who
    have fourth := third.onScreen.tabStore who
    exact ((first.trans second).trans third).trans fourth
  · exact on.contained

theorem OnScreen.charKey (on : t.OnScreen) :
    (t.charKey who scanCode).Contained (t.charCalls who scanCode) := by
  unfold Tty.charKey Tty.charCalls
  split
  · have printed := on.echo who ((t.store t.index (t.charOf scanCode)).load t.index)
    exact ⟨⟨on.displayed, printed.onScreen.bounds⟩, printed.inside⟩
  · exact on.contained

theorem putcKeyboard_cursor {c : Byte} (isText : ¬(c = newline ∨ c = carriageReturn)) :
    (t.putcKeyboard who c).screenX t.row = (t.screenX t.row + 1).tmod numCols ∧
      (t.putcKeyboard who c).screenY t.row =
        t.screenY t.row + ((t.screenX t.row + 1).tmod numCols).tdiv numCols :=
  t.toConsole.putc_text t.curTerminal who.curProcessLocal isText

theorem putcKeyboard_others {c : Byte} {other : Int} (different : other ≠ t.row) :
    (t.putcKeyboard who c).screenX other = t.screenX other ∧
      (t.putcKeyboard who c).screenY other = t.screenY other :=
  t.toConsole.putc_others t.curTerminal who.curProcessLocal c different

theorem eraseChar_eq (positive : 0 < t.index) :
    t.eraseChar who =
      (((t.store (t.index - 1) nul).retreat.touch (t.index - 1)).putcKeyboard who
        nul).retreat.setIndex (t.index - 1) := by
  have loaded : (t.store (t.index - 1) nul).retreat.load (t.index - 1) = nul :=
    store_line_self t (t.index - 1) nul
  simp only [Tty.eraseChar, retreat_index, store_index, loaded, putcKeyboard_index,
    touch_index, gt_iff_lt, positive, if_true]

theorem tmod_numCols {x : Int} (left : -80 < x) (right : x < 80) : x.tmod numCols = x := by
  simp only [numCols]
  rcases lt_or_ge x 0 with negative | nonneg
  · have reflected := Int.neg_tmod (-x) 80
    rw [Int.neg_neg] at reflected
    rw [reflected, Int.tmod_eq_of_lt (by omega) (by omega), Int.neg_neg]
  · exact Int.tmod_eq_of_lt nonneg right

theorem retreat_x (t : Tty) : t.retreat.screenX t.row = t.screenX t.row - 1 :=
  assign_self _ _ _

/-- So many characters have been erased, one after the other. -/
structure Erased (t u : Tty) (count : Int) : Prop where
  curTerminal : u.curTerminal = t.curTerminal
  index : u.index = t.index - count
  x : u.screenX t.row = t.screenX t.row - count

theorem erased_eraseChar (positive : 0 < t.index) (left : -80 < t.screenX t.row)
    (right : t.screenX t.row < 80) : Erased t (t.eraseChar who) 1 := by
  rw [eraseChar_eq who positive]
  constructor
  case curTerminal => rfl
  case index => exact setIndex_index _ _
  case x =>
    have printed := (@putcKeyboard_cursor ((t.store (t.index - 1) nul).retreat.touch
      (t.index - 1)) who nul (by decide)).1
    have moved : ((t.store (t.index - 1) nul).retreat.touch (t.index - 1)).screenX t.row =
        t.screenX t.row - 1 := retreat_x _
    simp only [touch_row, retreat_row, store_row] at printed
    rw [moved, Int.sub_add_cancel, tmod_numCols left right] at printed
    have retreated := retreat_x (((t.store (t.index - 1) nul).retreat.touch
      (t.index - 1)).putcKeyboard who nul)
    simp only [putcKeyboard_row, touch_row, retreat_row, store_row, printed] at retreated
    exact retreated

theorem Erased.more {count : Int} (erased : Erased t u count)
    (positive : count < t.index) (range : -80 < t.screenX t.row - count)
    (right : t.screenX t.row - count < 80) :
    Erased t (u.eraseChar who) (count + 1) := by
  have sameRow : u.row = t.row := by simp only [row, erased.curTerminal]
  have next := @erased_eraseChar u who (by rw [erased.index]; omega)
    (by rw [sameRow, erased.x]; exact range) (by rw [sameRow, erased.x]; exact right)
  constructor
  case curTerminal => exact next.curTerminal.trans erased.curTerminal
  case index =>
    rw [next.index, erased.index]
    omega
  case x =>
    have moved := next.x
    rw [sameRow, erased.x] at moved
    omega

theorem OnScreen.retreat (on : t.OnScreen) (room : 1 ≤ t.screenX t.row) :
    t.retreat.OnScreen := by
  obtain ⟨⟨_, right⟩, line⟩ := on.cursor
  have moved := retreat_x t
  apply on.place (show t.retreat.curTerminal = t.curTerminal from rfl)
  · exact fun row different => assign_of_ne different _ _
  · exact fun _ _ => rfl
  · omega
  · exact line

/-- Erasing stays on the screen when there is a place before the cursor. -/
theorem OnScreen.eraseChar (on : t.OnScreen) (positive : 0 < t.index)
    (room : 1 ≤ t.screenX t.row) :
    (t.eraseChar who).Contained (t.eraseCharCalls who) := by
  obtain ⟨⟨_, right⟩, _⟩ := on.cursor
  have stored : (t.store (t.index - 1) nul).OnScreen := ⟨on.displayed, on.bounds⟩
  have before := stored.retreat room
  have printed := before.echo who ((t.store (t.index - 1) nul).retreat.load
    ((t.store (t.index - 1) nul).retreat.index - 1))
  have nulPrinted := (before.echo who nul).onScreen
  have column := (@putcKeyboard_cursor (t.store (t.index - 1) nul).retreat who nul
    (by decide)).1
  have moved : (t.store (t.index - 1) nul).retreat.screenX t.row = t.screenX t.row - 1 :=
    retreat_x _
  simp only [retreat_row, store_row] at column
  rw [moved, Int.sub_add_cancel, tmod_numCols (by omega) right] at column
  have after := nulPrinted.retreat (by
    simp only [putcKeyboard_row, retreat_row, store_row, column]
    exact room)
  rw [eraseChar_eq who positive]
  exact ⟨⟨after.displayed, after.bounds⟩, printed.inside⟩

theorem erased_tab (length : 4 ≤ t.index) (on : t.OnScreen) :
    Erased t ((((t.eraseChar who).eraseChar who).eraseChar who).eraseChar who) 4 := by
  obtain ⟨⟨left, right⟩, _⟩ := on.cursor
  have first := erased_eraseChar who (show 0 < t.index by omega) (by omega) right
  have second := first.more who (by omega) (by omega) (by omega)
  have third := second.more who (by omega) (by omega) (by omega)
  exact third.more who (by omega) (by omega) (by omega)

theorem OnScreen.eraseTab (on : t.OnScreen) (length : 4 ≤ t.index)
    (room : 4 ≤ t.screenX t.row) :
    ((((t.eraseChar who).eraseChar who).eraseChar who).eraseChar who).Contained
      (t.eraseCharCalls who ++ (t.eraseChar who).eraseCharCalls who ++
        ((t.eraseChar who).eraseChar who).eraseCharCalls who ++
        (((t.eraseChar who).eraseChar who).eraseChar who).eraseCharCalls who) := by
  obtain ⟨⟨left, right⟩, _⟩ := on.cursor
  have again : ∀ {u : Tty} {count : Int} {calls : List PutcCall}, Erased t u count →
      u.Contained calls → count < 4 →
      (u.eraseChar who).Contained (calls ++ u.eraseCharCalls who) := by
    intro u count calls erased contained few
    have sameRow : u.row = t.row := by simp only [row, erased.curTerminal]
    apply contained.trans
    apply contained.onScreen.eraseChar
    · rw [erased.index]
      omega
    · rw [sameRow, erased.x]
      omega
  have first := erased_eraseChar who (show 0 < t.index by omega) (by omega) right
  have second := first.more who (by omega) (by omega) (by omega)
  have third := second.more who (by omega) (by omega) (by omega)
  have one := on.eraseChar who (by omega) (by omega)
  have two := again first one (by omega)
  have three := again second two (by omega)
  exact again third three (by omega)

/-- The place the character before the newline is erased at. -/
def beforeNewline (t : Tty) : Tty :=
  { (t.store (t.index - 1) nul).store (t.index - 2) nul with
    screenY := assign t.screenY t.row (t.screenY t.row - 1)
    screenX := assign t.screenX t.row (maxLine - 1) }

def newlinePrinted (t : Tty) : Tty :=
  (t.beforeNewline.touch (t.index - 2)).putcKeyboard who
    (t.beforeNewline.load (t.index - 2))

theorem eraseNewline_screenX (t : Tty) :
    (t.eraseNewline who).screenX =
      assign (t.newlinePrinted who).screenX t.row (maxLine - 1) := by
  simp only [Tty.eraseNewline, newlinePrinted, putcKeyboard]
  -- what `putc` does plays no part
  generalize Console.putc = putc
  rfl

theorem eraseNewline_screenY (t : Tty) :
    (t.eraseNewline who).screenY =
      assign (t.newlinePrinted who).screenY t.row (t.screenY t.row - 1) := by
  simp only [Tty.eraseNewline, newlinePrinted, putcKeyboard, row, assign_self]
  generalize Console.putc = putc
  rfl

theorem eraseNewline_others {other : Int} (different : other ≠ t.row) :
    (t.eraseNewline who).screenX other = t.screenX other ∧
      (t.eraseNewline who).screenY other = t.screenY other := by
  have printed := @putcKeyboard_others (t.beforeNewline.touch (t.index - 2)) who
    (t.beforeNewline.load (t.index - 2)) other different
  have x : t.beforeNewline.screenX other = t.screenX other := assign_of_ne different _ _
  have y : t.beforeNewline.screenY other = t.screenY other := assign_of_ne different _ _
  rw [eraseNewline_screenX, eraseNewline_screenY, assign_of_ne different,
    assign_of_ne different]
  exact ⟨printed.1.trans x, printed.2.trans y⟩

theorem OnScreen.eraseNewline (on : t.OnScreen) (room : 1 ≤ t.screenY t.row) :
    (t.eraseNewline who).Contained (t.eraseNewlineCalls who) := by
  obtain ⟨_, _, bottom⟩ := on.cursor
  have moved : t.beforeNewline.OnScreen := by
    have column : t.beforeNewline.screenX t.row = maxLine - 1 := assign_self _ _ _
    have line : t.beforeNewline.screenY t.row = t.screenY t.row - 1 := assign_self _ _ _
    apply on.place (show t.beforeNewline.curTerminal = t.curTerminal from rfl)
    · exact fun row different => assign_of_ne different _ _
    · exact fun row different => assign_of_ne different _ _
    · rw [column]
      decide
    · omega
  have printed := moved.echo who (t.beforeNewline.load (t.index - 2))
  refine ⟨?_, printed.inside⟩
  apply on.place (SameControls.eraseNewline who t).curTerminal
  · exact fun row different => (eraseNewline_others who different).1
  · exact fun row different => (eraseNewline_others who different).2
  · rw [eraseNewline_screenX, assign_self]
    decide
  · rw [eraseNewline_screenY, assign_self]
    omega

theorem backspaceKey_cases (positive : 0 < t.index) (inside : t.index ≤ bufferSize - 1) :
    ∃ accesses, ∃ u : Tty, u = { t with accesses := accesses } ∧
      t.backspaceKey who ScanCode.backspace =
        (if t.newlineFlag ∧ t.load (t.index - 1) = newline then u.eraseNewline who
        else if t.load (t.index - 1) = tab then
          (((u.eraseChar who).eraseChar who).eraseChar who).eraseChar who
        else u.eraseChar who) ∧
      t.backspaceCalls who ScanCode.backspace =
        if t.newlineFlag ∧ t.load (t.index - 1) = newline then u.eraseNewlineCalls who
        else if t.load (t.index - 1) = tab then
          u.eraseCharCalls who ++ (u.eraseChar who).eraseCharCalls who ++
            ((u.eraseChar who).eraseChar who).eraseCharCalls who ++
            (((u.eraseChar who).eraseChar who).eraseChar who).eraseCharCalls who
        else u.eraseCharCalls who := by
  have pressed : t.index > 0 ∧ t.index ≤ bufferSize - 1 ∧
      ScanCode.backspace = ScanCode.backspace := ⟨positive, inside, rfl⟩
  have tested : ∃ accesses, (if t.newlineFlag then t.touch (t.index - 1) else t) =
      { t with accesses := accesses } := by
    split
    · exact ⟨_, rfl⟩
    · exact ⟨_, rfl⟩
  obtain ⟨accesses, isTested⟩ := tested
  rw [Tty.backspaceKey, if_pos pressed, backspaceCalls, if_pos pressed]
  simp only [isTested]
  by_cases wrapped : t.newlineFlag ∧ t.load (t.index - 1) = newline
  · exact ⟨accesses, _, rfl, by rw [if_pos wrapped, if_pos wrapped],
      by rw [if_pos wrapped, if_pos wrapped]⟩
  · refine ⟨(t.row, t.index - 1) :: accesses, _, rfl, ?_, ?_⟩
    · rw [if_neg wrapped, if_neg wrapped]
      rfl
    · rw [if_neg wrapped, if_neg wrapped]
      rfl

theorem backspaceKey_zero (empty : t.index = 0) :
    t.backspaceKey who scanCode = t ∧ t.backspaceCalls who scanCode = [] := by
  have notPressed : ¬(t.index > 0 ∧ t.index ≤ bufferSize - 1 ∧
      scanCode = ScanCode.backspace) := by omega
  exact ⟨if_neg notPressed, if_neg notPressed⟩

theorem OnScreen.backspaceKey (on : t.OnScreen) (high : t.index ≤ bufferSize - 1)
    (low : 0 ≤ t.index) (tabs : 0 < t.index → t.load (t.index - 1) = tab → 4 ≤ t.index)
    (fits : 0 < t.index → t.EraseFits) :
    (t.backspaceKey who ScanCode.backspace).Contained
      (t.backspaceCalls who ScanCode.backspace) := by
  rcases Int.lt_or_eq_of_le low with positive | empty
  · obtain ⟨accesses, u, isTested, key, calls⟩ := backspaceKey_cases who positive high
    have fits := fits positive
    have onTested : u.OnScreen := by
      rw [isTested]
      exact ⟨on.displayed, on.bounds⟩
    rw [key, calls]
    rw [EraseFits] at fits
    by_cases wrapped : t.newlineFlag ∧ t.load (t.index - 1) = newline
    · rw [if_pos wrapped] at fits
      rw [if_pos wrapped, if_pos wrapped]
      apply onTested.eraseNewline
      rw [isTested]
      exact fits
    · rw [if_neg wrapped] at fits
      rw [if_neg wrapped, if_neg wrapped]
      by_cases isTab : t.load (t.index - 1) = tab
      · rw [if_pos isTab] at fits
        rw [if_pos isTab, if_pos isTab]
        apply onTested.eraseTab
        · rw [isTested]
          exact tabs positive isTab
        · rw [isTested]
          exact fits
      · rw [if_neg isTab] at fits
        rw [if_neg isTab, if_neg isTab]
        apply onTested.eraseChar
        · rw [isTested]
          exact positive
        · rw [isTested]
          exact fits
  · obtain ⟨key, calls⟩ := backspaceKey_zero who ScanCode.backspace empty.symm
    rw [key, calls]
    exact on.contained

theorem OnScreen.eraseFits (on : t.OnScreen) (positive : 0 < t.index)
    (high : t.index ≤ bufferSize - 1) (tabs : t.load (t.index - 1) = tab → 4 ≤ t.index)
    (bounds : (t.backspaceKey who ScanCode.backspace).CursorsInBounds) : t.EraseFits := by
  obtain ⟨accesses, u, isTested, key, _⟩ := backspaceKey_cases who positive high
  obtain ⟨⟨left, right⟩, _⟩ := on.cursor
  have onTested : u.OnScreen := by
    rw [isTested]
    exact ⟨on.displayed, on.bounds⟩
  have sameRow : u.row = t.row := by rw [isTested]; rfl
  have sameX : u.screenX = t.screenX := by rw [isTested]
  have sameY : u.screenY = t.screenY := by rw [isTested]
  have sameIndex : u.index = t.index := by rw [isTested]; rfl
  have shown := bounds t.curTerminal on.displayed.1 on.displayed.2
  change (0 ≤ (t.backspaceKey who ScanCode.backspace).screenX t.row ∧ _) ∧
    (0 ≤ (t.backspaceKey who ScanCode.backspace).screenY t.row ∧ _) at shown
  obtain ⟨⟨column, _⟩, line, _⟩ := shown
  rw [key] at column line
  rw [EraseFits]
  by_cases wrapped : t.newlineFlag ∧ t.load (t.index - 1) = newline
  · rw [if_pos wrapped] at line ⊢
    rw [eraseNewline_screenY, sameRow, assign_self, sameY] at line
    omega
  · rw [if_neg wrapped] at column ⊢
    by_cases isTab : t.load (t.index - 1) = tab
    · rw [if_pos isTab] at column ⊢
      have moved := (erased_tab who (sameIndex ▸ tabs isTab) onTested).x
      rw [sameRow, sameX] at moved
      omega
    · rw [if_neg isTab] at column ⊢
      have moved := (@erased_eraseChar u who (by omega) (by rw [sameRow, sameX]; omega)
        (by rw [sameRow, sameX]; exact right)).x
      rw [sameRow, sameX] at moved
      omega

theorem OnScreen.beforeErase (on : t.OnScreen) :
    (((((t.modifierKeys scanCode).enterKey who scanCode).wrapLine who).clearKey who
      scanCode).tabKey who scanCode).Contained
      ((t.modifierKeys scanCode).enterCalls who scanCode ++
        ((t.modifierKeys scanCode).enterKey who scanCode).wrapCalls who ++
        (((t.modifierKeys scanCode).enterKey who scanCode).wrapLine who).clearKeyCalls who
          scanCode ++
        ((((t.modifierKeys scanCode).enterKey who scanCode).wrapLine who).clearKey who
          scanCode).tabCalls who scanCode) := by
  have modified : (t.modifierKeys scanCode).OnScreen := ⟨on.displayed, on.bounds⟩
  have entered := modified.enterKey who scanCode
  have wrapped := entered.onScreen.wrapLine who
  have cleared := wrapped.onScreen.clearKey who scanCode
  have tabbed := cleared.onScreen.tabKey who scanCode
  exact ((entered.trans wrapped).trans cleared).trans tabbed

theorem OnScreen.keyBlocks (on : t.OnScreen)
    (erases : ∀ u : Tty, u = (((((t.modifierKeys scanCode).enterKey who scanCode).wrapLine
        who).clearKey who scanCode).tabKey who scanCode) → u.OnScreen →
      (u.backspaceKey who scanCode).Contained (u.backspaceCalls who scanCode)) :
    (t.keyBlocks who scanCode).Contained (t.keyCalls who scanCode) := by
  have before := on.beforeErase who scanCode
  have erased := before.trans (erases _ rfl before.onScreen)
  obtain ⟨placed, inside⟩ := erased
  have last := @OnScreen.charKey _ who scanCode
    (show (Tty.placeCursor _).OnScreen from ⟨placed.displayed, placed.bounds⟩)
  exact ⟨last.onScreen, (Contained.trans ⟨placed, inside⟩ last).inside⟩

theorem modifierKeys_backspace (t : Tty) : t.modifierKeys ScanCode.backspace = t := by
  simp [modifierKeys, ScanCode.backspace, ScanCode.leftShift, ScanCode.rightShift,
    ScanCode.leftShiftRel, ScanCode.rightShiftRel, ScanCode.capsLock, ScanCode.ctrl,
    ScanCode.ctrlRel, ScanCode.alt, ScanCode.altRel]

theorem keyBlocks_backspace (t : Tty) :
    ((((t.modifierKeys ScanCode.backspace).enterKey who ScanCode.backspace).wrapLine
        who).clearKey who ScanCode.backspace).tabKey who ScanCode.backspace =
      t.wrapLine who ∧
    t.keyBlocks who ScanCode.backspace =
      ((t.wrapLine who).backspaceKey who ScanCode.backspace).placeCursor := by
  have before : ((((t.modifierKeys ScanCode.backspace).enterKey who
      ScanCode.backspace).wrapLine who).clearKey who ScanCode.backspace).tabKey who
        ScanCode.backspace = t.wrapLine who := by
    rw [modifierKeys_backspace, enterKey_of_ne t who (by decide),
      clearKey_of_not who (fun pressed => absurd pressed.2 (by decide)),
      tabKey_of_ne _ who (by decide)]
  refine ⟨before, ?_⟩
  have noChar : ∀ u : Tty, u.charKey who ScanCode.backspace = u := by
    intro u
    have rejected : ¬u.acceptsChar ScanCode.backspace :=
      fun accepted => accepted.2.1 (by decide)
    exact if_neg rejected
  rw [Tty.keyBlocks, before, noChar]

theorem OnScreen.newline_line (on : t.OnScreen) :
    1 ≤ (t.putcKeyboard who newline).screenY t.row := by
  obtain ⟨_, top, _⟩ := on.cursor
  have moved := (t.toConsole.putc_newline t.curTerminal who.curProcessLocal (.inl rfl)).2
  change 1 ≤ (t.toConsole.putc t.curTerminal who.curProcessLocal newline true).screenY
    (t.curTerminal - 1)
  rw [row] at top
  rw [moved]
  split
  · decide
  · omega

theorem OnScreen.wrapped_fits (on : t.OnScreen) (full : t.index = maxLine) :
    (t.wrapLine who).EraseFits ∧ (t.wrapLine who).index = 74 ∧
      (t.wrapLine who).load ((t.wrapLine who).index - 1) = newline := by
  have wraps : t.index = maxLine ∧ t.index + 1 < bufferSize :=
    ⟨full, by rw [full]; decide⟩
  have index : (t.wrapLine who).index = t.index + 1 := by
    rw [Tty.wrapLine, if_pos wraps]
    exact assign_self _ _ _
  have loaded : (t.wrapLine who).load ((t.wrapLine who).index - 1) = newline := by
    rw [index, Int.add_sub_cancel, Tty.wrapLine, if_pos wraps]
    exact store_line_self t t.index newline
  have flag : (t.wrapLine who).newlineFlag = true := by
    rw [Tty.wrapLine, if_pos wraps]
  refine ⟨?_, by rw [index, full]; rfl, loaded⟩
  rw [EraseFits, if_pos ⟨flag, loaded⟩, Tty.wrapLine, if_pos wraps]
  have stored : (t.store t.index newline).OnScreen := ⟨on.displayed, on.bounds⟩
  exact stored.newline_line who

/-- A key keeps the bounds exactly if it is no Backspace that leaves the screen. -/
theorem RowsInvariant.keyPress_inBounds (holds : t.RowsInvariant)
    (bounds : t.CursorsInBounds) :
    ((t.keyPress who scanCode).CursorsInBounds ∧
      ∀ call ∈ t.keyCalls who scanCode, call.Inside) ↔
      (scanCode = ScanCode.backspace → t.SafeErase) := by
  have on : t.OnScreen := ⟨holds.displayed, bounds⟩
  have shape := holds.shaped
  obtain ⟨sameX, sameY⟩ := keyPress_cursors t who scanCode
  have same : (t.keyPress who scanCode).CursorsInBounds ↔
      (t.keyBlocks who scanCode).CursorsInBounds := by
    simp only [Console.CursorsInBounds, sameX, sameY]
  rw [same]
  constructor
  · rintro ⟨after, _⟩ rfl
    rcases Int.lt_or_eq_of_le shape.low with positive | empty
    · by_cases full : t.index = maxLine
      · exact .inr (.inl full)
      · have tabs : t.load (t.index - 1) = tab → 4 ≤ t.index := by
          intro isTab
          have nonneg := (shape.aligned.before_tab positive full isTab).nonneg
          omega
        rw [(keyBlocks_backspace who t).2, wrapLine_of_index who full] at after
        exact .inr (.inr (on.eraseFits who positive shape.high tabs after))
    · exact .inl empty.symm
  · intro safe
    suffices contained : (t.keyBlocks who scanCode).Contained (t.keyCalls who scanCode) from
      ⟨contained.onScreen.bounds, contained.inside⟩
    apply on.keyBlocks who scanCode
    intro u isBefore onBefore
    by_cases pressed : scanCode = ScanCode.backspace
    · subst pressed
      rw [(keyBlocks_backspace who t).1] at isBefore
      by_cases full : t.index = maxLine
      · obtain ⟨fits, index, loaded⟩ := on.wrapped_fits who full
        rw [← isBefore] at fits index loaded
        apply onBefore.backspaceKey who (by rw [index]; decide) (by omega)
        · intro _ isTab
          rw [loaded] at isTab
          exact absurd isTab (by decide)
        · exact fun _ => fits
      · rw [wrapLine_of_index who full] at isBefore
        subst isBefore
        apply on.backspaceKey who shape.high shape.low
        · intro positive isTab
          have nonneg := (shape.aligned.before_tab positive full isTab).nonneg
          omega
        · intro positive
          rcases safe rfl with empty | wraps | fits
          · omega
          · exact (full wraps).elim
          · exact fits
    · rw [backspaceKey_of_ne u who pressed]
      have none : u.backspaceCalls who scanCode = [] :=
        if_neg fun both => pressed both.2.2
      rw [none]
      exact onBefore.contained

end Tty

/-- The driver after `keyboard_init`, with all cursors at the top left. -/
def Tty.Homed (t : Tty) : Prop :=
  t.Initial ∧ ∀ terminal, 1 ≤ terminal → terminal ≤ 3 →
    t.screenX (terminal - 1) = 0 ∧ t.screenY (terminal - 1) = 0

theorem Tty.Homed.bounds {t : Tty} (homed : t.Homed) : t.CursorsInBounds := by
  intro terminal low high
  obtain ⟨x, y⟩ := homed.2 terminal low high
  rw [x, y]
  decide

namespace ScreenStep

variable {t u : Tty} {record : ScreenRecord}

theorem rows (step : ScreenStep t record u) (holds : t.RowsInvariant) :
    u.RowsInvariant := by
  obtain ⟨before, event, after⟩ := record
  obtain ⟨rfl, rfl, _, performed⟩ := step
  dsimp only at performed
  subst performed
  cases event with
  | key who scanCode => exact (holds.keyPress who scanCode).1
  | write curProcessLocal input => exact ⟨holds.displayed, holds.rows⟩

/-- A step keeps the bounds exactly if it is careful. -/
theorem inBounds_iff (step : ScreenStep t record u) (holds : t.RowsInvariant)
    (bounds : t.CursorsInBounds) : record.InBounds ↔ record.Careful := by
  obtain ⟨before, event, after⟩ := record
  obtain ⟨rfl, rfl, allowed, performed⟩ := step
  dsimp only at allowed performed
  subst performed
  cases event with
  | key who scanCode =>
      have same := holds.keyPress_inBounds who scanCode bounds
      constructor
      · intro inBounds
        exact same.mp ⟨inBounds.cursors, inBounds.cells⟩
      · intro careful
        obtain ⟨cursors, cells⟩ := same.mpr careful
        exact ⟨cursors, cells⟩
  | write curProcessLocal input =>
      have printed := @Console.CursorsInBounds.puts _ bounds before.curTerminal
        curProcessLocal false _ rfl allowed.1 allowed.2
        (input.map fun c => if c = tab then space else c)
      rw [List.foldl_map] at printed
      exact ⟨fun _ => trivial, fun _ => ⟨printed.1, printed.2⟩⟩

end ScreenStep

/-- In a run the cursors and the characters stay on the screens exactly as long as
every Backspace finds what it erases before the cursor. -/
theorem cursor_bounds {start t : Tty} {history : List ScreenRecord} (homed : start.Homed)
    (run : Run ScreenStep start history t) :
    (∀ record ∈ history, record.InBounds) ↔ ∀ record ∈ history, record.Careful := by
  have summary : t.RowsInvariant ∧
      ((∀ record ∈ history, record.InBounds) → t.CursorsInBounds) ∧
      ((∀ record ∈ history, record.InBounds) ↔ ∀ record ∈ history, record.Careful) := by
    induction run with
    | nil => exact ⟨homed.1.invariant, fun _ => homed.bounds, by simp⟩
    | @snoc earlier middle finish record _ step induction =>
        obtain ⟨holds, bounds, same⟩ := induction
        simp only [List.forall_mem_append, List.forall_mem_singleton]
        refine ⟨step.rows holds, ?_, ?_⟩
        · rintro ⟨_, inBounds⟩
          exact step.after ▸ inBounds.cursors
        · rw [← same]
          exact and_congr_right fun all => step.inBounds_iff holds (bounds all)
  exact summary.2.2

theorem sampleTty_homed : sampleTty.keyboardInit.Homed :=
  ⟨sampleTty_initial, fun _ _ _ => ⟨rfl, rfl⟩⟩

/-- Take the step an event asks for. -/
def Tty.screenAdvance (t : Tty) (event : ScreenEvent) : Option (ScreenRecord × Tty) :=
  if ScreenAllows event then
    some (⟨t, event, t.screenPerform event⟩, t.screenPerform event)
  else none

theorem Tty.screenAdvance_step (t : Tty) (event : ScreenEvent) (record : ScreenRecord)
    (next : Tty) (advances : t.screenAdvance event = some (record, next)) :
    ScreenStep t record next := by
  rw [screenAdvance] at advances
  split at advances
  case isTrue allowed =>
    cases advances
    exact ⟨rfl, rfl, allowed, rfl⟩
  case isFalse => cases advances

/-- The user types a letter, the program prints one, and the user erases a place. -/
def sampleEdit : List ScreenEvent :=
  [.key ⟨1, 1⟩ letterA, .write 1 [0x62#8], .key ⟨1, 1⟩ ScanCode.backspace]

theorem cursor_bounds_sampleEdit :
    ∃ history t, Run ScreenStep sampleTty.keyboardInit history t ∧
      history.length = 3 ∧ ∀ record ∈ history, record.InBounds := by
  obtain ⟨history, t, run, length, careful⟩ :=
    @exists_run_of_replay _ _ _ _ Tty.screenAdvance Tty.screenAdvance_step
      sampleTty.keyboardInit sampleEdit
      (fun history _ => history.length = 3 ∧ ∀ record ∈ history, record.Careful) _
      (by decide +kernel)
  exact ⟨history, t, run, length, (cursor_bounds sampleTty_homed run).mpr careful⟩

/-- The user types a letter, the program prints a newline, and the user erases the
letter. -/
def sampleOverrun : List ScreenEvent :=
  [.key ⟨1, 1⟩ letterA, .write 1 [newline], .key ⟨1, 1⟩ ScanCode.backspace]

/-- The cursor is on column 0 when Backspace takes it back by one place. -/
theorem cursor_bounds_backspace :
    ¬∀ start history t, start.Homed → Run ScreenStep start history t →
      ∀ record ∈ history, record.InBounds := by
  intro safe
  obtain ⟨history, t, run, record, member, outside⟩ :=
    @exists_run_of_replay _ _ _ _ Tty.screenAdvance Tty.screenAdvance_step
      sampleTty.keyboardInit sampleOverrun
      (fun history _ => ∃ record ∈ history, record.after.screenX 0 = -1) _
      (by decide +kernel)
  have inBounds := safe _ history t sampleTty_homed run record member
  obtain ⟨⟨left, _⟩, _⟩ := inBounds.cursors 1 (by decide) (by decide)
  change 0 ≤ record.after.screenX 0 at left
  omega

end LightweightOs
