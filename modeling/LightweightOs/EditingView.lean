import LightweightOs.CursorBounds
import LightweightOs.InterruptedProcess

/-!
# What line editing depends on

A key acts on the line, the index and the cursor of the displayed terminal by
these and the modifier flags alone, except that Backspace over the automatic
newline also asks for `newline_flag`, which all terminals share.  Two drivers
that agree on the former agree after the same key, as long as they agree on
what that Backspace does.
-/

namespace LightweightOs

namespace Tty

/-- The two drivers agree on the line being edited. -/
structure Agree (t u : Tty) : Prop where
  curTerminal : u.curTerminal = t.curTerminal
  line : ∀ k, 0 ≤ k → k < bufferSize → u.line t.row k = t.line t.row k
  index : u.index = t.index
  x : u.screenX t.row = t.screenX t.row
  y : u.screenY t.row = t.screenY t.row
  shiftFlag : u.shiftFlag = t.shiftFlag
  capsLockFlag : u.capsLockFlag = t.capsLockFlag
  ctrlFlag : u.ctrlFlag = t.ctrlFlag
  altFlag : u.altFlag = t.altFlag

/-- If the last byte of the line is a newline, the two take it for the automatic one
or neither does. -/
def ErasesAlike (t u : Tty) : Prop :=
  0 < t.index → t.load (t.index - 1) = newline → u.newlineFlag = t.newlineFlag

namespace Agree

variable {t u : Tty} (who whom : Interrupted) (scanCode : Byte)

theorem refl (t : Tty) : Agree t t :=
  ⟨rfl, fun _ _ _ => rfl, rfl, rfl, rfl, rfl, rfl, rfl, rfl⟩

theorem row (agree : Agree t u) : u.row = t.row := by
  simp only [Tty.row, agree.curTerminal]

theorem load (agree : Agree t u) {k : Int} (low : 0 ≤ k) (high : k < bufferSize) :
    u.load k = t.load k := by
  have same := agree.line k low high
  simp only [Tty.load, agree.row]
  exact same

theorem touch (agree : Agree t u) (k j : Int) : Agree (t.touch k) (u.touch j) :=
  ⟨agree.curTerminal, agree.line, agree.index, agree.x, agree.y, agree.shiftFlag,
    agree.capsLockFlag, agree.ctrlFlag, agree.altFlag⟩

theorem store (agree : Agree t u) {k other : Int} (same : other = k) (c : Byte) :
    Agree (t.store k c) (u.store other c) := by
  rw [same]
  refine ⟨agree.curTerminal, ?_, agree.index, agree.x, agree.y, agree.shiftFlag,
    agree.capsLockFlag, agree.ctrlFlag, agree.altFlag⟩
  intro j low high
  rw [store_row]
  have second : (u.store k c).line t.row j = (u.store k c).line u.row j := by
    rw [agree.row]
  rw [second]
  by_cases here : j = k
  · rw [here, store_line_self, store_line_self]
  · rw [store_line_of_ne u k c here, store_line_of_ne t k c here, agree.row]
    exact agree.line j low high

theorem setIndex (agree : Agree t u) {value other : Int} (same : other = value) :
    Agree (t.setIndex value) (u.setIndex other) := by
  rw [same]
  refine ⟨agree.curTerminal, agree.line, ?_, agree.x, agree.y, agree.shiftFlag,
    agree.capsLockFlag, agree.ctrlFlag, agree.altFlag⟩
  rw [setIndex_index, setIndex_index]

theorem retreat (agree : Agree t u) : Agree t.retreat u.retreat := by
  refine ⟨agree.curTerminal, agree.line, agree.index, ?_, agree.y, agree.shiftFlag,
    agree.capsLockFlag, agree.ctrlFlag, agree.altFlag⟩
  have first := retreat_x t
  have second := retreat_x u
  rw [agree.row, agree.x] at second
  exact second.trans first.symm

theorem putcKeyboard (agree : Agree t u) (c : Byte) :
    Agree (t.putcKeyboard who c) (u.putcKeyboard whom c) := by
  have x := agree.x
  have y := agree.y
  suffices moved : (u.putcKeyboard whom c).screenX t.row = (t.putcKeyboard who c).screenX t.row ∧
      (u.putcKeyboard whom c).screenY t.row = (t.putcKeyboard who c).screenY t.row from
    ⟨agree.curTerminal, agree.line, agree.index, moved.1, moved.2, agree.shiftFlag,
      agree.capsLockFlag, agree.ctrlFlag, agree.altFlag⟩
  by_cases isNewline : c = newline ∨ c = carriageReturn
  · obtain ⟨firstX, firstY⟩ :=
      t.toConsole.putc_newline t.curTerminal who.curProcessLocal isNewline
    obtain ⟨secondX, secondY⟩ :=
      u.toConsole.putc_newline u.curTerminal whom.curProcessLocal isNewline
    rw [← Tty.row, agree.row] at secondX secondY
    rw [← Tty.row] at firstX firstY
    rw [y] at secondY
    exact ⟨secondX.trans firstX.symm, secondY.trans firstY.symm⟩
  · obtain ⟨firstX, firstY⟩ := @putcKeyboard_cursor t who c isNewline
    obtain ⟨secondX, secondY⟩ := @putcKeyboard_cursor u whom c isNewline
    rw [agree.row, x] at secondX
    rw [agree.row, x, y] at secondY
    exact ⟨secondX.trans firstX.symm, secondY.trans firstY.symm⟩

theorem modifierKeys (agree : Agree t u) :
    Agree (t.modifierKeys scanCode) (u.modifierKeys scanCode) := by
  refine ⟨agree.curTerminal, agree.line, agree.index, agree.x, agree.y, ?_, ?_, ?_, ?_⟩
  · simp only [Tty.modifierKeys, agree.shiftFlag]
  · simp only [Tty.modifierKeys, agree.capsLockFlag]
  · simp only [Tty.modifierKeys, agree.ctrlFlag]
  · simp only [Tty.modifierKeys, agree.altFlag]

theorem enterKey (agree : Agree t u) :
    Agree (t.enterKey who scanCode) (u.enterKey whom scanCode) := by
  unfold Tty.enterKey
  split
  · have flagged : Agree { t with enterFlag := assign t.enterFlag t.row true }
        { u with enterFlag := assign u.enterFlag u.row true } :=
      ⟨agree.curTerminal, agree.line, agree.index, agree.x, agree.y, agree.shiftFlag,
        agree.capsLockFlag, agree.ctrlFlag, agree.altFlag⟩
    have stored := flagged.store agree.index newline
    have next := stored.setIndex (congrArg (· + 1) agree.index)
    have ended := next.store next.index nul
    exact (ended.putcKeyboard who whom newline).setIndex rfl
  · exact agree

theorem wrapLine (agree : Agree t u) : Agree (t.wrapLine who) (u.wrapLine whom) := by
  unfold Tty.wrapLine
  rw [agree.index]
  split
  · have stored := @store t u agree t.index _ rfl newline
    have printed := stored.putcKeyboard who whom newline
    have next := printed.setIndex (congrArg (· + 1) printed.index)
    exact ⟨next.curTerminal, next.line, next.index, next.x, next.y, next.shiftFlag,
      next.capsLockFlag, next.ctrlFlag, next.altFlag⟩
  · exact agree

theorem stores (agree : Agree t u) (positions : List Nat) (value : Byte) :
    Agree (positions.foldl (fun t (i : Nat) => t.store i value) t)
      (positions.foldl (fun t (i : Nat) => t.store i value) u) := by
  induction positions generalizing t u with
  | nil => exact agree
  | cons i rest induction => exact induction (agree.store rfl value)

theorem tabStore (agree : Agree t u) : Agree (t.tabStore who) (u.tabStore whom) := by
  unfold Tty.tabStore
  rw [agree.index]
  split
  · have stored := @store t u agree t.index _ rfl tab
    have printed := stored.putcKeyboard who whom space
    exact printed.setIndex (congrArg (· + 1) printed.index)
  · exact agree

theorem tabKey (agree : Agree t u) :
    Agree (t.tabKey who scanCode) (u.tabKey whom scanCode) := by
  unfold Tty.tabKey
  rw [agree.index, agree.row, agree.x]
  split
  · have first := agree.tabStore who whom
    have second := first.tabStore who whom
    have third := second.tabStore who whom
    exact third.tabStore who whom
  · exact agree

theorem eraseNewline_line (t : Tty) :
    (t.eraseNewline who).line =
      ((t.store (t.index - 1) nul).store (t.index - 2) nul).line := by
  simp only [Tty.eraseNewline, Tty.putcKeyboard]
  generalize Console.putc = putc
  rfl

theorem eraseNewline_index (t : Tty) : (t.eraseNewline who).index = t.index - 2 := by
  simp only [Tty.eraseNewline, Tty.putcKeyboard]
  generalize Console.putc = putc
  exact assign_self _ _ _

theorem eraseChar_index (positive : 0 < t.index) :
    (t.eraseChar who).index = t.index - 1 := by
  rw [eraseChar_eq who positive]
  exact setIndex_index _ _

theorem eraseChar (agree : Agree t u) (positive : 0 < t.index) :
    Agree (t.eraseChar who) (u.eraseChar whom) := by
  rw [eraseChar_eq who positive, eraseChar_eq whom (agree.index ▸ positive)]
  have place : u.index - 1 = t.index - 1 := congrArg (· - 1) agree.index
  have stored := agree.store place nul
  have touched := stored.retreat.touch (t.index - 1) (u.index - 1)
  have printed := touched.putcKeyboard who whom nul
  exact printed.retreat.setIndex place

theorem placeCursor (agree : Agree t u) : Agree t.placeCursor u.placeCursor :=
  ⟨agree.curTerminal, agree.line, agree.index, agree.x, agree.y, agree.shiftFlag,
    agree.capsLockFlag, agree.ctrlFlag, agree.altFlag⟩

theorem charKey (agree : Agree t u) :
    Agree (t.charKey who scanCode) (u.charKey whom scanCode) := by
  have accepts : u.acceptsChar scanCode ↔ t.acceptsChar scanCode := by
    simp only [acceptsChar, agree.ctrlFlag, agree.altFlag, agree.index]
  have char : u.charOf scanCode = t.charOf scanCode := by
    simp only [charOf, agree.shiftFlag, agree.capsLockFlag]
  have loaded : ∀ (v : Tty) (c : Byte), (v.store v.index c).load (v.store v.index c).index = c :=
    fun v c => store_line_self v v.index c
  unfold Tty.charKey
  by_cases accepted : t.acceptsChar scanCode
  · rw [if_pos accepted, if_pos (accepts.mpr accepted)]
    simp only [char, loaded]
    have stored := agree.store agree.index (t.charOf scanCode)
    have touched := stored.touch t.index u.index
    have printed := touched.putcKeyboard who whom (t.charOf scanCode)
    exact printed.setIndex (congrArg (· + 1) printed.index)
  · rw [if_neg accepted, if_neg fun other => accepted (accepts.mp other)]
    exact agree

theorem eraseNewline (agree : Agree t u) :
    Agree (t.eraseNewline who) (u.eraseNewline whom) := by
  have first : u.index - 1 = t.index - 1 := congrArg (· - 1) agree.index
  have second : u.index - 2 = t.index - 2 := congrArg (· - 2) agree.index
  have stored := (agree.store first nul).store second nul
  have kept := SameControls.eraseNewline who t
  have keptToo := SameControls.eraseNewline whom u
  constructor
  case curTerminal =>
    exact keptToo.curTerminal.trans (agree.curTerminal.trans kept.curTerminal.symm)
  case line =>
    rw [eraseNewline_line, eraseNewline_line, kept.row]
    exact stored.line
  case index =>
    rw [eraseNewline_index, eraseNewline_index, agree.index]
  case x =>
    rw [kept.row, eraseNewline_screenX, eraseNewline_screenX, agree.row, assign_self,
      assign_self]
  case y =>
    rw [kept.row, eraseNewline_screenY, eraseNewline_screenY, agree.row, assign_self,
      assign_self, agree.y]
  case shiftFlag =>
    exact keptToo.shiftFlag.trans (agree.shiftFlag.trans kept.shiftFlag.symm)
  case capsLockFlag =>
    exact keptToo.capsLockFlag.trans (agree.capsLockFlag.trans kept.capsLockFlag.symm)
  case ctrlFlag =>
    exact keptToo.ctrlFlag.trans (agree.ctrlFlag.trans kept.ctrlFlag.symm)
  case altFlag =>
    exact keptToo.altFlag.trans (agree.altFlag.trans kept.altFlag.symm)

theorem backspaceKey (agree : Agree t u) (low : 0 ≤ t.index)
    (high : t.index ≤ bufferSize - 1)
    (tabs : 0 < t.index → t.load (t.index - 1) = tab → 4 ≤ t.index)
    (flags : 0 < t.index → t.load (t.index - 1) = newline → u.newlineFlag = t.newlineFlag) :
    Agree (t.backspaceKey who ScanCode.backspace)
      (u.backspaceKey whom ScanCode.backspace) := by
  rcases Int.lt_or_eq_of_le low with positive | empty
  · have positiveToo : 0 < u.index := agree.index ▸ positive
    obtain ⟨_, v, isFirst, first, _⟩ := backspaceKey_cases who positive high
    obtain ⟨_, w, isSecond, second, _⟩ :=
      backspaceKey_cases whom positiveToo (agree.index ▸ high)
    have tested : Agree v w := by
      rw [isFirst, isSecond]
      exact ⟨agree.curTerminal, agree.line, agree.index, agree.x, agree.y,
        agree.shiftFlag, agree.capsLockFlag, agree.ctrlFlag, agree.altFlag⟩
    have sameIndex : v.index = t.index := by rw [isFirst]; rfl
    have loaded : u.load (u.index - 1) = t.load (t.index - 1) := by
      rw [agree.index]
      exact agree.load (by omega) (by omega)
    rw [first, second, loaded]
    by_cases isNewline : t.load (t.index - 1) = newline
    · simp only [flags positive isNewline, isNewline, and_true]
      split
      · exact tested.eraseNewline who whom
      · rw [if_neg (by decide), if_neg (by decide)]
        exact tested.eraseChar who whom (by omega)
    · have notFirst : ¬(t.newlineFlag ∧ t.load (t.index - 1) = newline) :=
        fun both => isNewline both.2
      have notSecond : ¬(u.newlineFlag ∧ t.load (t.index - 1) = newline) :=
        fun both => isNewline both.2
      rw [if_neg notFirst, if_neg notSecond]
      split
      case isTrue isTab =>
        have long := tabs positive isTab
        have one := tested.eraseChar who whom (by omega)
        have oneIndex := @eraseChar_index v who (by omega)
        have two := one.eraseChar who whom (by omega)
        have twoIndex := @eraseChar_index _ who (show 0 < (v.eraseChar who).index by omega)
        have three := two.eraseChar who whom (by omega)
        have threeIndex := @eraseChar_index _ who
          (show 0 < ((v.eraseChar who).eraseChar who).index by omega)
        exact three.eraseChar who whom (by omega)
      case isFalse => exact tested.eraseChar who whom (by omega)
  · have emptyToo : u.index = 0 := agree.index.trans empty.symm
    rw [(backspaceKey_zero who ScanCode.backspace empty.symm).1,
      (backspaceKey_zero whom ScanCode.backspace emptyToo).1]
    exact agree

theorem clear (agree : Agree t u)
    (alike : IsBaseShell who.processId ↔ IsBaseShell whom.processId) :
    Agree
      { t with
        toConsole := t.toConsole.clear t.curTerminal who.curProcessLocal who.processId }
      { u with
        toConsole :=
          u.toConsole.clear u.curTerminal whom.curProcessLocal whom.processId } := by
  obtain ⟨x, y⟩ := clear_cursor who t.toConsole t.curTerminal
  obtain ⟨xToo, yToo⟩ := clear_cursor whom u.toConsole u.curTerminal
  rw [agree.curTerminal] at xToo yToo
  refine ⟨agree.curTerminal, agree.line, agree.index, ?_, ?_, agree.shiftFlag,
    agree.capsLockFlag, agree.ctrlFlag, agree.altFlag⟩
  · rw [agree.curTerminal]
    simp only [← alike] at xToo
    exact xToo.trans x.symm
  · rw [agree.curTerminal]
    exact yToo.trans y.symm

theorem clearKey (agree : Agree t u)
    (alike : ¬(t.ctrlFlag ∧ scanCode = ScanCode.l) ∨
      (IsBaseShell who.processId ↔ IsBaseShell whom.processId)) :
    Agree (t.clearKey who scanCode) (u.clearKey whom scanCode) := by
  unfold Tty.clearKey
  rw [agree.ctrlFlag]
  split
  case isTrue pressed =>
    have shells := alike.resolve_left fun noClear => noClear pressed
    have erased := agree.stores (List.range 127) nul
    exact (erased.setIndex rfl).clear who whom shells
  case isFalse => exact agree

theorem wrapLine_erase (agree : Agree t u) (erase : ErasesAlike t u) :
    ErasesAlike (t.wrapLine who) (u.wrapLine whom) := by
  by_cases full : t.index = maxLine
  · have room : t.index + 1 < bufferSize := by
      rw [full]
      decide
    intro _ _
    rw [Tty.wrapLine, Tty.wrapLine, agree.index, if_pos ⟨full, room⟩, if_pos ⟨full, room⟩]
  · rw [wrapLine_of_index who full, wrapLine_of_index whom (agree.index ▸ full)]
    exact erase

theorem keyBlocks (agree : Agree t u) (shaped : t.Shaped)
    (alike : ¬t.Clears scanCode ∨
      (IsBaseShell who.processId ↔ IsBaseShell whom.processId))
    (erase : scanCode = ScanCode.backspace → ErasesAlike t u) :
    Agree (t.keyBlocks who scanCode) (u.keyBlocks whom scanCode) := by
  by_cases pressed : scanCode = ScanCode.backspace
  · subst pressed
    rw [(keyBlocks_backspace who t).2, (keyBlocks_backspace whom u).2]
    have wrapped := (shaped.wrapLine who).shaped
    apply Agree.placeCursor
    apply (agree.wrapLine who whom).backspaceKey who whom wrapped.low wrapped.high
    · intro positive isTab
      have start := (wrapped.aligned.before_tab positive (wrapLine_index_ne who t)
        isTab).nonneg
      omega
    · exact agree.wrapLine_erase who whom (erase rfl)
  · have modified := agree.modifierKeys scanCode
    have wrapped := (modified.enterKey who whom scanCode).wrapLine who whom
    have kept := (SameControls.enterKey who scanCode (t.modifierKeys scanCode)).trans
      (SameControls.wrapLine who _)
    rw [Clears, ← kept.ctrlFlag] at alike
    have cleared := wrapped.clearKey who whom scanCode alike
    have tabbed := cleared.tabKey who whom scanCode
    have typed := tabbed.placeCursor.charKey who whom scanCode
    rw [Tty.keyBlocks, Tty.keyBlocks, backspaceKey_of_ne _ who pressed,
      backspaceKey_of_ne _ whom pressed]
    exact typed

theorem keyPress (agree : Agree t u) (shaped : t.Shaped)
    (stays : (t.modifierKeys scanCode).selectedTerminal scanCode = none)
    (alike : ¬t.Clears scanCode ∨
      (IsBaseShell who.processId ↔ IsBaseShell whom.processId))
    (erase : scanCode = ScanCode.backspace → ErasesAlike t u) :
    Agree (t.keyPress who scanCode) (u.keyPress whom scanCode) := by
  have staysToo : (u.modifierKeys scanCode).selectedTerminal scanCode = none := by
    rw [selectedTerminal, (agree.modifierKeys scanCode).altFlag]
    exact stays
  have typed := agree.keyBlocks who whom scanCode shaped alike erase
  simp only [Tty.keyPress, keyBlocks_selectedTerminal, stays, staysToo]
  exact typed

end Agree

end Tty

end LightweightOs
