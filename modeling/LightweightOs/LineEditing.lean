import LightweightOs.EditingView

/-!
# Independence of line editing

Keys are typed at the displayed terminal, and Alt+Fn displays another one.  Each
terminal's line, index and cursor are what its own keys make of them, as long as
two things do not happen: Backspace over the automatic newline when another
terminal has cleared `newline_flag`, and a switch that comes before the newline
of a full line is added.
-/

namespace LightweightOs

open Transition

namespace Tty

/-- Between the two states only the cursor of the displayed terminal moves. -/
structure MovesCursor (t u : Tty) : Prop where
  curTerminal : u.curTerminal = t.curTerminal
  x : ∀ row, row ≠ t.row → u.screenX row = t.screenX row
  y : ∀ row, row ≠ t.row → u.screenY row = t.screenY row

namespace MovesCursor

variable {t u v : Tty} (who : Interrupted) (scanCode : Byte)

theorem refl (t : Tty) : MovesCursor t t := ⟨rfl, fun _ _ => rfl, fun _ _ => rfl⟩

theorem row (moves : MovesCursor t u) : u.row = t.row := by
  simp only [Tty.row, moves.curTerminal]

theorem trans (first : MovesCursor t u) (second : MovesCursor u v) : MovesCursor t v where
  curTerminal := second.curTerminal.trans first.curTerminal
  x := by
    intro row different
    have fromFirst := first.x row different
    rw [← first.row] at different
    exact (second.x row different).trans fromFirst
  y := by
    intro row different
    have fromFirst := first.y row different
    rw [← first.row] at different
    exact (second.y row different).trans fromFirst

theorem quiet (curTerminal : u.curTerminal = t.curTerminal)
    (x : u.screenX = t.screenX) (y : u.screenY = t.screenY) : MovesCursor t u :=
  ⟨curTerminal, fun _ _ => by rw [x], fun _ _ => by rw [y]⟩

theorem touch (t : Tty) (k : Int) : MovesCursor t (t.touch k) := quiet rfl rfl rfl

theorem store (t : Tty) (k : Int) (c : Byte) : MovesCursor t (t.store k c) :=
  quiet rfl rfl rfl

theorem setIndex (t : Tty) (value : Int) : MovesCursor t (t.setIndex value) :=
  quiet rfl rfl rfl

theorem putcKeyboard (t : Tty) (c : Byte) : MovesCursor t (t.putcKeyboard who c) :=
  ⟨rfl, fun _ different => (putcKeyboard_others who different).1,
    fun _ different => (putcKeyboard_others who different).2⟩

theorem retreat (t : Tty) : MovesCursor t t.retreat :=
  ⟨rfl, fun _ different => assign_of_ne different _ _, fun _ _ => rfl⟩

theorem enterKey (t : Tty) : MovesCursor t (t.enterKey who scanCode) := by
  have printed := putcKeyboard who t newline
  unfold Tty.enterKey
  split
  · exact ⟨rfl, printed.x, printed.y⟩
  · exact refl t

theorem wrapLine (t : Tty) : MovesCursor t (t.wrapLine who) := by
  have printed := putcKeyboard who t newline
  unfold Tty.wrapLine
  split
  · exact ⟨rfl, printed.x, printed.y⟩
  · exact refl t

theorem clearKey (t : Tty) : MovesCursor t (t.clearKey who scanCode) := by
  refine ⟨(SameControls.clearKey who scanCode t).curTerminal, ?_, ?_⟩
  · intro other different
    rw [clearKey_toConsole]
    split
    · exact (t.toConsole.clear_others t.curTerminal who.curProcessLocal who.processId
        different).1
    · rfl
  · intro other different
    rw [clearKey_toConsole]
    split
    · exact (t.toConsole.clear_others t.curTerminal who.curProcessLocal who.processId
        different).2
    · rfl

theorem tabStore (t : Tty) : MovesCursor t (t.tabStore who) := by
  have printed := putcKeyboard who t space
  unfold Tty.tabStore
  split
  · exact ⟨rfl, printed.x, printed.y⟩
  · exact refl t

theorem tabKey (t : Tty) : MovesCursor t (t.tabKey who scanCode) := by
  unfold Tty.tabKey
  split
  · have first := tabStore who t
    have second := first.trans (tabStore who _)
    have third := second.trans (tabStore who _)
    exact third.trans (tabStore who _)
  · exact refl t

theorem eraseChar (t : Tty) : MovesCursor t (t.eraseChar who) := by
  have stored := store t (t.index - 1) nul
  have touched := (stored.trans (retreat _)).trans (touch _ (t.index - 1))
  unfold Tty.eraseChar
  dsimp only
  split
  · exact ((touched.trans (putcKeyboard who _ _)).trans (retreat _)).trans (setIndex _ _)
  · exact (touched.trans (putcKeyboard who _ _)).trans (setIndex _ _)

theorem eraseNewline (t : Tty) : MovesCursor t (t.eraseNewline who) :=
  ⟨(SameControls.eraseNewline who t).curTerminal,
    fun _ different => (eraseNewline_others who different).1,
    fun _ different => (eraseNewline_others who different).2⟩

theorem charKey (t : Tty) : MovesCursor t (t.charKey who scanCode) := by
  unfold Tty.charKey
  split
  · have printed := putcKeyboard who t
      ((t.store t.index (t.charOf scanCode)).load t.index)
    exact ⟨rfl, printed.x, printed.y⟩
  · exact refl t

theorem backspaceKey (t : Tty) : MovesCursor t (t.backspaceKey who scanCode) := by
  apply backspaceKey_keeps
  case touch => exact fun u k moves => moves.trans (touch u k)
  case eraseNewline => exact fun u moves => moves.trans (eraseNewline who u)
  case eraseChar => exact fun u moves => moves.trans (eraseChar who u)
  case initially => exact refl t

theorem keyBlocks (t : Tty) : MovesCursor t (t.keyBlocks who scanCode) := by
  have modified : MovesCursor t (t.modifierKeys scanCode) := quiet rfl rfl rfl
  have entered := modified.trans (enterKey who scanCode _)
  have wrapped := entered.trans (wrapLine who _)
  have cleared := wrapped.trans (clearKey who scanCode _)
  have tabbed := cleared.trans (tabKey who scanCode _)
  have erased := tabbed.trans (backspaceKey who scanCode _)
  have placed := erased.trans (@quiet _ (Tty.placeCursor _) rfl rfl rfl)
  exact placed.trans (charKey who scanCode _)

end MovesCursor

/-- The newline that ends the line is the automatic one, and still in it. -/
def WrapFlagged (t : Tty) : Prop :=
  maxLine < t.index → t.load maxLine = newline → t.newlineFlag = true

namespace WrapFlagged

variable {t u : Tty} (who : Interrupted) (scanCode : Byte)

theorem of_short (short : t.index ≤ maxLine) : t.WrapFlagged := by
  intro long
  omega

theorem modifierKeys (flagged : t.WrapFlagged) : (t.modifierKeys scanCode).WrapFlagged :=
  flagged

theorem enterKey (flagged : t.WrapFlagged) : (t.enterKey who scanCode).WrapFlagged := by
  unfold Tty.enterKey
  split
  · apply of_short
    rw [setIndex_index]
    decide
  · exact flagged

theorem wrapLine (flagged : t.WrapFlagged) : (t.wrapLine who).WrapFlagged := by
  unfold Tty.wrapLine
  split
  · exact fun _ _ => rfl
  · exact flagged

theorem clearKey (flagged : t.WrapFlagged) : (t.clearKey who scanCode).WrapFlagged := by
  unfold Tty.clearKey
  split
  · apply of_short
    generalize (List.range 127).foldl (fun t (i : Nat) => t.store i nul) t = u
    have emptied : (u.setIndex 0).index = 0 := setIndex_index u 0
    exact emptied.trans_le (by decide)
  · exact flagged

theorem grown (flagged : t.WrapFlagged) (curTerminal : u.curTerminal = t.curTerminal)
    (newlineFlag : u.newlineFlag = t.newlineFlag)
    (below : ∀ k, k < t.index → u.line t.row k = t.line t.row k)
    (added : ∀ k, t.index ≤ k → k < u.index → u.line t.row k ≠ newline) :
    u.WrapFlagged := by
  intro long isNewline
  have sameRow : u.row = t.row := by simp only [Tty.row, curTerminal]
  have loaded : u.line t.row maxLine = newline := sameRow ▸ isNewline
  rw [newlineFlag]
  rcases lt_or_ge maxLine t.index with before | after
  · rw [below _ before] at loaded
    exact flagged before loaded
  · exact (added _ after long loaded).elim

theorem tabKey (flagged : t.WrapFlagged) (low : 0 ≤ t.index) :
    (t.tabKey who scanCode).WrapFlagged := by
  have sameFlag : ∀ u : Tty, (u.tabStore who).newlineFlag = u.newlineFlag := by
    intro u
    unfold Tty.tabStore
    split <;> rfl
  unfold Tty.tabKey
  split
  case isTrue pressed =>
    obtain ⟨count, fills, _⟩ := fills_tabStores who low pressed.2.1
    apply flagged.grown fills.edits.curTerminal
    case newlineFlag => simp only [sameFlag]
    case below => exact fills.below
    case added =>
      intro k atLeast below
      rw [fills.filled k atLeast (fills.index ▸ below)]
      decide
  case isFalse => exact flagged

theorem charKey (flagged : t.WrapFlagged) (low : 0 ≤ t.index) :
    (t.charKey who scanCode).WrapFlagged := by
  unfold Tty.charKey
  split
  case isTrue accepted =>
    have room : t.index < bufferSize - 1 := accepted.2.2.2.2
    have types := @types_store t who (t.charOf scanCode) low (by omega)
      ((t.store t.index (t.charOf scanCode)).load t.index)
    apply flagged.grown
    case curTerminal => rfl
    case newlineFlag => rfl
    case below => exact types.below
    case added =>
      intro k atLeast below
      rw [setIndex_index, putcKeyboard_index, touch_index, store_index] at below
      have isLast : k = t.index := by omega
      rw [isLast]
      exact types.last.trans_ne (charOf_plain scanCode t).2
  case isFalse => exact flagged

theorem cut (flagged : t.WrapFlagged) {size : Int} (cuts : Cuts t u size)
    (shorter : size ≤ t.index) (newlineFlag : u.newlineFlag = t.newlineFlag) :
    u.WrapFlagged := by
  intro long isNewline
  rw [cuts.index] at long
  have loaded : u.line t.row maxLine = newline := cuts.edits.row ▸ isNewline
  rw [cuts.below _ long] at loaded
  rw [newlineFlag]
  exact flagged (by omega) loaded

theorem eraseChar (flagged : t.WrapFlagged) (low : 1 ≤ t.index)
    (high : t.index ≤ bufferSize - 1) : (t.eraseChar who).WrapFlagged := by
  apply flagged.cut (cuts_eraseChar who low high) (by omega)
  rw [eraseChar_eq who (by omega)]
  rfl

theorem backspaceKey (flagged : t.WrapFlagged) (shaped : t.Shaped)
    (notWrap : t.index ≠ maxLine) :
    (t.backspaceKey who ScanCode.backspace).WrapFlagged := by
  rcases shaped.low.lt_or_eq with positive | empty
  · have high := shaped.high
    obtain ⟨accesses, u, isTested, key, _⟩ := backspaceKey_cases who positive high
    have tested : u.WrapFlagged := by
      rw [isTested]
      exact flagged
    have index : u.index = t.index := by
      rw [isTested]
      rfl
    rw [key]
    split
    case isTrue wrapped =>
      have place := shaped.newlines _ (by omega) (by omega) wrapped.2
      apply of_short
      rw [Agree.eraseNewline_index, index]
      omega
    case isFalse =>
      have first := tested.eraseChar who (by omega) (by omega)
      split
      case isTrue isTab =>
        have start := (shaped.aligned.before_tab positive notWrap isTab).nonneg
        have one := @Agree.eraseChar_index u who (by omega)
        have second := first.eraseChar who (by omega) (by omega)
        have two := @Agree.eraseChar_index (u.eraseChar who) who (by omega)
        have third := second.eraseChar who (by omega) (by omega)
        have three := @Agree.eraseChar_index ((u.eraseChar who).eraseChar who) who
          (by omega)
        exact third.eraseChar who (by omega) (by omega)
      case isFalse => exact first
  · rw [(backspaceKey_zero who ScanCode.backspace empty.symm).1]
    exact flagged

theorem keyBlocks (flagged : t.WrapFlagged) (shaped : t.Shaped)
    (room : scanCode = ScanCode.enter → t.index ≠ bufferSize - 1) :
    (t.keyBlocks who scanCode).WrapFlagged := by
  by_cases pressed : scanCode = ScanCode.backspace
  · subst pressed
    rw [(keyBlocks_backspace who t).2]
    exact (flagged.wrapLine who).backspaceKey who (shaped.wrapLine who).shaped
      (wrapLine_index_ne who t)
  · have entered := (shaped.modifierKeys scanCode).shaped.enterKey who scanCode room
    have wrapped := entered.shaped.wrapLine who
    have cleared := wrapped.shaped.clearKey who scanCode
    have tabbed := cleared.shaped.tabKey who scanCode
    have before := (((flagged.modifierKeys scanCode).enterKey who scanCode).wrapLine
      who).clearKey who scanCode
    have typed := before.tabKey who scanCode cleared.shaped.low
    rw [Tty.keyBlocks, backspaceKey_of_ne _ who pressed]
    exact @charKey (Tty.placeCursor _) who scanCode typed tabbed.shaped.low

end WrapFlagged

/-- The key edits no line. -/
def Idle (scanCode : Byte) : Prop :=
  scanCode ≠ ScanCode.enter ∧ scanCode ≠ ScanCode.l ∧ scanCode ≠ ScanCode.tab ∧
    scanCode ≠ ScanCode.backspace ∧
    ¬(scanCode.toNat < scanCodes ∧ lookup scanCodesTable scanCode ≠ nul)

instance (scanCode : Byte) : Decidable (Idle scanCode) :=
  inferInstanceAs (Decidable (_ ∧ _ ∧ _ ∧ _ ∧ _))

/-- Shift, caps lock and Ctrl are up. -/
structure NoModifier (t : Tty) : Prop where
  shiftFlag : t.shiftFlag = false
  capsLockFlag : t.capsLockFlag = false
  ctrlFlag : t.ctrlFlag = false

/-- No line, index or cursor differs, and no modifier but Alt is down. -/
structure Quiet (t u : Tty) : Prop where
  newlineFlag : u.newlineFlag = t.newlineFlag
  keyboardBuffer : u.keyboardBuffer = t.keyboardBuffer
  keyboardIndex : u.keyboardIndex = t.keyboardIndex
  screenX : u.screenX = t.screenX
  screenY : u.screenY = t.screenY
  modifiers : t.NoModifier → u.NoModifier

theorem Quiet.trans {t u v : Tty} (first : Quiet t u) (second : Quiet u v) : Quiet t v :=
  ⟨second.newlineFlag.trans first.newlineFlag,
    second.keyboardBuffer.trans first.keyboardBuffer,
    second.keyboardIndex.trans first.keyboardIndex, second.screenX.trans first.screenX,
    second.screenY.trans first.screenY, fun up => second.modifiers (first.modifiers up)⟩

section Selecting

variable {t : Tty} (who : Interrupted) {scanCode : Byte}

theorem keyBlocks_idle_wrap (t : Tty) (idle : Idle scanCode) :
    t.keyBlocks who scanCode = ((t.modifierKeys scanCode).wrapLine who).placeCursor := by
  obtain ⟨notEnter, notL, notTab, notBackspace, noChar⟩ := idle
  have rejected : ∀ u : Tty, ¬u.acceptsChar scanCode :=
    fun _ accepted => noChar ⟨accepted.1, accepted.2.1⟩
  rw [keyBlocks, enterKey_of_ne _ who notEnter,
    clearKey_of_not who (fun pressed => notL pressed.2), tabKey_of_ne _ who notTab,
    backspaceKey_of_ne _ who notBackspace, charKey, if_neg (rejected _)]

theorem keyBlocks_idle (idle : Idle scanCode) (settled : t.index ≠ maxLine) :
    t.keyBlocks who scanCode = (t.modifierKeys scanCode).placeCursor := by
  rw [t.keyBlocks_idle_wrap who idle, @wrapLine_of_index (t.modifierKeys scanCode) who settled]

/-- The keys that Alt+Fn presses. -/
def Selecting (scanCode : Byte) : Prop :=
  scanCode = ScanCode.alt ∨ scanCode = ScanCode.altRel ∨
    scanCode = ScanCode.f1 ∨ scanCode = ScanCode.f2 ∨ scanCode = ScanCode.f3 ∨
    scanCode = ScanCode.f1 ||| 0x80#8 ∨ scanCode = ScanCode.f2 ||| 0x80#8 ∨
    scanCode = ScanCode.f3 ||| 0x80#8

instance (scanCode : Byte) : Decidable (Selecting scanCode) :=
  inferInstanceAs (Decidable (_ ∨ _ ∨ _ ∨ _ ∨ _ ∨ _ ∨ _ ∨ _))

theorem Selecting.idle (selecting : Selecting scanCode) : Idle scanCode := by
  rcases selecting with rfl | rfl | rfl | rfl | rfl | rfl | rfl | rfl <;> decide

theorem Selecting.modifierKeys (selecting : Selecting scanCode) (t : Tty) :
    t.modifierKeys scanCode =
      { t with
        altFlag :=
          if scanCode = ScanCode.alt then true
          else if scanCode = ScanCode.altRel then false
          else t.altFlag } := by
  rcases selecting with rfl | rfl | rfl | rfl | rfl | rfl | rfl | rfl <;> rfl

theorem Selecting.keyPress (selecting : Selecting scanCode) (settled : t.index ≠ maxLine) :
    Quiet t (t.keyPress who scanCode) ∧
      (t.keyPress who scanCode).altFlag = (t.modifierKeys scanCode).altFlag ∧
      (t.keyPress who scanCode).curTerminal =
        ((t.modifierKeys scanCode).selectedTerminal scanCode).getD t.curTerminal := by
  have blocks := keyBlocks_idle who selecting.idle settled
  have modified : Quiet t (t.modifierKeys scanCode) := by
    rw [selecting.modifierKeys t]
    exact ⟨rfl, rfl, rfl, rfl, rfl, fun up => ⟨up.shiftFlag, up.capsLockFlag, up.ctrlFlag⟩⟩
  rw [Tty.keyPress]
  simp only [keyBlocks_selectedTerminal]
  rw [blocks]
  have shown : (t.modifierKeys scanCode).curTerminal = t.curTerminal := rfl
  revert shown
  generalize t.modifierKeys scanCode = u at *
  intro shown
  have placed : Quiet t u.placeCursor :=
    modified.trans ⟨rfl, rfl, rfl, rfl, rfl, fun up => ⟨up.1, up.2, up.3⟩⟩
  split
  case h_1 noSelection =>
    rw [noSelection]
    exact ⟨placed, rfl, shown⟩
  case h_2 selected selects =>
    rw [selects]
    exact ⟨placed.trans ⟨rfl, rfl, rfl, rfl, rfl, fun up => ⟨up.1, up.2, up.3⟩⟩, rfl, rfl⟩

end Selecting

/-- Shift, caps lock, Ctrl and Alt are up. -/
structure Released (t : Tty) : Prop extends t.NoModifier where
  altFlag : t.altFlag = false

end Tty

/-- A scan code and the process it interrupts. -/
structure Key where
  who : Interrupted
  scanCode : Byte

/-- Keys that do the same on every driver: only Ctrl+L looks at the process. -/
structure Key.Same (key other : Key) : Prop where
  scanCode : key.scanCode = other.scanCode
  shell : key.scanCode = ScanCode.l →
    (IsBaseShell key.who.processId ↔ IsBaseShell other.who.processId)

/-- The scan codes of Alt+Fn: both keys go down, then both or only Alt come up. -/
def switchCodes : List (List Byte) :=
  [ScanCode.f1, ScanCode.f2, ScanCode.f3].flatMap fun selecting =>
    [[ScanCode.alt, selecting, ScanCode.altRel],
      [ScanCode.alt, selecting, selecting ||| 0x80#8, ScanCode.altRel],
      [ScanCode.alt, selecting, ScanCode.altRel, selecting ||| 0x80#8]]

namespace Tty

def press (t : Tty) (key : Key) : Tty := t.keyPress key.who key.scanCode

def pressAll (t : Tty) (keys : List Key) : Tty := keys.foldl press t

theorem pressAll_concat (t : Tty) (keys : List Key) (key : Key) :
    t.pressAll (keys ++ [key]) = (t.pressAll keys).press key := by
  rw [pressAll, List.foldl_append]
  rfl

/-- No line waits for its automatic newline. -/
structure Settled (t : Tty) : Prop where
  displayed : 1 ≤ t.curTerminal ∧ t.curTerminal ≤ 3
  indices : ∀ row, 0 ≤ row → row < numTerminals → t.keyboardIndex row ≠ maxLine

theorem Settled.index {t : Tty} (settled : t.Settled) : t.index ≠ maxLine := by
  obtain ⟨low, high⟩ := settled.displayed
  exact settled.indices t.row (by simp only [row]; omega)
    (by simp only [row, numTerminals]; omega)

theorem Settled.press {t : Tty} (settled : t.Settled) {key : Key}
    (selecting : Selecting key.scanCode) :
    Quiet t (t.press key) ∧ (t.press key).Settled ∧
      (t.press key).altFlag = (t.modifierKeys key.scanCode).altFlag := by
  obtain ⟨quiet, altFlag, shown⟩ := selecting.keyPress key.who settled.index
  refine ⟨quiet, ⟨?_, ?_⟩, altFlag⟩
  · rw [Tty.press, shown]
    cases selects : (t.modifierKeys key.scanCode).selectedTerminal key.scanCode with
    | none => exact settled.displayed
    | some selected => exact selectedTerminal_range selects
  · intro row low high
    rw [Tty.press, quiet.keyboardIndex]
    exact settled.indices row low high

theorem Settled.pressAll {t : Tty} (settled : t.Settled) {keys : List Key}
    (selecting : ∀ key ∈ keys, Selecting key.scanCode) :
    Quiet t (t.pressAll keys) ∧ (t.pressAll keys).Settled := by
  induction keys generalizing t with
  | nil => exact ⟨⟨rfl, rfl, rfl, rfl, rfl, id⟩, settled⟩
  | cons key rest induction =>
      rw [List.forall_mem_cons] at selecting
      obtain ⟨first, settledFirst, _⟩ := settled.press selecting.1
      obtain ⟨last, settledLast⟩ := induction settledFirst selecting.2
      exact ⟨first.trans last, settledLast⟩

theorem Settled.releases {t : Tty} (settled : t.Settled) {keys : List Key}
    (selecting : ∀ key ∈ keys, Selecting key.scanCode ∧ key.scanCode ≠ ScanCode.alt)
    (released : t.altFlag = false ∨ ∃ key ∈ keys, key.scanCode = ScanCode.altRel) :
    (t.pressAll keys).altFlag = false := by
  induction keys generalizing t with
  | nil =>
      rcases released with up | ⟨key, member, _⟩
      · exact up
      · cases member
  | cons key rest induction =>
      rw [List.forall_mem_cons] at selecting
      obtain ⟨⟨isSelecting, notAlt⟩, later⟩ := selecting
      obtain ⟨_, settledFirst, altFlag⟩ := settled.press isSelecting
      rw [isSelecting.modifierKeys t, if_neg notAlt] at altFlag
      apply induction settledFirst later
      rw [List.exists_mem_cons_iff] at released
      rcases released with up | isRelease | inRest
      · left
        rw [altFlag, up, ite_self]
      · left
        rw [altFlag, if_pos isRelease]
      · exact .inr inRest

theorem switchCodes_selecting :
    ∀ codes ∈ switchCodes, codes.head? = some ScanCode.alt ∧
      (∀ code ∈ codes.tail, Selecting code ∧ code ≠ ScanCode.alt) ∧
      ScanCode.altRel ∈ codes.tail := by
  decide

theorem Settled.switch {t : Tty} (settled : t.Settled) (released : t.Released)
    {keys : List Key} (switches : keys.map Key.scanCode ∈ switchCodes) :
    Quiet t (t.pressAll keys) ∧ (t.pressAll keys).Settled ∧
      (t.pressAll keys).Released := by
  obtain ⟨isFirst, codes⟩ := switchCodes_selecting _ switches
  cases keys with
  | nil => cases isFirst
  | cons first rest =>
      rw [List.map_cons, List.head?_cons, Option.some_inj] at isFirst
      rw [List.map_cons, List.tail_cons, List.forall_mem_map, List.mem_map] at codes
      have isSelecting : Selecting first.scanCode := .inl isFirst
      obtain ⟨quietFirst, settledFirst, _⟩ := settled.press isSelecting
      obtain ⟨quietRest, settledRest⟩ :=
        settledFirst.pressAll fun key member => (codes.1 key member).1
      have altFlag := settledFirst.releases codes.1 (.inr codes.2)
      have quiet := quietFirst.trans quietRest
      exact ⟨quiet, settledRest, ⟨quiet.modifiers released.toNoModifier, altFlag⟩⟩

end Tty

/-- The user types a key, or displays a terminal with Alt+Fn. -/
inductive EditingEvent where
  | key (key : Key)
  | switch (keys : List Key)

namespace Tty

def edit (t : Tty) : EditingEvent → Tty
  | .key key => t.press key
  | .switch keys => t.pressAll keys

/-- Only the keys of a switch select a terminal, every other key is up then, and no
line is ended that fills its row. -/
def EditAllows (t : Tty) : EditingEvent → Prop
  | .key key =>
      (t.modifierKeys key.scanCode).selectedTerminal key.scanCode = none ∧
        ¬(key.scanCode = ScanCode.enter ∧ t.index = bufferSize - 1)
  | .switch keys => t.Released ∧ keys.map Key.scanCode ∈ switchCodes

/-- No terminal has a line, and no modifier is down. -/
structure Ready (t : Tty) : Prop extends t.Released where
  displayed : 1 ≤ t.curTerminal ∧ t.curTerminal ≤ 3
  indices : ∀ row, 0 ≤ row → row < numTerminals → t.keyboardIndex row = 0

/-- The driver when `terminal` is displayed from the start. -/
def displaying (t : Tty) (terminal : Int) : Tty := { t with curTerminal := terminal }

theorem Released.displaying {t : Tty} {terminal : Int} (released : t.Released) :
    (t.displaying terminal).Released :=
  ⟨⟨released.shiftFlag, released.capsLockFlag, released.ctrlFlag⟩, released.altFlag⟩

/-- The two drivers have the same line and cursor on `terminal`. -/
structure SameLine (terminal : Int) (t u : Tty) : Prop where
  index : t.keyboardIndex (terminal - 1) = u.keyboardIndex (terminal - 1)
  line : ∀ k, 0 ≤ k → k < t.keyboardIndex (terminal - 1) →
    t.line (terminal - 1) k = u.line (terminal - 1) k
  x : t.screenX (terminal - 1) = u.screenX (terminal - 1)
  y : t.screenY (terminal - 1) = u.screenY (terminal - 1)

end Tty

structure EditingRecord where
  before : Tty
  event : EditingEvent
  after : Tty

structure EditingStep (t : Tty) (record : EditingRecord) (u : Tty) : Prop where
  before : record.before = t
  after : record.after = u
  allowed : t.EditAllows record.event
  performed : u = t.edit record.event

namespace EditingRecord

/-- The key typed at `terminal`, if there is one. -/
def typedAt (terminal : Int) (record : EditingRecord) : List Key :=
  match record.event with
  | .key key => if record.before.curTerminal = terminal then [key] else []
  | .switch _ => []

/-- Backspace finds the flag of an automatic newline set, and a switch finds the
automatic newline added. -/
def Careful (record : EditingRecord) : Prop :=
  match record.event with
  | .key key =>
      key.scanCode = ScanCode.backspace → 0 < record.before.index →
        record.before.load (record.before.index - 1) = newline →
        record.before.newlineFlag = true
  | .switch _ => record.before.index ≠ maxLine

end EditingRecord

/-- The keys typed at `terminal`, oldest first. -/
def ownKeys (terminal : Int) (history : List EditingRecord) : List Key :=
  history.flatMap (EditingRecord.typedAt terminal)

/-- The steps that are careful. -/
def CarefulEdit (_ : Tty) (record : EditingRecord) : Prop := record.Careful

namespace Tty

/-- The driver as `terminal` finds it: with the display, or when it gets it next. -/
def resumed (terminal : Int) (t : Tty) : Tty :=
  if t.curTerminal = terminal then t
  else
    { t with
      curTerminal := terminal
      shiftFlag := false
      capsLockFlag := false
      ctrlFlag := false
      altFlag := false }

section Resumed

variable (terminal : Int) (t : Tty)

@[simp] theorem resumed_curTerminal : (t.resumed terminal).curTerminal = terminal := by
  unfold resumed
  split
  case isTrue shown => exact shown
  case isFalse => rfl

@[simp] theorem resumed_row : (t.resumed terminal).row = terminal - 1 := by
  simp only [row, resumed_curTerminal]

@[simp] theorem resumed_keyboardBuffer :
    (t.resumed terminal).keyboardBuffer = t.keyboardBuffer := by
  unfold resumed
  split <;> rfl

@[simp] theorem resumed_keyboardIndex :
    (t.resumed terminal).keyboardIndex = t.keyboardIndex := by
  unfold resumed
  split <;> rfl

@[simp] theorem resumed_toConsole : (t.resumed terminal).toConsole = t.toConsole := by
  unfold resumed
  split <;> rfl

theorem Released.resumed {t : Tty} (released : t.Released) :
    (t.resumed terminal).Released := by
  unfold Tty.resumed
  split
  · exact released
  · exact ⟨⟨rfl, rfl, rfl⟩, rfl⟩

end Resumed

/-- `u` has done alone what `t` has done on `terminal`. -/
structure Mirrors (terminal : Int) (t u : Tty) : Prop where
  rows : t.RowsInvariant
  pending : ∀ row, 0 ≤ row → row < numTerminals → row ≠ t.row →
    t.keyboardIndex row ≠ maxLine
  agree : Agree (t.resumed terminal) u
  flagged : u.WrapFlagged

theorem Agree.trans {t u v : Tty} (first : Agree t u) (second : Agree u v) : Agree t v where
  curTerminal := second.curTerminal.trans first.curTerminal
  line := by
    intro k low high
    have fromSecond := second.line k low high
    rw [first.row] at fromSecond
    exact fromSecond.trans (first.line k low high)
  index := second.index.trans first.index
  x := by
    have fromSecond := second.x
    rw [first.row] at fromSecond
    exact fromSecond.trans first.x
  y := by
    have fromSecond := second.y
    rw [first.row] at fromSecond
    exact fromSecond.trans first.y
  shiftFlag := second.shiftFlag.trans first.shiftFlag
  capsLockFlag := second.capsLockFlag.trans first.capsLockFlag
  ctrlFlag := second.ctrlFlag.trans first.ctrlFlag
  altFlag := second.altFlag.trans first.altFlag

theorem Agree.shaped {t u : Tty} (agree : Agree t u) (shaped : t.Shaped) : u.Shaped := by
  rw [Shaped, agree.row, agree.index]
  apply LineShape.congr shaped
  intro k low below
  have high := shaped.high
  exact agree.line k low (by omega)

/-- What `terminal` finds, from its own line, index and cursor and the modifiers. -/
theorem agree_resumed {terminal : Int} {t u : Tty}
    (line : ∀ k, 0 ≤ k → k < bufferSize → u.line (terminal - 1) k = t.line (terminal - 1) k)
    (index : u.keyboardIndex (terminal - 1) = t.keyboardIndex (terminal - 1))
    (x : u.screenX (terminal - 1) = t.screenX (terminal - 1))
    (y : u.screenY (terminal - 1) = t.screenY (terminal - 1))
    (first : (t.resumed terminal).Released) (second : (u.resumed terminal).Released) :
    Agree (t.resumed terminal) (u.resumed terminal) := by
  constructor
  case curTerminal => simp only [resumed_curTerminal]
  case line => simpa only [Tty.line, resumed_row, resumed_keyboardBuffer] using line
  case index => simpa only [Tty.index, resumed_row, resumed_keyboardIndex] using index
  case x => simpa only [resumed_row, resumed_toConsole] using x
  case y => simpa only [resumed_row, resumed_toConsole] using y
  case shiftFlag => rw [first.shiftFlag, second.shiftFlag]
  case capsLockFlag => rw [first.capsLockFlag, second.capsLockFlag]
  case ctrlFlag => rw [first.ctrlFlag, second.ctrlFlag]
  case altFlag => rw [first.altFlag, second.altFlag]

theorem keyPress_of_stays {t : Tty} (who : Interrupted) {scanCode : Byte}
    (stays : (t.modifierKeys scanCode).selectedTerminal scanCode = none) :
    t.keyPress who scanCode = t.keyBlocks who scanCode := by
  simp only [keyPress, keyBlocks_selectedTerminal, stays]

theorem keyPress_of_code (who : Interrupted) {scanCode : Byte} (t : Tty)
    (other : scanCode ≠ ScanCode.f1 ∧ scanCode ≠ ScanCode.f2 ∧ scanCode ≠ ScanCode.f3) :
    t.keyPress who scanCode = t.keyBlocks who scanCode := by
  apply keyPress_of_stays
  rw [selectedTerminal, if_neg]
  rintro ⟨_, isF1 | isF2 | isF3⟩
  · exact other.1 isF1
  · exact other.2.1 isF2
  · exact other.2.2 isF3

theorem keyPress_backspace (who : Interrupted) (t : Tty) :
    t.keyPress who ScanCode.backspace =
      ((t.wrapLine who).backspaceKey who ScanCode.backspace).placeCursor := by
  rw [t.keyPress_of_code who (by decide), (keyBlocks_backspace who t).2]

theorem wrapLine_full {t : Tty} (who : Interrupted) (full : t.index = maxLine) :
    (t.wrapLine who).index = 74 ∧ (t.wrapLine who).screenX t.row = 0 ∧
      (t.wrapLine who).load 73 = newline ∧ (t.wrapLine who).newlineFlag = true := by
  have wraps : t.index = maxLine ∧ t.index + 1 < bufferSize :=
    ⟨full, by rw [full]; decide⟩
  have column := (t.toConsole.putc_newline t.curTerminal who.curProcessLocal (.inl rfl)).1
  rw [wrapLine, if_pos wraps]
  refine ⟨?_, column, ?_, rfl⟩
  · change assign t.keyboardIndex t.row (t.index + 1) t.row = 74
    rw [assign_self, full]
    rfl
  · rw [full]
    exact store_line_self t maxLine newline

namespace Mirrors

variable {terminal : Int} {t u : Tty}

/-- A key typed at the terminal, and on the driver that has only this one. -/
theorem own {key other : Key} (mirrors : Mirrors terminal t u)
    (shown : t.curTerminal = terminal) (alike : other.Same key)
    (allowed : t.EditAllows (.key key))
    (careful : EditingRecord.Careful ⟨t, .key key, t.press key⟩) :
    Mirrors terminal (t.press key) (u.press other) := by
  obtain ⟨stays, notFull⟩ := allowed
  have shape := mirrors.rows.shaped
  have room : key.scanCode = ScanCode.enter → t.index ≠ bufferSize - 1 :=
    fun pressed full => notFull ⟨pressed, full⟩
  have edited := (shape.keyBlocks key.who key.scanCode room).edits
  have blocks := keyPress_of_stays key.who stays
  have agree : Agree t u := by
    have found := mirrors.agree
    rwa [resumed, if_pos shown] at found
  have blocksToo : u.press other = u.keyBlocks other.who key.scanCode := by
    have staysToo : (u.modifierKeys key.scanCode).selectedTerminal key.scanCode = none := by
      rw [selectedTerminal, (agree.modifierKeys key.scanCode).altFlag]
      exact stays
    rw [press, alike.scanCode, keyPress_of_stays other.who staysToo]
  have shapeToo := agree.shaped shape
  constructor
  case rows => exact (mirrors.rows.keyPress key.who key.scanCode).1
  case pending =>
    intro row low high different
    rw [press, blocks] at different ⊢
    rw [edited.row] at different
    rw [edited.indices row different]
    exact mirrors.pending row low high different
  case agree =>
    have stillShown : (t.press key).curTerminal = terminal := by
      rw [press, blocks, edited.curTerminal, shown]
    rw [resumed, if_pos stillShown, blocksToo, press, blocks]
    apply agree.keyBlocks key.who other.who key.scanCode shape
    · by_cases isL : key.scanCode = ScanCode.l
      · exact .inr (alike.shell (alike.scanCode.trans isL)).symm
      · exact .inl fun clears => isL clears.2
    · intro pressed positive isNewline
      rw [careful pressed positive isNewline]
      have place := shape.newlines _ (by omega) (by omega) isNewline
      apply mirrors.flagged
      · rw [agree.index]
        omega
      · rw [agree.load (by decide) (by decide), ← place]
        exact isNewline
  case flagged =>
    rw [blocksToo]
    apply mirrors.flagged.keyBlocks other.who key.scanCode shapeToo
    rw [agree.index]
    exact room

theorem another {key : Key} (mirrors : Mirrors terminal t u)
    (hidden : t.curTerminal ≠ terminal) (allowed : t.EditAllows (.key key)) :
    Mirrors terminal (t.press key) u := by
  obtain ⟨stays, notFull⟩ := allowed
  have shape := mirrors.rows.shaped
  have edited := (shape.keyBlocks key.who key.scanCode
    fun pressed full => notFull ⟨pressed, full⟩).edits
  have moved := MovesCursor.keyBlocks key.who key.scanCode t
  have blocks := keyPress_of_stays key.who stays
  have different : terminal - 1 ≠ t.row := by
    simp only [Tty.row]
    omega
  have stillHidden : (t.press key).curTerminal ≠ terminal := by
    rwa [press, blocks, edited.curTerminal]
  refine ⟨(mirrors.rows.keyPress key.who key.scanCode).1, ?_, ?_, mirrors.flagged⟩
  · intro row low high other
    rw [press, blocks] at other ⊢
    rw [edited.row] at other
    rw [edited.indices row other]
    exact mirrors.pending row low high other
  · apply Agree.trans _ mirrors.agree
    apply agree_resumed
    case line =>
      intro k low high
      rw [press, blocks]
      exact (edited.buffer _ (outside_cell low (by omega) different)).symm
    case index =>
      rw [press, blocks]
      exact (edited.indices _ different).symm
    case x =>
      rw [press, blocks]
      exact (moved.x _ different).symm
    case y =>
      rw [press, blocks]
      exact (moved.y _ different).symm
    case first =>
      rw [resumed, if_neg stillHidden]
      exact ⟨⟨rfl, rfl, rfl⟩, rfl⟩
    case second =>
      rw [resumed, if_neg hidden]
      exact ⟨⟨rfl, rfl, rfl⟩, rfl⟩

theorem settled (mirrors : Mirrors terminal t u) (careful : t.index ≠ maxLine) :
    t.Settled := by
  refine ⟨mirrors.rows.displayed, ?_⟩
  intro row low high
  by_cases shown : row = t.row
  · rw [shown]
    exact careful
  · exact mirrors.pending row low high shown

theorem switch {keys : List Key} (mirrors : Mirrors terminal t u)
    (allowed : t.EditAllows (.switch keys)) (careful : t.index ≠ maxLine) :
    Mirrors terminal (t.pressAll keys) u := by
  obtain ⟨released, switches⟩ := allowed
  have settled := mirrors.settled careful
  obtain ⟨quiet, settledAfter, releasedAfter⟩ := settled.switch released switches
  refine ⟨⟨settledAfter.displayed, ?_⟩, ?_, ?_, mirrors.flagged⟩
  · apply mirrors.rows.rows.of_eq quiet.keyboardBuffer
    intro row _ _
    rw [quiet.keyboardIndex]
  · intro row low high _
    exact settledAfter.indices row low high
  · apply Agree.trans _ mirrors.agree
    apply agree_resumed
    case line =>
      intro k _ _
      simp only [Tty.line, quiet.keyboardBuffer]
    case index => rw [quiet.keyboardIndex]
    case x => rw [quiet.screenX]
    case y => rw [quiet.screenY]
    case first => exact releasedAfter.resumed terminal
    case second => exact released.resumed terminal

theorem step {next : Tty} {record : EditingRecord} {given : List Key}
    (mirrors : Mirrors terminal t u) (taken : Guarded CarefulEdit EditingStep t record next)
    (same : List.Forall₂ Key.Same given (record.typedAt terminal)) :
    Mirrors terminal next (u.pressAll given) := by
  obtain ⟨before, event, after⟩ := record
  obtain ⟨careful, rfl, rfl, allowed, performed⟩ := taken
  dsimp only at allowed performed
  subst performed
  cases event with
  | key key =>
      simp only [EditingRecord.typedAt] at same
      by_cases shown : before.curTerminal = terminal
      · rw [if_pos shown] at same
        obtain ⟨other, _, alike, isNil, rfl⟩ := List.forall₂_cons_right_iff.mp same
        cases isNil
        exact mirrors.own shown alike allowed careful
      · rw [if_neg shown, List.forall₂_nil_right_iff] at same
        rw [same]
        exact mirrors.another shown allowed
  | switch keys =>
      rw [EditingRecord.typedAt, List.forall₂_nil_right_iff] at same
      rw [same]
      exact mirrors.switch allowed careful

theorem sameLine (mirrors : Mirrors terminal t u) (low : 1 ≤ terminal)
    (high : terminal ≤ 3) : SameLine terminal t u := by
  have agree := mirrors.agree
  have row := agree.row
  have index := agree.index
  have line := agree.line
  have x := agree.x
  have y := agree.y
  simp only [Tty.index, row, resumed_row, resumed_keyboardIndex] at index
  simp only [Tty.line, resumed_row, resumed_keyboardBuffer] at line
  simp only [resumed_row, resumed_toConsole] at x y
  have shape := mirrors.rows.rows (terminal - 1) (by omega)
    (by simp only [numTerminals]; omega)
  have size := shape.high
  exact ⟨index.symm, fun k nonneg below => (line k nonneg (by omega)).symm, x.symm,
    y.symm⟩

end Mirrors

theorem Ready.mirrors {start : Tty} (ready : start.Ready) {terminal : Int}
    (low : 1 ≤ terminal) (high : terminal ≤ 3) :
    Mirrors terminal start (start.displaying terminal) := by
  have empty : (start.displaying terminal).index = 0 :=
    ready.indices (terminal - 1) (by omega) (by simp only [numTerminals]; omega)
  constructor
  case rows =>
    refine ⟨ready.displayed, ?_⟩
    intro row nonneg inside
    rw [ready.indices row nonneg inside]
    exact .zero _
  case pending =>
    intro row nonneg inside _
    rw [ready.indices row nonneg inside]
    decide
  case agree =>
    have released := @Released.displaying start terminal ready.toReleased
    have shown : (start.displaying terminal).curTerminal = terminal := rfl
    have same : (start.displaying terminal).resumed terminal = start.displaying terminal :=
      if_pos shown
    rw [← same]
    apply agree_resumed
    case first => exact ready.toReleased.resumed terminal
    case second => exact released.resumed terminal
    case line => exact fun _ _ _ => rfl
    case index => rfl
    case x => rfl
    case y => rfl
  case flagged =>
    apply WrapFlagged.of_short
    rw [empty]
    decide

end Tty

theorem Tty.Ready.mirrors_run {start t : Tty} {history : List EditingRecord}
    {terminal : Int} (ready : start.Ready) (low : 1 ≤ terminal) (high : terminal ≤ 3)
    (run : Run (Guarded CarefulEdit EditingStep) start history t) {alone : List Key}
    (same : List.Forall₂ Key.Same alone (ownKeys terminal history)) :
    Mirrors terminal t ((start.displaying terminal).pressAll alone) := by
  apply run.follow _ (ready.mirrors low high) same
  intro state record next copy given mirrors taken typed
  exact mirrors.step taken typed

/-- What the keys typed at a terminal make of its line and its cursor does not depend
on the other terminals, in a run whose steps are all careful. -/
theorem line_editing {start t : Tty} {history : List EditingRecord} {terminal : Int}
    (ready : start.Ready) (low : 1 ≤ terminal) (high : terminal ≤ 3)
    (run : Run (Guarded CarefulEdit EditingStep) start history t) {alone : List Key}
    (same : List.Forall₂ Key.Same alone (ownKeys terminal history)) :
    Tty.SameLine terminal t ((start.displaying terminal).pressAll alone) :=
  (ready.mirrors_run low high run same).sameLine low high

instance (t : Tty) : Decidable t.Released :=
  decidable_of_iff ((t.shiftFlag = false ∧ t.capsLockFlag = false ∧ t.ctrlFlag = false) ∧
      t.altFlag = false)
    ⟨fun ⟨⟨shift, caps, ctrl⟩, alt⟩ => ⟨⟨shift, caps, ctrl⟩, alt⟩,
      fun ⟨⟨shift, caps, ctrl⟩, alt⟩ => ⟨⟨shift, caps, ctrl⟩, alt⟩⟩

instance (t : Tty) (event : EditingEvent) : Decidable (t.EditAllows event) :=
  match event with
  | .key _ => inferInstanceAs (Decidable (_ ∧ _))
  | .switch _ => inferInstanceAs (Decidable (_ ∧ _))

instance (record : EditingRecord) : Decidable record.Careful :=
  match record with
  | ⟨_, .key _, _⟩ => inferInstanceAs (Decidable (_ → _))
  | ⟨_, .switch _, _⟩ => inferInstanceAs (Decidable (_ ≠ _))

/-- Take the step an event asks for, if it is a careful one. -/
def Tty.editAdvance (t : Tty) (event : EditingEvent) : Option (EditingRecord × Tty) :=
  if t.EditAllows event ∧ EditingRecord.Careful ⟨t, event, t.edit event⟩ then
    some (⟨t, event, t.edit event⟩, t.edit event)
  else none

theorem Tty.editAdvance_step (t : Tty) (event : EditingEvent) (record : EditingRecord)
    (next : Tty) (advances : t.editAdvance event = some (record, next)) :
    Guarded CarefulEdit EditingStep t record next := by
  rw [editAdvance] at advances
  split at advances
  case isTrue both =>
    cases advances
    exact ⟨both.2, rfl, rfl, both.1, rfl⟩
  case isFalse => cases advances

theorem sampleTty_ready : sampleTty.keyboardInit.Ready := by
  refine ⟨⟨⟨rfl, rfl, rfl⟩, rfl⟩, by decide, ?_⟩
  intro row low high
  simp only [numTerminals] at high
  interval_cases row <;> rfl

/-- A key pressed while the first base shell runs. -/
def shellKey (scanCode : Byte) : Key := ⟨⟨1, 1⟩, scanCode⟩

/-- The keys of Alt+Fn. -/
def selectKeys (selecting : Byte) : List Key :=
  [ScanCode.alt, selecting, ScanCode.altRel].map shellKey

/-- A letter on the first terminal and one on the second, and Backspace on the first. -/
def sampleTyping : List EditingEvent :=
  [.key (shellKey letterA), .switch (selectKeys ScanCode.f2), .key (shellKey letterA),
    .switch (selectKeys ScanCode.f1), .key (shellKey ScanCode.backspace)]

theorem line_editing_sampleTyping :
    ∃ history t, Run (Guarded CarefulEdit EditingStep) sampleTty.keyboardInit history t ∧
      (ownKeys 1 history).map Key.scanCode = [letterA, ScanCode.backspace] ∧
      Tty.SameLine 1 t
        ((sampleTty.keyboardInit.displaying 1).pressAll (ownKeys 1 history)) := by
  obtain ⟨history, t, run, typed⟩ :=
    @exists_run_of_replay _ _ _ _ Tty.editAdvance Tty.editAdvance_step
      sampleTty.keyboardInit sampleTyping
      (fun history _ => (ownKeys 1 history).map Key.scanCode =
        [letterA, ScanCode.backspace]) _ (by decide +kernel)
  have same : List.Forall₂ Key.Same (ownKeys 1 history) (ownKeys 1 history) :=
    List.forall₂_same.mpr fun _ _ => ⟨rfl, fun _ => Iff.rfl⟩
  exact ⟨history, t, run, typed,
    line_editing sampleTty_ready (by decide) (by decide) run same⟩

/-- The scan code of the letter a coming up. -/
def letterARel : Byte := 0x9E#8

/-- As many letters as a row shows, and the release that adds the newline. -/
def fullRow : List Key := List.replicate 73 (shellKey letterA) ++ [shellKey letterARel]

namespace Tty

/-- The line ends in the automatic newline. -/
structure EndsInNewline (t : Tty) : Prop where
  index : t.index = maxLine + 1
  last : t.load maxLine = newline

section SharedFlag

variable {t : Tty} {key : Key}

theorem Released.press (released : t.Released)
    (plain : t.modifierKeys key.scanCode = t) :
    (t.modifierKeys key.scanCode).selectedTerminal key.scanCode = none ∧
      (t.press key).Released ∧ (t.press key).curTerminal = t.curTerminal := by
  have stays : (t.modifierKeys key.scanCode).selectedTerminal key.scanCode = none := by
    rw [plain, selectedTerminal, released.altFlag, if_neg]
    exact fun selects => absurd selects.1 (by decide)
  have same := SameControls.keyBlocks key.who key.scanCode t
  rw [plain] at same
  rw [Tty.press, keyPress_of_stays key.who stays]
  exact ⟨stays, ⟨⟨same.shiftFlag.trans released.shiftFlag,
    same.capsLockFlag.trans released.capsLockFlag,
    same.ctrlFlag.trans released.ctrlFlag⟩, same.altFlag.trans released.altFlag⟩,
    same.curTerminal⟩

theorem Released.letters (released : t.Released) {keys : List Key}
    (letters : ∀ key ∈ keys, key.scanCode = letterA ∨ key.scanCode = letterARel) :
    ∃ history, Run (Guarded CarefulEdit EditingStep) t history (t.pressAll keys) ∧
      (∀ terminal, ownKeys terminal history =
        if t.curTerminal = terminal then keys else []) ∧
      (t.pressAll keys).Released ∧ (t.pressAll keys).curTerminal = t.curTerminal := by
  induction keys generalizing t with
  | nil =>
      refine ⟨[], .nil, ?_, released, rfl⟩
      intro terminal
      rw [ite_self]
      rfl
  | cons key rest induction =>
      rw [List.forall_mem_cons] at letters
      obtain ⟨isLetter, later⟩ := letters
      have facts : t.modifierKeys key.scanCode = t ∧ key.scanCode ≠ ScanCode.enter ∧
          key.scanCode ≠ ScanCode.backspace := by
        rcases isLetter with code | code <;> rw [code] <;>
          exact ⟨rfl, by decide, by decide⟩
      obtain ⟨plain, notEnter, notBackspace⟩ := facts
      obtain ⟨stays, releasedFirst, shown⟩ := released.press plain
      obtain ⟨history, run, typed, releasedLast, stillShown⟩ :=
        induction releasedFirst later
      have step : Guarded CarefulEdit EditingStep t ⟨t, .key key, t.press key⟩
          (t.press key) :=
        ⟨fun pressed => (notBackspace pressed).elim, rfl, rfl,
          ⟨stays, fun full => notEnter full.1⟩, rfl⟩
      have first : Run (Guarded CarefulEdit EditingStep) t [⟨t, .key key, t.press key⟩]
          (t.press key) := @Run.snoc _ _ _ _ [] _ _ _ .nil step
      refine ⟨_, first.trans run, ?_, releasedLast, stillShown.trans shown⟩
      intro terminal
      rw [ownKeys, List.flatMap_append, ← ownKeys, ← ownKeys, typed terminal, shown]
      simp only [ownKeys, List.flatMap_singleton, EditingRecord.typedAt]
      split <;> rfl

theorem letters_typed (typing : Typing t 0) (count : Nat) (room : (count : Int) ≤ maxLine) :
    Typing (t.pressAll (List.replicate count (shellKey letterA))) count := by
  induction count with
  | zero => exact typing
  | succ count induction =>
      push_cast at room ⊢
      have typed := induction (by omega)
      have next := typed.keyPress ⟨1, 1⟩ (if_neg (by omega)) (by
        simp only [maxLine] at room
        simp only [bufferSize]
        omega)
      rw [List.replicate_succ', pressAll_concat]
      exact next

theorem fullRow_wraps (released : t.Released) (empty : t.index = 0) :
    (t.pressAll fullRow).EndsInNewline ∧ (t.pressAll fullRow).newlineFlag = true := by
  have typed := letters_typed ⟨released.ctrlFlag, released.altFlag, empty⟩ 73 (by decide)
  rw [fullRow, pressAll_concat]
  generalize t.pressAll (List.replicate 73 (shellKey letterA)) = u at typed
  have plain : u.modifierKeys letterARel = u := rfl
  have pressed : u.press (shellKey letterARel) = (u.wrapLine ⟨1, 1⟩).placeCursor := by
    rw [press, shellKey, u.keyPress_of_code _ (by decide), u.keyBlocks_idle_wrap _ (by decide),
      plain]
  obtain ⟨index, _, isNewline, flagged⟩ := wrapLine_full ⟨1, 1⟩ typed.index
  rw [pressed]
  exact ⟨⟨index, isNewline⟩, flagged⟩

/-- Backspace erases the letter with the newline, or only the newline. -/
theorem EndsInNewline.backspace (ends : t.EndsInNewline) :
    (t.press (shellKey ScanCode.backspace)).index =
        (if t.newlineFlag then maxLine - 1 else maxLine) ∧
      (t.newlineFlag → (t.press (shellKey ScanCode.backspace)).newlineFlag = false) := by
  have last : t.load (t.index - 1) = newline := by
    rw [ends.index, Int.add_sub_cancel]
    exact ends.last
  have positive : 0 < t.index := by
    rw [ends.index]
    decide
  have inside : t.index ≤ bufferSize - 1 := by
    rw [ends.index]
    decide
  have notWrap : t.index ≠ maxLine := by
    rw [ends.index]
    decide
  obtain ⟨accesses, u, isTested, key, _⟩ := backspaceKey_cases ⟨1, 1⟩ positive inside
  have index : u.index = maxLine + 1 := by
    rw [isTested]
    exact ends.index
  have pressed : t.press (shellKey ScanCode.backspace) =
      (t.backspaceKey ⟨1, 1⟩ ScanCode.backspace).placeCursor := by
    rw [press, shellKey, t.keyPress_backspace, wrapLine_of_index _ notWrap]
  rw [pressed, key]
  by_cases flagged : t.newlineFlag
  · rw [if_pos ⟨flagged, last⟩, if_pos flagged]
    have size := @Agree.eraseNewline_index ⟨1, 1⟩ u
    rw [index] at size
    exact ⟨size.trans (by decide), fun _ => rfl⟩
  · rw [if_neg fun both => flagged both.1, if_neg flagged, last, if_neg (by decide)]
    have size := @Agree.eraseChar_index u ⟨1, 1⟩ (by rw [index]; decide)
    rw [index] at size
    exact ⟨size.trans (by decide), fun isFlagged => (flagged isFlagged).elim⟩

end SharedFlag

theorem Settled.select {t : Tty} (settled : t.Settled) {selecting : Byte}
    (isFn : selecting = ScanCode.f1 ∨ selecting = ScanCode.f2 ∨ selecting = ScanCode.f3) :
    (t.pressAll (selectKeys selecting)).curTerminal =
      (selecting.toNat : Int) - fOffset.toNat := by
  have noAlt : ScanCode.alt ≠ ScanCode.f1 ∧ ScanCode.alt ≠ ScanCode.f2 ∧
      ScanCode.alt ≠ ScanCode.f3 := by decide
  have isSelecting : Selecting (shellKey selecting).scanCode := by
    rcases isFn with rfl | rfl | rfl <;> decide
  have codes : selecting ≠ ScanCode.alt ∧ selecting ≠ ScanCode.altRel := by
    rcases isFn with rfl | rfl | rfl <;> decide
  -- Alt goes down
  have isAlt : Selecting (shellKey ScanCode.alt).scanCode := .inl rfl
  obtain ⟨_, settledAlt, held⟩ := settled.press isAlt
  rw [isAlt.modifierKeys t] at held
  change (t.press (shellKey ScanCode.alt)).altFlag = true at held
  -- the function key selects
  obtain ⟨_, settledFn, _⟩ := settledAlt.press isSelecting
  obtain ⟨_, _, shown⟩ := isSelecting.keyPress ⟨1, 1⟩ settledAlt.index
  have selects : ((t.press (shellKey ScanCode.alt)).modifierKeys
      (shellKey selecting).scanCode).selectedTerminal (shellKey selecting).scanCode =
        some ((selecting.toNat : Int) - fOffset.toNat) := by
    have stillHeld : ((t.press (shellKey ScanCode.alt)).modifierKeys
        (shellKey selecting).scanCode).altFlag = true := by
      rw [isSelecting.modifierKeys]
      exact (if_neg codes.1).trans ((if_neg codes.2).trans held)
    exact if_pos ⟨stillHeld, isFn⟩
  rw [selects] at shown
  -- Alt comes up
  have isAltRel : Selecting (shellKey ScanCode.altRel).scanCode := .inr (.inl rfl)
  obtain ⟨_, _, stillShown⟩ := isAltRel.keyPress ⟨1, 1⟩ settledFn.index
  have stays : (((t.press (shellKey ScanCode.alt)).press (shellKey selecting)).modifierKeys
      (shellKey ScanCode.altRel).scanCode).selectedTerminal
        (shellKey ScanCode.altRel).scanCode = none := by
    rw [selectedTerminal, if_neg]
    exact fun both => absurd both.2 (by decide)
  rw [stays] at stillShown
  exact stillShown.trans shown

end Tty

theorem Tty.Settled.selectStep {t : Tty} (settled : t.Settled) (released : t.Released)
    {selecting : Byte} (isFn : selecting = ScanCode.f1 ∨ selecting = ScanCode.f2 ∨
      selecting = ScanCode.f3) :
    ∃ record u, Guarded CarefulEdit EditingStep t record u ∧
      (∀ terminal, record.typedAt terminal = []) ∧
      u.curTerminal = (selecting.toNat : Int) - fOffset.toNat ∧ u.Released ∧
      u.newlineFlag = t.newlineFlag := by
  have codes : (selectKeys selecting).map Key.scanCode ∈ switchCodes := by
    rcases isFn with rfl | rfl | rfl <;> decide
  obtain ⟨quiet, _, releasedAfter⟩ := settled.switch released codes
  exact ⟨⟨t, .switch (selectKeys selecting), t.pressAll (selectKeys selecting)⟩, _,
    ⟨settled.index, rfl, rfl, ⟨released, codes⟩, rfl⟩, fun _ => rfl,
    settled.select isFn, releasedAfter, quiet.newlineFlag⟩

theorem Tty.Released.backspaceStep {t : Tty} (released : t.Released) :
    EditingStep t ⟨t, .key (shellKey ScanCode.backspace),
        t.press (shellKey ScanCode.backspace)⟩
        (t.press (shellKey ScanCode.backspace)) ∧
      (t.press (shellKey ScanCode.backspace)).Released ∧
      (t.press (shellKey ScanCode.backspace)).curTerminal = t.curTerminal := by
  obtain ⟨stays, releasedAfter, shown⟩ := @Tty.Released.press t
    (shellKey ScanCode.backspace) released (modifierKeys_backspace t)
  exact ⟨⟨rfl, rfl, ⟨stays, fun full => absurd full.1 (by decide)⟩, rfl⟩, releasedAfter,
    shown⟩

theorem typedAt_key (terminal : Int) (t u : Tty) (key : Key) :
    EditingRecord.typedAt terminal ⟨t, .key key, u⟩ =
      if t.curTerminal = terminal then [key] else [] := rfl

theorem ownKeys_concat (terminal : Int) (history : List EditingRecord)
    (record : EditingRecord) :
    ownKeys terminal (history ++ [record]) =
      ownKeys terminal history ++ record.typedAt terminal := by
  rw [ownKeys, List.flatMap_append, List.flatMap_singleton]
  rfl

theorem same_refl (keys : List Key) : List.Forall₂ Key.Same keys keys :=
  List.forall₂_same.mpr fun _ _ => ⟨rfl, fun _ => Iff.rfl⟩

/-- A full row on the first terminal, then one on the second, which is erased back over
its newline, and the first terminal again. -/
theorem sharedFlag_run {start : Tty} (ready : start.Ready) (shown : start.curTerminal = 1) :
    ∃ history t, Run (Guarded CarefulEdit EditingStep) start history t ∧
      ownKeys 1 history = fullRow ∧ t.curTerminal = 1 ∧ t.Released ∧
      t.newlineFlag = false := by
  have letters : ∀ key ∈ fullRow, key.scanCode = letterA ∨ key.scanCode = letterARel := by
    decide
  have mirrors : ∀ {history t}, Run (Guarded CarefulEdit EditingStep) start history t →
      ∀ terminal, 1 ≤ terminal → terminal ≤ 3 →
        Tty.Mirrors terminal t
          ((start.displaying terminal).pressAll (ownKeys terminal history)) :=
    fun run terminal low high => ready.mirrors_run low high run (same_refl _)
  have noLine : start.index = 0 := ready.indices _ (by rw [Tty.row, shown]; decide)
    (by rw [Tty.row, shown]; decide)
  obtain ⟨first, firstRun, firstOwn, firstReleased, _⟩ :=
    ready.toReleased.letters letters
  obtain ⟨firstEnds, _⟩ := Tty.fullRow_wraps ready.toReleased noLine
  have firstSettled := (mirrors firstRun 1 (by decide) (by decide)).settled
    (by rw [firstEnds.index]; decide)
  obtain ⟨toSecond, t, switched, noKeys, isSecond, released, _⟩ :=
    firstSettled.selectStep firstReleased (.inr (.inl rfl))
  have secondShown : t.curTerminal = 2 := isSecond.trans (by decide)
  have switchedRun := firstRun.snoc switched
  have empty : t.index = 0 := by
    have line := (mirrors switchedRun 2 (by decide) (by decide)).sameLine (by decide)
      (by decide)
    have noOwn : ownKeys 2 (first ++ [toSecond]) = [] := by
      rw [ownKeys_concat, noKeys, firstOwn, shown]
      rfl
    rw [noOwn] at line
    rw [Tty.index, Tty.row, secondShown, line.index]
    exact ready.indices 1 (by decide) (by decide)
  obtain ⟨second, secondRun, secondOwn, secondReleased, stillShown⟩ :=
    released.letters letters
  obtain ⟨secondEnds, flagged⟩ := Tty.fullRow_wraps released empty
  have typedRun := switchedRun.trans secondRun
  generalize t.pressAll fullRow = u at *
  obtain ⟨erases, erasedReleased, _⟩ := secondReleased.backspaceStep
  have careful : CarefulEdit u ⟨u, .key (shellKey ScanCode.backspace),
    u.press (shellKey ScanCode.backspace)⟩ := fun _ _ _ => flagged
  have erasedRun := typedRun.snoc
    (show Guarded CarefulEdit EditingStep u _ _ from ⟨careful, erases⟩)
  obtain ⟨erased, cleared⟩ := secondEnds.backspace
  rw [if_pos flagged] at erased
  have erasedSettled := (mirrors erasedRun 1 (by decide) (by decide)).settled
    (by rw [erased]; decide)
  obtain ⟨toFirst, v, back, noKeysBack, isFirst, backReleased, sameFlag⟩ :=
    erasedSettled.selectStep erasedReleased (.inl rfl)
  refine ⟨_, v, erasedRun.snoc back, ?_, isFirst.trans (by decide), backReleased,
    sameFlag.trans (cleared flagged)⟩
  have hidden : u.curTerminal ≠ 1 := by
    rw [stillShown, secondShown]
    decide
  have typed : ownKeys 1 (first ++ [toSecond] ++ second) = fullRow := by
    rw [ownKeys, List.flatMap_append, ← ownKeys, ← ownKeys, ownKeys_concat, noKeys,
      firstOwn, secondOwn, shown, secondShown]
    rfl
  rw [ownKeys_concat, noKeysBack, ownKeys_concat, typedAt_key, if_neg hidden, typed]
  rfl

/-- The newline of the first terminal stays when the second terminal has erased its own:
there Backspace has cleared the flag. -/
theorem line_editing_sharedFlag :
    ¬∀ start t history terminal, Tty.Ready start → 1 ≤ terminal → terminal ≤ 3 →
      Run EditingStep start history t →
      ∀ alone, List.Forall₂ Key.Same alone (ownKeys terminal history) →
        Tty.SameLine terminal t ((start.displaying terminal).pressAll alone) := by
  intro independent
  obtain ⟨start, ready, shown⟩ : ∃ start : Tty, start.Ready ∧ start.curTerminal = 1 :=
    ⟨_, sampleTty_ready, rfl⟩
  obtain ⟨history, t, run, keys, displayed, released, cleared⟩ :=
    sharedFlag_run ready shown
  -- the first terminal still shows its row
  have agree := (ready.mirrors_run (show (1 : Int) ≤ 1 by decide) (by decide) run
    (same_refl _)).agree
  rw [keys, Tty.resumed, if_pos displayed] at agree
  obtain ⟨aloneEnds, flagged⟩ := @Tty.fullRow_wraps (start.displaying 1)
    ready.toReleased.displaying (ready.indices 0 (by decide) (by decide))
  obtain ⟨erases, _, erasedShown⟩ := released.backspaceStep
  have same := independent start _ _ 1 ready (by decide) (by decide)
    (run.unguarded.snoc erases) (fullRow ++ [shellKey ScanCode.backspace])
    (by
      rw [ownKeys_concat, keys, typedAt_key, if_pos displayed]
      exact same_refl _)
  rw [Tty.pressAll_concat] at same
  generalize (start.displaying 1).pressAll fullRow = alone at *
  have ends : t.EndsInNewline :=
    ⟨agree.index.symm.trans aloneEnds.index,
      (agree.load (by decide) (by decide)).symm.trans aloneEnds.last⟩
  have aloneReleased : alone.Released :=
    ⟨⟨agree.shiftFlag.trans released.shiftFlag,
      agree.capsLockFlag.trans released.capsLockFlag,
      agree.ctrlFlag.trans released.ctrlFlag⟩, agree.altFlag.trans released.altFlag⟩
  obtain ⟨_, _, aloneShown⟩ := aloneReleased.backspaceStep
  -- and Backspace does not do on it what it does alone
  have erased := ends.backspace.1
  have aloneErased := aloneEnds.backspace.1
  rw [if_neg (by rw [cleared]; decide), Tty.index, Tty.row, erasedShown, displayed]
    at erased
  rw [if_pos flagged, Tty.index, Tty.row, aloneShown, agree.curTerminal, displayed]
    at aloneErased
  exact absurd (erased.symm.trans (same.index.trans aloneErased)) (by decide)

end LightweightOs
