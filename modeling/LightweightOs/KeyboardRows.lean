import LightweightOs.Keyboard
import LightweightOs.Library.Transition
import LightweightOs.LineShape

/-!
# Rows of the keyboard buffer

Every block of `keyboard_handler` edits the row of the displayed terminal and
keeps the shape of the line in it.  Two stores are not covered: Enter on a full
line ends it in the first byte of the next row, and `terminal_read` always
looks at that byte.  Neither moves an index out of its row, since the byte is
overwritten with `'\0'` alone.
-/

namespace LightweightOs

namespace Tty

/-- `keyboard_buffer[row]`, continued over what follows it in memory. -/
def line (t : Tty) (row : Int) : Int → Byte := fun k => t.keyboardBuffer (cell row k)

/-- The line being typed on the displayed terminal has its shape. -/
def Shaped (t : Tty) : Prop := LineShape (t.line t.row) t.index

def InRow (access : Int × Int) : Prop := 0 ≤ access.2 ∧ access.2 ≤ bufferSize - 1

/-- The byte belongs to another row, or to no row. -/
def Outside (row c : Int) : Prop := c < cell row 0 ∨ cell row bufferSize ≤ c

/-- Between the two states only the row of the displayed terminal is used. -/
structure EditsRow (t u : Tty) : Prop where
  curTerminal : u.curTerminal = t.curTerminal
  indices : ∀ row, row ≠ t.row → u.keyboardIndex row = t.keyboardIndex row
  buffer : ∀ c, Outside t.row c → u.keyboardBuffer c = t.keyboardBuffer c
  accesses : ∃ new, u.accesses = new ++ t.accesses ∧ ∀ access ∈ new, InRow access

section Cells

variable {row other k j : Int}

theorem cell_injective : cell row k = cell row j ↔ k = j := by
  simp [cell]

theorem outside_cell (low : 0 ≤ k) (high : k ≤ bufferSize - 1)
    (different : other ≠ row) : Outside row (cell other k) := by
  simp only [Outside, cell, bufferSize] at *
  omega

theorem cell_ne_of_outside {c : Int} (low : 0 ≤ k) (high : k ≤ bufferSize - 1)
    (outside : Outside row c) : c ≠ cell row k := by
  simp only [Outside, cell, bufferSize] at *
  omega

theorem cell_bufferSize : cell row bufferSize = cell (row + 1) 0 := by
  simp only [cell, bufferSize]
  omega

end Cells

section Primitives

variable (t : Tty) (who : Interrupted) (k value : Int) (c : Byte)

@[simp] theorem store_row : (t.store k c).row = t.row := rfl

@[simp] theorem store_index : (t.store k c).index = t.index := rfl

@[simp] theorem touch_row : (t.touch k).row = t.row := rfl

@[simp] theorem touch_index : (t.touch k).index = t.index := rfl

@[simp] theorem touch_line : (t.touch k).line = t.line := rfl

@[simp] theorem putcKeyboard_row : (t.putcKeyboard who c).row = t.row := rfl

@[simp] theorem putcKeyboard_index : (t.putcKeyboard who c).index = t.index := rfl

@[simp] theorem putcKeyboard_line : (t.putcKeyboard who c).line = t.line := rfl

@[simp] theorem retreat_row : t.retreat.row = t.row := rfl

@[simp] theorem retreat_index : t.retreat.index = t.index := rfl

@[simp] theorem retreat_line : t.retreat.line = t.line := rfl

@[simp] theorem setIndex_row : (t.setIndex value).row = t.row := rfl

@[simp] theorem setIndex_line : (t.setIndex value).line = t.line := rfl

@[simp] theorem setIndex_index : (t.setIndex value).index = value := by
  simp [setIndex, index, row]

theorem store_line_self : (t.store k c).line t.row k = c := by
  simp [store, line]

theorem store_line_of_ne {j : Int} (different : j ≠ k) :
    (t.store k c).line t.row j = t.line t.row j := by
  simp [store, line, touch, cell_injective, different]

end Primitives

namespace EditsRow

variable {t u v : Tty} (who : Interrupted)

theorem row (edits : EditsRow t u) : u.row = t.row := by
  simp only [Tty.row, edits.curTerminal]

theorem trans (first : EditsRow t u) (second : EditsRow u v) : EditsRow t v where
  curTerminal := second.curTerminal.trans first.curTerminal
  indices := by
    intro row different
    have fromFirst := first.indices row different
    rw [← first.row] at different
    exact (second.indices row different).trans fromFirst
  buffer := by
    intro c outside
    have fromFirst := first.buffer c outside
    rw [← first.row] at outside
    exact (second.buffer c outside).trans fromFirst
  accesses := by
    obtain ⟨new, isNew, inside⟩ := first.accesses
    obtain ⟨newer, isNewer, insideLater⟩ := second.accesses
    refine ⟨newer ++ new, by rw [isNewer, isNew, List.append_assoc], ?_⟩
    intro access member
    rcases List.mem_append.mp member with late | early
    · exact insideLater access late
    · exact inside access early

theorem quiet (curTerminal : u.curTerminal = t.curTerminal)
    (indices : ∀ row, row ≠ t.row → u.keyboardIndex row = t.keyboardIndex row)
    (buffer : u.keyboardBuffer = t.keyboardBuffer) (accesses : u.accesses = t.accesses) :
    EditsRow t u where
  curTerminal := curTerminal
  indices := indices
  buffer := fun c _ => by rw [buffer]
  accesses := ⟨[], by simpa using accesses, by simp⟩

theorem refl (t : Tty) : EditsRow t t := quiet rfl (fun _ _ => rfl) rfl rfl

theorem touch {k : Int} (low : 0 ≤ k) (high : k ≤ bufferSize - 1) :
    EditsRow t (t.touch k) where
  curTerminal := rfl
  indices := fun _ _ => rfl
  buffer := fun _ _ => rfl
  accesses := ⟨[(t.row, k)], rfl, List.forall_mem_singleton.mpr ⟨low, high⟩⟩

theorem store {k : Int} (low : 0 ≤ k) (high : k ≤ bufferSize - 1) (c : Byte) :
    EditsRow t (t.store k c) where
  curTerminal := rfl
  indices := fun _ _ => rfl
  buffer := fun _ outside =>
    Function.update_of_ne (cell_ne_of_outside low high outside) _ _
  accesses := ⟨[(t.row, k)], rfl, List.forall_mem_singleton.mpr ⟨low, high⟩⟩

theorem setIndex (value : Int) : EditsRow t (t.setIndex value) :=
  quiet rfl (fun _ different => Function.update_of_ne different _ _) rfl rfl

theorem putcKeyboard (c : Byte) : EditsRow t (t.putcKeyboard who c) :=
  quiet rfl (fun _ _ => rfl) rfl rfl

theorem retreat (t : Tty) : EditsRow t t.retreat := quiet rfl (fun _ _ => rfl) rfl rfl

theorem otherShape (edits : EditsRow t u) {row : Int} (different : row ≠ t.row)
    (shape : LineShape (t.line row) (t.keyboardIndex row)) :
    LineShape (u.line row) (u.keyboardIndex row) := by
  rw [edits.indices row different]
  apply shape.congr
  intro k nonneg below
  exact edits.buffer _ (outside_cell nonneg (by have := shape.high; omega) different)

end EditsRow

/-- `c` has been added to the line. -/
structure Types (t u : Tty) (c : Byte) : Prop where
  edits : EditsRow t u
  index : u.index = t.index + 1
  last : u.line t.row t.index = c
  below : ∀ k, k < t.index → u.line t.row k = t.line t.row k

/-- `count` tabs have been added to the line. -/
structure Fills (t u : Tty) (count : Nat) : Prop where
  edits : EditsRow t u
  index : u.index = t.index + count
  filled : ∀ k, t.index ≤ k → k < t.index + count → u.line t.row k = tab
  below : ∀ k, k < t.index → u.line t.row k = t.line t.row k

/-- The line has been cut back to `size` characters. -/
structure Cuts (t u : Tty) (size : Int) : Prop where
  edits : EditsRow t u
  index : u.index = size
  below : ∀ k, k < size → u.line t.row k = t.line t.row k

theorem Fills.none (t : Tty) : Fills t t 0 where
  edits := .refl t
  index := by simp
  filled := by
    intro k atLeast below
    simp only [Nat.cast_zero, add_zero] at below
    omega
  below := fun _ _ => rfl

theorem Fills.more {t u v : Tty} {count : Nat} (fills : Fills t u count)
    (types : Types u v tab) : Fills t v (count + 1) := by
  have sameRow := fills.edits.row
  have last := types.last
  have below := types.below
  rw [sameRow, fills.index] at last
  rw [sameRow, fills.index] at below
  constructor
  case edits => exact fills.edits.trans types.edits
  case index =>
    rw [types.index, fills.index]
    push_cast
    omega
  case filled =>
    intro k atLeast inside
    push_cast at inside
    rcases (show k ≤ t.index + count by omega).eq_or_lt with rfl | earlier
    · exact last
    · rw [below k earlier]
      exact fills.filled k atLeast earlier
  case below =>
    intro k inside
    rw [below k (by omega)]
    exact fills.below k inside

theorem Cuts.trans {t u v : Tty} {size smaller : Int} (first : Cuts t u size)
    (second : Cuts u v smaller) (shorter : smaller ≤ size) : Cuts t v smaller where
  edits := first.edits.trans second.edits
  index := second.index
  below := by
    intro k inside
    have later := second.below k inside
    rw [first.edits.row] at later
    rw [later]
    exact first.below k (by omega)

/-- The row in use is edited and the line in it keeps its shape. -/
structure Edited (t u : Tty) : Prop where
  edits : EditsRow t u
  shaped : u.Shaped

theorem Edited.trans {t u v : Tty} (first : Edited t u) (second : Edited u v) :
    Edited t v := ⟨first.edits.trans second.edits, second.shaped⟩

theorem Cuts.after {t u v : Tty} {size : Int} (cuts : Cuts u v size)
    (edits : EditsRow t u) (line : u.line = t.line) : Cuts t v size where
  edits := edits.trans cuts.edits
  index := cuts.index
  below := by
    have below := cuts.below
    rwa [edits.row, line] at below

theorem Cuts.edited {t u : Tty} {size : Int} (cuts : Cuts t u size)
    (shape : LineShape (u.line t.row) size) : Edited t u := by
  refine ⟨cuts.edits, ?_⟩
  rw [Shaped, cuts.edits.row, cuts.index]
  exact shape

section Blocks

variable {t : Tty} (who : Interrupted) (scanCode : Byte)

theorem types_store {c : Byte} (low : 0 ≤ t.index) (room : t.index ≤ bufferSize - 1)
    (echo : Byte) :
    Types t (((t.store t.index c).putcKeyboard who echo).setIndex (t.index + 1)) c where
  edits := ((EditsRow.store low room c).trans (.putcKeyboard who echo)).trans
    (.setIndex _)
  index := by simp
  last := by simp [store_line_self]
  below := by
    intro k inside
    simp [store_line_of_ne _ _ _ (show k ≠ t.index by omega)]

theorem Shaped.modifierKeys (shaped : t.Shaped) : Edited t (t.modifierKeys scanCode) :=
  ⟨.quiet rfl (fun _ _ => rfl) rfl rfl, shaped⟩

theorem Shaped.placeCursor (shaped : t.Shaped) : Edited t t.placeCursor :=
  ⟨.quiet rfl (fun _ _ => rfl) rfl rfl, shaped⟩

/-- Enter edits only its row unless the line is full. -/
theorem Shaped.enterKey (shaped : t.Shaped)
    (room : scanCode = ScanCode.enter → t.index ≠ bufferSize - 1) :
    Edited t (t.enterKey who scanCode) := by
  unfold Tty.enterKey
  split
  case isTrue pressed =>
    have low : 0 ≤ t.index := shaped.low
    have high : t.index < bufferSize - 1 :=
      lt_of_le_of_ne shaped.high (room pressed)
    have flagged : EditsRow t { t with enterFlag := assign t.enterFlag t.row true } :=
      .quiet rfl (fun _ _ => rfl) rfl rfl
    have first := flagged.trans (.store low (by omega) newline)
    have second := first.trans (.setIndex (t.index + 1))
    have third := second.trans
      (.store (show 0 ≤ t.index + 1 by omega) (by omega) nul)
    have fourth := third.trans (.putcKeyboard who newline)
    constructor
    case edits =>
      simp only [setIndex_index]
      exact fourth.trans (.setIndex 0)
    case shaped =>
      rw [Shaped, setIndex_index]
      exact .zero _
  case isFalse => exact ⟨.refl t, shaped⟩

theorem wrapLine_index_ne (t : Tty) : (t.wrapLine who).index ≠ maxLine := by
  unfold Tty.wrapLine
  split
  case isTrue full =>
    change ((t.store t.index newline).putcKeyboard who newline |>.setIndex
      (t.index + 1)).index ≠ maxLine
    rw [setIndex_index]
    omega
  case isFalse fits =>
    intro full
    exact fits ⟨full, by rw [full]; decide⟩

theorem Shaped.wrapLine (shaped : t.Shaped) : Edited t (t.wrapLine who) := by
  unfold Tty.wrapLine
  split
  case isTrue full =>
    obtain ⟨isFull, room⟩ := full
    have types := @types_store t who newline shaped.low (by omega) newline
    constructor
    case edits => exact types.edits.trans (.quiet rfl (fun _ _ => rfl) rfl rfl)
    case shaped =>
      change LineShape (_ : Int → Byte) (_ : Int)
      have grown : LineShape (((((t.store t.index newline).putcKeyboard who
          newline).setIndex (t.index + 1)).line t.row)) (t.index + 1) := by
        apply LineShape.append shaped (by omega)
        · rw [types.last]
          decide
        · intro _
          exact isFull
        · exact fun k _ below => types.below k below
      have index := types.index
      rw [← types.index] at grown
      exact grown
  case isFalse => exact ⟨.refl t, shaped⟩

theorem EditsRow.stores (positions : List Nat) (value : Byte) (t : Tty)
    (inside : ∀ i ∈ positions, (i : Int) ≤ bufferSize - 1) :
    EditsRow t (positions.foldl (fun t (i : Nat) => t.store i value) t) := by
  induction positions generalizing t with
  | nil => exact .refl t
  | cons i rest induction =>
      have first : EditsRow t (t.store i value) :=
        .store (by omega) (inside i (by simp)) value
      exact first.trans (induction _ fun j member => inside j (by simp [member]))

theorem Shaped.clearKey (shaped : t.Shaped) : Edited t (t.clearKey who scanCode) := by
  unfold Tty.clearKey
  split
  · have cleared := EditsRow.stores (List.range 127) nul t (by
      intro i member
      have bound := List.mem_range.mp member
      simp only [bufferSize]
      omega)
    revert cleared
    generalize (List.range 127).foldl (fun t (i : Nat) => t.store i nul) t = u
    intro cleared
    constructor
    case edits =>
      have reset := cleared.trans (.setIndex 0)
      exact reset.trans (.quiet rfl (fun _ _ => rfl) rfl rfl)
    case shaped =>
      have index := setIndex_index u 0
      change LineShape _ (u.setIndex 0).index
      rw [index]
      exact .zero _
  · exact ⟨.refl t, shaped⟩

theorem Fills.tabStore {u : Tty} {count : Nat} (fills : Fills t u count)
    (low : 0 ≤ t.index) (room : t.index + count + 2 < bufferSize) :
    Fills t (u.tabStore who) (count + 1) := by
  have index := fills.index
  rw [Tty.tabStore, if_pos (by omega)]
  exact fills.more (types_store who (by omega) (by omega) space)

theorem fills_tabStores (low : 0 ≤ t.index) (room : t.index + tabSpace < bufferSize) :
    ∃ count : Nat,
      Fills t ((((t.tabStore who).tabStore who).tabStore who).tabStore who) count ∧
        (count = 4 ∧ t.index ≠ 122 ∨ count = 3 ∧ t.index = 122) := by
  simp only [tabSpace, bufferSize] at room
  have first := (Fills.none t).tabStore who low (by simp only [bufferSize]; omega)
  have second := first.tabStore who low (by simp only [bufferSize]; omega)
  have third := second.tabStore who low (by simp only [bufferSize]; omega)
  by_cases last : t.index = 122
  · refine ⟨3, ?_, .inr ⟨rfl, last⟩⟩
    rw [Tty.tabStore, if_neg]
    · exact third
    · rw [third.index, last]
      decide
  · exact ⟨4, third.tabStore who low (by simp only [bufferSize]; omega), .inl ⟨rfl, last⟩⟩

theorem Shaped.tabKey (shaped : t.Shaped) : Edited t (t.tabKey who scanCode) := by
  unfold Tty.tabKey
  split
  case isTrue pressed =>
    obtain ⟨_, room, _⟩ := pressed
    obtain ⟨count, fills, isCount⟩ := fills_tabStores who shaped.low room
    simp only [tabSpace, bufferSize] at room
    refine ⟨fills.edits, ?_⟩
    rw [Shaped, fills.edits.row, fills.index]
    apply LineShape.appendTabs shaped
    case atLeast => omega
    case room =>
      simp only [bufferSize]
      rcases isCount with ⟨isFour, _⟩ | ⟨isThree, last⟩ <;> omega
    case aligned =>
      rcases isCount with ⟨rfl, _⟩ | ⟨rfl, last⟩
      · apply Aligned.tabs
        · exact shaped.aligned.congr fun k _ below => fills.below k below
        · exact fills.filled
      · rw [last]
        exact .late (by decide) (by decide)
    case allTabs => exact fills.filled
    case same => exact fun k _ below => fills.below k below
  case isFalse => exact ⟨.refl t, shaped⟩

theorem clearKey_index (t : Tty) :
    (t.clearKey who scanCode).index = t.index ∨ (t.clearKey who scanCode).index = 0 := by
  unfold Tty.clearKey
  split
  · right
    generalize (List.range 127).foldl (fun t (i : Nat) => t.store i nul) t = u
    exact setIndex_index u 0
  · exact .inl rfl

theorem cuts_eraseChar (low : 1 ≤ t.index) (high : t.index ≤ bufferSize - 1) :
    Cuts t (t.eraseChar who) (t.index - 1) := by
  have inside : t.index - 1 ≤ bufferSize - 1 := by omega
  have first : EditsRow t (t.store (t.index - 1) nul).retreat :=
    (EditsRow.store (by omega) inside nul).trans (.retreat _)
  have second := (first.trans (.touch (show 0 ≤ t.index - 1 by omega) inside)).trans
    (.putcKeyboard who ((t.store (t.index - 1) nul).retreat.load (t.index - 1)))
  have below : ∀ k, k < t.index - 1 →
      (t.store (t.index - 1) nul).line t.row k = t.line t.row k := by
    intro k inside
    exact store_line_of_ne t _ _ (by omega)
  simp only [Tty.eraseChar]
  split
  · constructor
    case edits =>
      exact (second.trans (.retreat _)).trans (.setIndex _)
    case index => simp
    case below => simpa using below
  · constructor
    case edits => exact second.trans (.setIndex _)
    case index => simp
    case below => simpa using below

theorem Cuts.eraseChar {u : Tty} {size : Int} (cuts : Cuts t u size) (low : 1 ≤ size)
    (high : size ≤ bufferSize - 1) : Cuts t (u.eraseChar who) (size - 1) := by
  have index := cuts.index
  have next := cuts_eraseChar who (show 1 ≤ u.index by omega) (by omega)
  rw [index] at next
  exact cuts.trans next (by omega)

theorem cuts_eraseNewline (low : 2 ≤ t.index) (high : t.index ≤ bufferSize - 1) :
    Cuts t (t.eraseNewline who) (t.index - 2) := by
  have first : EditsRow t (t.store (t.index - 1) nul) :=
    .store (by omega) (by omega) nul
  have second : EditsRow t ((t.store (t.index - 1) nul).store (t.index - 2) nul) :=
    first.trans (.store (by omega) (by omega) nul)
  constructor
  case edits =>
    have third := second.trans
      (.touch (show 0 ≤ t.index - 2 by omega) (by omega))
    exact third.trans
      (.quiet rfl (fun _ different => Function.update_of_ne different _ _) rfl rfl)
  case index => exact Function.update_self _ _ _
  case below =>
    intro k inside
    have one := store_line_of_ne t (t.index - 1) nul (show k ≠ t.index - 1 by omega)
    have two := store_line_of_ne (t.store (t.index - 1) nul) (t.index - 2) nul
      (show k ≠ t.index - 2 by omega)
    exact two.trans one

theorem Shaped.backspaceKey (shaped : t.Shaped) (notWrap : t.index ≠ maxLine) :
    Edited t (t.backspaceKey who scanCode) := by
  unfold Tty.backspaceKey
  split
  case isFalse => exact ⟨.refl t, shaped⟩
  case isTrue pressed =>
    obtain ⟨positive, high, _⟩ := pressed
    have inside : t.index - 1 ≤ bufferSize - 1 := by omega
    have tested : EditsRow t (if t.newlineFlag then t.touch (t.index - 1) else t) := by
      split
      · exact .touch (by omega) inside
      · exact .refl t
    have same : (if t.newlineFlag then t.touch (t.index - 1) else t).index = t.index ∧
        (if t.newlineFlag then t.touch (t.index - 1) else t).line = t.line := by
      split <;> exact ⟨rfl, rfl⟩
    revert tested same
    generalize (if t.newlineFlag then t.touch (t.index - 1) else t) = u
    intro tested ⟨index, line⟩
    dsimp only
    split
    case isTrue wrapped =>
      have isNewline : t.line t.row (t.index - 1) = newline := wrapped.2
      have place := shaped.newlines _ (by omega) (by omega) isNewline
      simp only [maxLine] at place
      have cuts := cuts_eraseNewline who (show 2 ≤ u.index by omega) (by omega)
      rw [index] at cuts
      apply (cuts.after tested line).edited
      exact shaped.eraseNewline positive isNewline
        fun k _ below => (cuts.after tested line).below k below
    case isFalse =>
      have touched : EditsRow t (u.touch (u.index - 1)) :=
        tested.trans (.touch (by omega) (by omega))
      have sameLine : (u.touch (u.index - 1)).line = t.line := line
      have first := (cuts_eraseChar who (show 1 ≤ (u.touch (u.index - 1)).index by
        rw [touch_index]; omega) (by rw [touch_index]; omega)).after touched sameLine
      rw [touch_index, index] at first
      split
      case isTrue isTab =>
        have atTab : t.line t.row (t.index - 1) = tab := isTab
        have low := (shaped.aligned.before_tab positive notWrap atTab).nonneg
        rw [index] at *
        have second := first.eraseChar who (by omega) (by omega)
        have third := second.eraseChar who (by omega) (by omega)
        have fourth := third.eraseChar who (by omega) (by omega)
        rw [show t.index - 1 - 1 - 1 - 1 = t.index - 4 by omega] at fourth
        exact fourth.edited (shaped.eraseTab positive notWrap atTab
          fun k _ below => fourth.below k below)
      case isFalse notTab =>
        rw [index] at *
        exact first.edited (shaped.erase positive notTab
          fun k _ below => first.below k below)

theorem lookup_plain {table : List Byte} (noTab : tab ∉ table)
    (noNewline : newline ∉ table) :
    lookup table scanCode ≠ tab ∧ lookup table scanCode ≠ newline := by
  rw [lookup, List.getD_eq_getElem?_getD]
  cases found : table[scanCode.toNat]? with
  | none => decide
  | some c =>
      have member := List.mem_of_getElem? found
      exact ⟨fun isTab => noTab (isTab ▸ member),
        fun isNewline => noNewline (isNewline ▸ member)⟩

theorem charOf_plain (t : Tty) : t.charOf scanCode ≠ tab ∧ t.charOf scanCode ≠ newline := by
  unfold charOf
  split
  · exact lookup_plain scanCode (by decide +kernel) (by decide +kernel)
  · split
    · exact lookup_plain scanCode (by decide +kernel) (by decide +kernel)
    · exact lookup_plain scanCode (by decide +kernel) (by decide +kernel)

theorem Shaped.charKey (shaped : t.Shaped) : Edited t (t.charKey who scanCode) := by
  unfold Tty.charKey
  split
  case isTrue accepted =>
    have low : 0 ≤ t.index := shaped.low
    have room : t.index < bufferSize - 1 := accepted.2.2.2.2
    obtain ⟨notTab, notNewline⟩ := charOf_plain scanCode t
    have types := @types_store t who (t.charOf scanCode) low (by omega)
    have stored : EditsRow t (t.store t.index (t.charOf scanCode)) :=
      .store low (by omega) _
    have grown : LineShape ((t.store t.index (t.charOf scanCode)).line t.row)
        (t.index + 1) := by
      apply LineShape.append shaped room
      · rw [store_line_self]
        exact notTab
      · rw [store_line_self]
        exact fun isNewline => (notNewline isNewline).elim
      · intro k _ below
        exact store_line_of_ne t _ _ (by omega)
    constructor
    case edits =>
      have touched := stored.trans (.touch (show 0 ≤ t.index from low) (by omega))
      have echoed := touched.trans (.putcKeyboard who
        ((t.store t.index (t.charOf scanCode)).load t.index))
      exact echoed.trans (.setIndex _)
    case shaped =>
      rw [Shaped, setIndex_index]
      exact grown
  case isFalse => exact ⟨.refl t, shaped⟩

theorem Shaped.afterEnter (shaped : t.Shaped) :
    Edited t ((((((t.wrapLine who).clearKey who scanCode).tabKey who scanCode).backspaceKey
      who scanCode).placeCursor).charKey who scanCode) := by
  have wrapped := shaped.wrapLine who
  have cleared := wrapped.trans (wrapped.shaped.clearKey who scanCode)
  have tabbed := cleared.trans (cleared.shaped.tabKey who scanCode)
  have erased : Edited t ((((t.wrapLine who).clearKey who scanCode).tabKey who
      scanCode).backspaceKey who scanCode) := by
    by_cases pressed : scanCode = ScanCode.backspace
    · -- only Backspace erases, and it types nothing first
      have notTab : scanCode ≠ ScanCode.tab := by
        rw [pressed]
        decide
      have noTab := tabKey_of_ne ((t.wrapLine who).clearKey who scanCode) who notTab
      rw [noTab] at tabbed ⊢
      apply tabbed.trans
      apply tabbed.shaped.backspaceKey
      rcases clearKey_index who scanCode (t.wrapLine who) with same | reset
      · rw [same]
        exact wrapLine_index_ne who t
      · rw [reset]
        decide
    · rwa [backspaceKey_of_ne _ who pressed]
  have placed := erased.trans erased.shaped.placeCursor
  exact placed.trans (placed.shaped.charKey who scanCode)

theorem Shaped.keyBlocks (shaped : t.Shaped)
    (room : scanCode = ScanCode.enter → t.index ≠ bufferSize - 1) :
    Edited t (t.keyBlocks who scanCode) := by
  have modified := shaped.modifierKeys scanCode
  have entered := modified.trans (modified.shaped.enterKey who scanCode room)
  exact entered.trans (entered.shaped.afterEnter who scanCode)

end Blocks

/-- The lines being typed on the three terminals have their shape. -/
def Rows (t : Tty) : Prop :=
  ∀ row, 0 ≤ row → row < numTerminals → LineShape (t.line row) (t.keyboardIndex row)

section Rows

variable {t u : Tty} (who : Interrupted) (scanCode : Byte)

theorem Edited.rows (edited : Edited t u) (rows : t.Rows) : u.Rows := by
  intro row low high
  by_cases own : row = t.row
  · rw [own, ← edited.edits.row]
    exact edited.shaped
  · exact edited.edits.otherShape own (rows row low high)

theorem Rows.storeEnd (rows : t.Rows) : (t.store bufferSize nul).Rows := by
  intro row low high
  have shape := rows row low high
  have size := shape.high
  by_cases after : row = t.row + 1
  · apply shape.clobber
    · have place := @cell_bufferSize t.row
      rw [← after] at place
      simp [store, line, place]
    · intro k positive below
      have different : cell row k ≠ cell t.row bufferSize := by
        simp only [cell, bufferSize] at *
        omega
      simp [store, line, touch, different]
  · apply shape.congr
    intro k nonneg below
    have different : cell row k ≠ cell t.row bufferSize := by
      simp only [cell, bufferSize] at *
      omega
    simp [store, line, touch, different]

theorem Rows.of_eq (rows : t.Rows) (buffer : u.keyboardBuffer = t.keyboardBuffer)
    (indices : ∀ row, 0 ≤ row → row < numTerminals →
      u.keyboardIndex row = t.keyboardIndex row) : u.Rows := by
  intro row low high
  have shape := rows row low high
  rw [indices row low high]
  apply shape.congr
  intro k _ _
  simp only [line, buffer]

theorem Rows.enterFull (rows : t.Rows) (shaped : t.Shaped)
    (full : t.index = bufferSize - 1) : (t.enterKey who ScanCode.enter).Rows := by
  have stored : EditsRow t ((t.store t.index newline).setIndex 0) :=
    (EditsRow.store shaped.low shaped.high newline).trans (.setIndex 0)
  have edited : Edited t ((t.store t.index newline).setIndex 0) := by
    refine ⟨stored, ?_⟩
    rw [Shaped, setIndex_index]
    exact .zero _
  apply (edited.rows rows).storeEnd.of_eq
  case buffer =>
    have next : ((t.store t.index newline).setIndex (t.index + 1)).index = bufferSize := by
      rw [setIndex_index]
      omega
    rw [enterKey, if_pos rfl]
    change assign _ (cell t.row ((t.store t.index newline).setIndex (t.index + 1)).index)
      nul = _
    rw [next]
    rfl
  case indices =>
    intro row _ _
    rw [enterKey, if_pos rfl]
    change assign (assign t.keyboardIndex t.row _) t.row 0 row =
      assign t.keyboardIndex t.row 0 row
    rw [assign, Function.update_idem]

end Rows

end Tty

end LightweightOs
