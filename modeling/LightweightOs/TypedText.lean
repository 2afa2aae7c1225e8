import LightweightOs.TabErase

/-!
# The text being typed

To the user a key adds a character and Backspace takes the last one away.  The
driver's line is that text with a newline of its own behind the 73rd character: the
next scan code adds it, and Backspace takes it away together with the character.
-/

namespace LightweightOs

/-- The character of a key under the given shift and caps lock. -/
def keyChar (shiftFlag capsLockFlag : Bool) (scanCode : Byte) : Byte :=
  if shiftFlag ∧ ¬capsLockFlag then lookup scanCodesTableShift scanCode
  else if capsLockFlag ∧ ¬shiftFlag then lookup scanCodesTableCaps scanCode
  else lookup scanCodesTable scanCode

/-- A text with a newline behind a full row. -/
def wrapped (text : List Byte) : List Byte :=
  if text.length < 73 then text else text.take 73 ++ newline :: text.drop 73

/-- What has been typed; `pending` when the newline of a full row is still to come. -/
structure Editor where
  shiftFlag : Bool
  capsLockFlag : Bool
  text : List Byte
  pending : Bool

namespace Editor

def modify (e : Editor) (scanCode : Byte) : Editor :=
  { e with
    shiftFlag :=
      if scanCode = ScanCode.leftShift ∨ scanCode = ScanCode.rightShift then true
      else if scanCode = ScanCode.leftShiftRel ∨
          scanCode = ScanCode.rightShiftRel then false
      else e.shiftFlag
    capsLockFlag :=
      if scanCode = ScanCode.capsLock then !e.capsLockFlag else e.capsLockFlag }

/-- Any scan code brings the newline of a full row. -/
def settle (e : Editor) : Editor := { e with pending := false }

def type (e : Editor) (c : Byte) : Editor :=
  { e with text := e.text ++ [c], pending := e.text.length + 1 = 73 }

def erase (e : Editor) : Editor := { e with text := e.text.dropLast }

def press (e : Editor) (scanCode : Byte) : Editor :=
  let e := (e.modify scanCode).settle
  if scanCode = ScanCode.backspace then e.erase
  else if Tty.HasChar scanCode then
    e.type (keyChar e.shiftFlag e.capsLockFlag scanCode)
  else e

def pressAll (e : Editor) (keys : List Key) : Editor :=
  keys.foldl (fun e key => e.press key.scanCode) e

/-- The line of the driver. -/
def line (e : Editor) : List Byte := if e.pending then e.text else wrapped e.text

/-- At no time are more characters typed than the driver has room for. -/
def Fits (e : Editor) (keys : List Key) : Prop :=
  ∀ typed, typed <+: keys → (e.pressAll typed).text.length ≤ 125

variable (e : Editor)

@[simp] theorem pressAll_nil : e.pressAll [] = e := rfl

theorem pressAll_concat (keys : List Key) (key : Key) :
    e.pressAll (keys ++ [key]) = (e.pressAll keys).press key.scanCode := by
  rw [pressAll, List.foldl_append]
  rfl

theorem press_length_le (scanCode : Byte) :
    (e.press scanCode).text.length ≤
      e.text.length + if Tty.HasChar scanCode then 1 else 0 := by
  simp only [press]
  split
  · change e.text.dropLast.length ≤ _
    rw [List.length_dropLast]
    omega
  · split
    · change (e.text ++ [_]).length ≤ _
      rw [List.length_append, List.length_singleton]
    · exact Nat.le_add_right _ _

theorem pressAll_length_le (keys : List Key) :
    (e.pressAll keys).text.length ≤
      e.text.length + keys.countP fun key => Tty.HasChar key.scanCode := by
  induction keys using List.reverseRecOn with
  | nil => exact le_rfl
  | append_singleton keys key induction =>
      have more := (e.pressAll keys).press_length_le key.scanCode
      rw [pressAll_concat, List.countP_append, List.countP_singleton]
      simp only [decide_eq_true_eq]
      omega

theorem fits_of_count {keys : List Key}
    (few : e.text.length + keys.countP (fun key => Tty.HasChar key.scanCode) ≤ 125) :
    e.Fits keys := by
  intro typed isPrefix
  have length := e.pressAll_length_le typed
  have fewer := isPrefix.sublist.countP_le (p := fun key => decide (Tty.HasChar key.scanCode))
  omega

theorem line_settled (settled : e.pending = false) : e.line = wrapped e.text := by
  rw [line, settled, if_neg Bool.false_ne_true]

theorem line_pending (waits : e.pending = true) : e.line = e.text := by
  rw [line, waits, if_pos rfl]

theorem line_short (short : e.text.length < 73) : e.line = e.text := by
  rw [line, wrapped, if_pos short, ite_self]

theorem line_length (settled : e.pending = false) :
    e.line.length = if e.text.length < 73 then e.text.length else e.text.length + 1 := by
  rw [line_settled e settled, wrapped]
  split
  · rfl
  · rw [List.length_append, List.length_cons, List.length_take, List.length_drop]
    omega

theorem type_line (settled : e.pending = false) (c : Byte) :
    (e.type c).line = e.line ++ [c] := by
  rw [line_settled e settled]
  by_cases full : e.text.length + 1 = 73
  · have short : e.text.length < 73 := by omega
    have waits : (e.type c).pending = true := decide_eq_true full
    rw [line, waits, if_pos rfl, wrapped, if_pos short]
    rfl
  · have comes : (e.type c).pending = false := decide_eq_false full
    have grown : (e.type c).text = e.text ++ [c] := rfl
    rw [line_settled _ comes, grown, wrapped, wrapped, List.length_append,
      List.length_singleton]
    split
    case isTrue short => rw [if_pos (by omega)]
    case isFalse long =>
      rw [if_neg (by omega), List.take_append_of_le_length (by omega),
        List.drop_append_of_le_length (by omega), List.append_assoc, List.cons_append]

theorem line_getLast? (settled : e.pending = false) :
    e.line.getLast? = if e.text.length = 73 then some newline else e.text.getLast? := by
  rw [line_settled e settled, wrapped]
  split
  case isTrue short => rw [if_neg (by omega)]
  case isFalse long =>
    rw [List.getLast?_append]
    split
    case isTrue full =>
      rw [← full, List.drop_length]
      rfl
    case isFalse longer =>
      have more : e.text.drop 73 ≠ [] := by
        rw [Ne, List.drop_eq_nil_iff]
        omega
      rw [List.getLast?_cons_of_ne_nil more, List.getLast?_drop, if_neg (by omega)]
      obtain ⟨c, isLast⟩ := Option.isSome_iff_exists.mp
        (List.getLast?_isSome.mpr fun empty : e.text = [] => more (by rw [empty]; rfl))
      rw [isLast, Option.some_or]

theorem erase_line (settled : e.pending = false) :
    e.erase.line = e.line.take (e.line.length - if e.text.length = 73 then 2 else 1) := by
  have size := e.line_length settled
  have stays : e.erase.pending = false := settled
  have cut : e.erase.text = e.text.dropLast := rfl
  rw [line_settled _ stays, cut, size, line_settled e settled, wrapped, wrapped,
    List.length_dropLast]
  by_cases short : e.text.length < 73
  · rw [if_pos (by omega), if_pos short, if_pos short, if_neg (by omega),
      List.dropLast_eq_take]
  · rw [if_neg short, if_neg short]
    by_cases full : e.text.length = 73
    · rw [if_pos (by omega), if_pos full, full, List.dropLast_eq_take, full,
        List.take_append_of_le_length (by rw [List.length_take]; omega), List.take_take]
      rfl
    · have row : min 73 (e.text.length - 1) = 73 := by omega
      have rowToo : min (e.text.length + 1 - 1) 73 = 73 := by omega
      have behind : e.text.length + 1 - 1 - min 73 e.text.length =
          e.text.length - 1 - 73 + 1 := by omega
      rw [if_neg (by omega), if_neg full, List.dropLast_eq_take, List.take_append,
        List.length_take, List.take_take, List.take_take, row, rowToo, behind,
        List.take_succ_cons, List.drop_take]

theorem erase_line_length (settled : e.pending = false) :
    e.erase.line.length = e.line.length - if e.text.length = 73 then 2 else 1 := by
  rw [erase_line e settled, List.length_take]
  exact Nat.min_eq_left (Nat.sub_le _ _)

end Editor

namespace Tty

theorem keyChar_plain {scanCode : Byte} (hasChar : HasChar scanCode)
    (shiftFlag capsLockFlag : Bool) :
    keyChar shiftFlag capsLockFlag scanCode ≠ tab ∧
      keyChar shiftFlag capsLockFlag scanCode ≠ newline ∧
      keyChar shiftFlag capsLockFlag scanCode ≠ nul := by
  have tables : ∀ code < 58, scanCodesTable.getD code nul ≠ nul →
      scanCodesTableShift.getD code nul ≠ nul ∧ scanCodesTableCaps.getD code nul ≠ nul := by
    decide +kernel
  obtain ⟨shifted, capital⟩ := tables scanCode.toNat hasChar.1 hasChar.2
  unfold keyChar
  split
  · obtain ⟨notTab, notNewline⟩ := @lookup_plain scanCode scanCodesTableShift
      (by decide +kernel) (by decide +kernel)
    exact ⟨notTab, notNewline, shifted⟩
  · split
    · obtain ⟨notTab, notNewline⟩ := @lookup_plain scanCode scanCodesTableCaps
        (by decide +kernel) (by decide +kernel)
      exact ⟨notTab, notNewline, capital⟩
    · obtain ⟨notTab, notNewline⟩ := @lookup_plain scanCode scanCodesTable
        (by decide +kernel) (by decide +kernel)
      exact ⟨notTab, notNewline, hasChar.2⟩

/-- The scan codes of editing: no Enter, no Tab, and neither Ctrl nor Alt go down. -/
def TextCode (scanCode : Byte) : Prop :=
  scanCode ≠ ScanCode.enter ∧ scanCode ≠ ScanCode.tab ∧ scanCode ≠ ScanCode.ctrl ∧
    scanCode ≠ ScanCode.alt

instance (scanCode : Byte) : Decidable (TextCode scanCode) :=
  inferInstanceAs (Decidable (_ ∧ _ ∧ _ ∧ _))

/-- The displayed terminal's row holds the line of the text. -/
structure Holds (t : Tty) (e : Editor) : Prop where
  index : t.index = e.line.length
  row : ∀ k : Nat, ∀ c, e.line[k]? = some c → t.line t.row k = c
  plain : ∀ c ∈ e.text, c ≠ tab ∧ c ≠ newline ∧ c ≠ nul
  full : e.pending = true → e.text.length = 73
  newlineFlag : e.pending = false → 73 ≤ e.text.length → t.newlineFlag = true
  shiftFlag : t.shiftFlag = e.shiftFlag
  capsLockFlag : t.capsLockFlag = e.capsLockFlag
  ctrlFlag : t.ctrlFlag = false
  altFlag : t.altFlag = false

/-- Nothing has been typed yet. -/
def editor (t : Tty) : Editor := ⟨t.shiftFlag, t.capsLockFlag, [], false⟩

theorem editor_holds {t : Tty} (empty : t.index = 0) (ctrlUp : t.ctrlFlag = false)
    (altUp : t.altFlag = false) : t.Holds t.editor where
  index := empty
  row := by
    intro k c found
    cases found
  plain := by
    intro c member
    cases member
  full := fun waits => absurd waits Bool.false_ne_true
  newlineFlag := fun _ long => absurd long (show ¬73 ≤ 0 by decide)
  shiftFlag := rfl
  capsLockFlag := rfl
  ctrlFlag := ctrlUp
  altFlag := altUp

namespace Holds

variable {t u : Tty} {e : Editor} {scanCode : Byte} (who : Interrupted)

theorem of_same (holds : t.Holds e) (controls : SameControls t u) (index : u.index = t.index)
    (line : u.line = t.line) (newlineFlag : u.newlineFlag = t.newlineFlag) : u.Holds e where
  index := index.trans holds.index
  row := by
    rw [line, controls.row]
    exact holds.row
  plain := holds.plain
  full := holds.full
  newlineFlag := by
    rw [newlineFlag]
    exact holds.newlineFlag
  shiftFlag := controls.shiftFlag.trans holds.shiftFlag
  capsLockFlag := controls.capsLockFlag.trans holds.capsLockFlag
  ctrlFlag := controls.ctrlFlag.trans holds.ctrlFlag
  altFlag := controls.altFlag.trans holds.altFlag

theorem modifierKeys (holds : t.Holds e) (text : TextCode scanCode) :
    (t.modifierKeys scanCode).Holds (e.modify scanCode) := by
  obtain ⟨_, _, notCtrl, notAlt⟩ := text
  constructor
  case index => exact holds.index
  case row => exact holds.row
  case plain => exact holds.plain
  case full => exact holds.full
  case newlineFlag => exact holds.newlineFlag
  case shiftFlag =>
    simp only [Tty.modifierKeys, Editor.modify, holds.shiftFlag]
  case capsLockFlag =>
    simp only [Tty.modifierKeys, Editor.modify, holds.capsLockFlag]
  case ctrlFlag =>
    simp only [Tty.modifierKeys, if_neg notCtrl, holds.ctrlFlag, ite_self]
  case altFlag =>
    simp only [Tty.modifierKeys, if_neg notAlt, holds.altFlag, ite_self]

theorem notFull (holds : t.Holds e) (settled : e.pending = false) : t.index ≠ maxLine := by
  rw [holds.index, e.line_length settled]
  simp only [maxLine]
  split <;> omega

theorem isFull (holds : t.Holds e) (waits : e.pending = true) : t.index = maxLine := by
  rw [holds.index, e.line_pending waits, holds.full waits]
  rfl

theorem wrapLine (holds : t.Holds e) : (t.wrapLine who).Holds e.settle := by
  have controls := SameControls.wrapLine who t
  cases waits : e.pending with
  | false =>
      have settled : e.settle = e := by
        rw [Editor.settle, ← waits]
      rw [wrapLine_of_index who (holds.notFull waits), settled]
      exact holds
  | true =>
      have length := holds.full waits
      have shown := e.line_pending waits
      have isFull := holds.isFull waits
      have line : e.settle.line = e.text ++ [newline] := by
        have isSettled : e.settle.pending = false := rfl
        have same : e.settle.text = e.text := rfl
        rw [Editor.line_settled _ isSettled, same, wrapped, if_neg (by omega), ← length,
          List.take_length, List.drop_length]
      have wraps : t.index = maxLine ∧ t.index + 1 < bufferSize :=
        ⟨isFull, by rw [isFull]; decide⟩
      have types := @types_store t who newline (by rw [isFull]; decide)
        (by rw [isFull]; decide) newline
      obtain ⟨wrappedIndex, _, isNewline, flagged⟩ := wrapLine_full who isFull
      constructor
      case index =>
        rw [line, List.length_append, length, wrappedIndex]
        rfl
      case row =>
        intro k c found
        rw [line] at found
        rcases lt_or_ge k e.text.length with typed | last
        · rw [List.getElem?_append_left typed, ← shown] at found
          rw [controls.row, Tty.wrapLine, if_pos wraps]
          have kept := types.below k (by rw [holds.index, shown]; omega)
          exact kept.trans (holds.row k c found)
        · have isLast : k = 73 := by
            have bound := (List.getElem?_eq_some_iff.mp found).1
            rw [List.length_append, List.length_singleton] at bound
            omega
          rw [List.getElem?_append_right last, isLast, length] at found
          rw [isLast]
          exact isNewline.trans (Option.some.inj found)
      case plain => exact holds.plain
      case full => exact fun waiting => absurd waiting Bool.false_ne_true
      case newlineFlag => exact fun _ _ => flagged
      case shiftFlag => exact controls.shiftFlag.trans holds.shiftFlag
      case capsLockFlag => exact controls.capsLockFlag.trans holds.capsLockFlag
      case ctrlFlag => exact controls.ctrlFlag.trans holds.ctrlFlag
      case altFlag => exact controls.altFlag.trans holds.altFlag

theorem accepts (holds : t.Holds e) (settled : e.pending = false) (hasChar : HasChar scanCode)
    (room : e.text.length ≤ 124) : t.acceptsChar scanCode := by
  have length := e.line_length settled
  refine ⟨hasChar.1, hasChar.2, holds.ctrlFlag, holds.altFlag, ?_⟩
  rw [holds.index, length]
  simp only [bufferSize]
  split <;> omega

theorem charKey (holds : t.Holds e) (settled : e.pending = false) (hasChar : HasChar scanCode)
    (room : e.text.length ≤ 124) :
    (t.charKey who scanCode).Holds
      (e.type (keyChar e.shiftFlag e.capsLockFlag scanCode)) := by
  have controls := SameControls.charKey who scanCode t
  have index := holds.index
  have accepted := holds.accepts settled hasChar room
  have high := accepted.2.2.2.2
  have isChar : t.charOf scanCode = keyChar e.shiftFlag e.capsLockFlag scanCode := by
    rw [← holds.shiftFlag, ← holds.capsLockFlag]
    rfl
  have types := @types_store t who (t.charOf scanCode) (by omega) (by omega)
    ((t.store t.index (t.charOf scanCode)).load t.index)
  rw [Tty.charKey, if_pos accepted] at controls ⊢
  rw [isChar] at types
  have line := e.type_line settled (keyChar e.shiftFlag e.capsLockFlag scanCode)
  constructor
  case index =>
    have grown := types.index
    rw [line, List.length_append, List.length_singleton]
    push_cast
    rw [← index, ← grown, isChar]
    rfl
  case row =>
    intro k c found
    rw [line] at found
    rw [isChar]
    rcases lt_or_ge k e.line.length with before | last
    · rw [List.getElem?_append_left before] at found
      exact (types.below k (by omega)).trans (holds.row k c found)
    · have isLast : k = e.line.length := by
        have bound := (List.getElem?_eq_some_iff.mp found).1
        rw [List.length_append, List.length_singleton] at bound
        omega
      have place : (k : Int) = t.index := by omega
      rw [isLast, List.getElem?_concat_length] at found
      rw [place]
      exact types.last.trans (Option.some.inj found)
  case plain =>
    change ∀ c ∈ e.text ++ [_], _
    rw [List.forall_mem_append, List.forall_mem_singleton]
    exact ⟨holds.plain, keyChar_plain hasChar _ _⟩
  case full =>
    intro waits
    have full := of_decide_eq_true waits
    change (e.text ++ [_]).length = 73
    rw [List.length_append]
    exact full
  case newlineFlag =>
    intro comes long
    have notFull := of_decide_eq_false comes
    change 73 ≤ (e.text ++ [_]).length at long
    rw [List.length_append, List.length_singleton] at long
    exact holds.newlineFlag settled (by omega)
  case shiftFlag => exact controls.shiftFlag.trans holds.shiftFlag
  case capsLockFlag => exact controls.capsLockFlag.trans holds.capsLockFlag
  case ctrlFlag => exact controls.ctrlFlag.trans holds.ctrlFlag
  case altFlag => exact controls.altFlag.trans holds.altFlag

theorem cut (holds : t.Holds e) (settled : e.pending = false) (controls : SameControls t u)
    {size : Int} (cuts : Cuts t u size) (isSize : size = e.erase.line.length)
    (newlineFlag : 73 ≤ e.erase.text.length → u.newlineFlag = true) : u.Holds e.erase where
  index := cuts.index.trans isSize
  row := by
    intro k c found
    have bound := (List.getElem?_eq_some_iff.mp found).1
    have shorter := e.erase_line settled
    rw [← e.erase_line_length settled] at shorter
    rw [shorter, List.getElem?_take_of_lt bound] at found
    rw [controls.row, cuts.below k (by omega)]
    exact holds.row k c found
  plain := fun c member => holds.plain c ((List.dropLast_sublist _).subset member)
  full := by
    intro waits
    have settledToo : e.erase.pending = false := settled
    rw [settledToo] at waits
    cases waits
  newlineFlag := fun _ long => newlineFlag long
  shiftFlag := controls.shiftFlag.trans holds.shiftFlag
  capsLockFlag := controls.capsLockFlag.trans holds.capsLockFlag
  ctrlFlag := controls.ctrlFlag.trans holds.ctrlFlag
  altFlag := controls.altFlag.trans holds.altFlag

theorem last (holds : t.Holds e) (settled : e.pending = false) (typed : e.text ≠ []) :
    0 < t.index ∧
      (e.text.length = 73 → t.load (t.index - 1) = newline) ∧
      (e.text.length ≠ 73 →
        t.load (t.index - 1) ≠ newline ∧ t.load (t.index - 1) ≠ tab) := by
  have length := e.line_length settled
  have positive := List.length_pos_of_ne_nil typed
  have some : 0 < e.line.length := by
    rw [length]
    split <;> omega
  have index := holds.index
  have isLast := e.line_getLast? settled
  rw [List.getLast?_eq_getElem?] at isLast
  have place : t.index - 1 = (e.line.length - 1 : Nat) := by omega
  refine ⟨by omega, ?_, ?_⟩
  · intro full
    rw [if_pos full] at isLast
    rw [place]
    exact holds.row _ _ isLast
  · intro notFull
    have member := List.getLast_mem typed
    rw [if_neg notFull, List.getLast?_eq_some_getLast typed] at isLast
    have isChar : t.load (t.index - 1) = e.text.getLast typed := by
      rw [place]
      exact holds.row _ _ isLast
    obtain ⟨notTab, notNewline, _⟩ := holds.plain _ member
    rw [isChar]
    exact ⟨notNewline, notTab⟩

/-- What Backspace does to the line: it erases the newline of a full row along with the
character, or one character. -/
theorem backspaceKey_eq (holds : t.Holds e) (settled : e.pending = false)
    (typed : e.text ≠ []) (room : e.text.length ≤ 125) :
    ∃ accesses, ∃ u : Tty, u = { t with accesses := accesses } ∧
      t.backspaceKey who ScanCode.backspace =
        if e.text.length = 73 then u.eraseNewline who else u.eraseChar who := by
  obtain ⟨positive, isNewline, isText⟩ := holds.last settled typed
  have length := e.line_length settled
  have index := holds.index
  have inside : t.index ≤ bufferSize - 1 := by
    simp only [bufferSize]
    rw [index, length]
    split <;> omega
  obtain ⟨accesses, u, isTested, key, _⟩ := backspaceKey_cases who positive inside
  refine ⟨accesses, u, isTested, ?_⟩
  by_cases full : e.text.length = 73
  · have flagged := holds.newlineFlag settled full.ge
    rw [key, if_pos ⟨flagged, isNewline full⟩, if_pos full]
  · obtain ⟨notNewline, notTab⟩ := isText full
    rw [key, if_neg fun both => notNewline both.2, if_neg notTab, if_neg full]

theorem backspaceKey (holds : t.Holds e) (settled : e.pending = false)
    (room : e.text.length ≤ 125) :
    (t.backspaceKey who ScanCode.backspace).Holds e.erase := by
  by_cases empty : e.text = []
  · have same : e.erase = e := by
      have nothing : e.text.dropLast = e.text := by rw [empty]; rfl
      rw [Editor.erase, nothing]
    have zero : t.index = 0 := by
      rw [holds.index, e.line_length settled, empty]
      rfl
    rw [(backspaceKey_zero who ScanCode.backspace zero).1, same]
    exact holds
  · obtain ⟨accesses, u, isTested, key⟩ := holds.backspaceKey_eq who settled empty room
    have positive := (holds.last settled empty).1
    have tested : u.Holds e := by
      rw [isTested]
      exact holds.of_same ⟨rfl, rfl, rfl, rfl, rfl⟩ rfl rfl rfl
    have length := e.line_length settled
    have erased := e.erase_line_length settled
    have index := tested.index
    have bound : e.line.length ≤ 126 := by
      rw [length]
      split <;> omega
    have some : 0 < e.line.length := by
      have sameIndex := holds.index
      omega
    rw [key]
    by_cases full : e.text.length = 73
    · have long : e.line.length = 74 := by
        rw [length, full]
        rfl
      rw [if_pos full] at erased ⊢
      apply tested.cut settled (SameControls.eraseNewline who u)
        (cuts_eraseNewline who (by omega) (by simp only [bufferSize]; omega))
      · omega
      · intro long
        change 73 ≤ e.text.dropLast.length at long
        rw [List.length_dropLast] at long
        omega
    · rw [if_neg full] at erased ⊢
      apply tested.cut settled (SameControls.eraseChar who u)
        (cuts_eraseChar who (by omega) (by simp only [bufferSize]; omega))
      · omega
      · intro long
        change 73 ≤ e.text.dropLast.length at long
        rw [List.length_dropLast] at long
        rw [eraseChar_eq who (by omega)]
        exact tested.newlineFlag settled (by omega)

end Holds

/-- A scan code of editing erases, types a character or does neither. -/
theorem TextCode.kinds {scanCode : Byte} (text : TextCode scanCode) :
    scanCode = ScanCode.backspace ∨ HasChar scanCode ∨
      Idle scanCode ∧ ¬HasChar scanCode := by
  by_cases isBackspace : scanCode = ScanCode.backspace
  · exact .inl isBackspace
  · by_cases hasChar : HasChar scanCode
    · exact .inr (.inl hasChar)
    · have notL : scanCode ≠ ScanCode.l := by
        intro isL
        rw [isL] at hasChar
        exact hasChar (by decide)
      exact .inr (.inr ⟨⟨text.1, notL, text.2.1, isBackspace, hasChar⟩, hasChar⟩)

theorem press_backspace (t : Tty) {key : Key} (isBackspace : key.scanCode = ScanCode.backspace) :
    t.press key =
      ((t.wrapLine key.who).backspaceKey key.who ScanCode.backspace).placeCursor := by
  rw [Tty.press, isBackspace, t.keyPress_backspace]

namespace Holds

variable {t : Tty} {e : Editor} {key : Key}

theorem press_eq (holds : t.Holds e) (text : TextCode key.scanCode) :
    t.press key = t.keyBlocks key.who key.scanCode := by
  have up := (holds.modifierKeys text).altFlag
  apply keyPress_of_stays
  rw [selectedTerminal, if_neg]
  rw [up]
  exact fun both => absurd both.1 Bool.false_ne_true

theorem press_idle (holds : t.Holds e) (text : TextCode key.scanCode)
    (idle : Idle key.scanCode) :
    t.press key = ((t.modifierKeys key.scanCode).wrapLine key.who).placeCursor := by
  rw [holds.press_eq text, keyBlocks_idle_wrap key.who t idle]

theorem press_char (holds : t.Holds e) (text : TextCode key.scanCode)
    (hasChar : HasChar key.scanCode) :
    t.press key =
      (((t.modifierKeys key.scanCode).wrapLine key.who).placeCursor).charKey key.who
        key.scanCode := by
  rw [holds.press_eq text,
    keyBlocks_char key.who t hasChar (holds.modifierKeys text).ctrlFlag]

theorem settle (holds : t.Holds e) (text : TextCode key.scanCode) :
    (((t.modifierKeys key.scanCode).wrapLine key.who).placeCursor).Holds
      (e.modify key.scanCode).settle :=
  ((holds.modifierKeys text).wrapLine key.who).of_same (.placeCursor _) rfl rfl rfl

theorem press (holds : t.Holds e) (text : TextCode key.scanCode)
    (before : e.text.length ≤ 125) (after : (e.press key.scanCode).text.length ≤ 125) :
    (t.press key).Holds (e.press key.scanCode) := by
  rcases text.kinds with isBackspace | hasChar | ⟨idle, noChar⟩
  · have plain : e.modify ScanCode.backspace = e := rfl
    have erased := (holds.wrapLine key.who).backspaceKey key.who rfl before
    rw [press_backspace t isBackspace, isBackspace, Editor.press, plain, if_pos rfl]
    exact erased.of_same (.placeCursor _) rfl rfl rfl
  · obtain ⟨_, _, notBackspace⟩ := hasChar.ne
    rw [Editor.press, if_neg notBackspace, if_pos hasChar] at after ⊢
    rw [holds.press_char text hasChar]
    apply (holds.settle text).charKey key.who rfl hasChar
    change (e.text ++ [_]).length ≤ 125 at after
    rw [List.length_append, List.length_singleton] at after
    change e.text.length ≤ 124
    omega
  · rw [holds.press_idle text idle, Editor.press, if_neg idle.2.2.2.1, if_neg noChar]
    exact holds.settle text

end Holds

section Runs

variable {t : Tty} {e : Editor} {keys : List Key}

/-- While it has room the driver follows the text through every sequence of keys. -/
theorem Holds.pressAll (holds : t.Holds e)
    (text : ∀ key ∈ keys, TextCode key.scanCode) (fits : e.Fits keys) :
    (t.pressAll keys).Holds (e.pressAll keys) := by
  induction keys using List.reverseRecOn with
  | nil => exact holds
  | append_singleton keys key induction =>
      rw [List.forall_mem_append, List.forall_mem_singleton] at text
      have typed := induction text.1 fun shorter isPrefix =>
        fits shorter (isPrefix.trans (List.prefix_append keys [key]))
      have before := fits keys (List.prefix_append keys [key])
      have after := fits (keys ++ [key]) List.prefix_rfl
      rw [Editor.pressAll_concat] at after ⊢
      rw [pressAll_concat]
      exact typed.press text.2 before after

theorem Holds.edited (holds : t.Holds e) (shaped : t.Shaped)
    (text : ∀ key ∈ keys, TextCode key.scanCode) (fits : e.Fits keys) :
    Edited t (t.pressAll keys) := by
  induction keys using List.reverseRecOn with
  | nil => exact ⟨.refl t, shaped⟩
  | append_singleton keys key induction =>
      rw [List.forall_mem_append, List.forall_mem_singleton] at text
      have shorter : e.Fits keys := fun typed isPrefix =>
        fits typed (isPrefix.trans (List.prefix_append keys [key]))
      have before := induction text.1 shorter
      have pressed := (holds.pressAll text.1 shorter).press_eq text.2
      rw [pressAll_concat, pressed]
      exact before.trans
        (before.shaped.keyBlocks key.who key.scanCode fun isEnter => absurd isEnter text.2.1)

end Runs

end Tty

end LightweightOs
