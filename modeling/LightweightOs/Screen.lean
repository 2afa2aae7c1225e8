import LightweightOs.Console
import Mathlib.Tactic.IntervalCases

/-!
# Screens

A screen is a page of text and a cursor, and printing a character on it is one
operation.  The loops of `putc` that move the rows up are the scroll of that
operation, both branches of `putc` perform it on the page they print to, and
the two copies of an Alt+Fn switch move every screen along with its page.
-/

namespace LightweightOs

/-- The bytes of a page by offset, and the cursor of its terminal. -/
structure Screen where
  cells : Int → Byte
  x : Int
  y : Int

namespace Screen

/-- The two screens agree on the page and the cursor. -/
structure Same (a b : Screen) : Prop where
  cells : ∀ offset, 0 ≤ offset → offset < fourKb → a.cells offset = b.cells offset
  x : a.x = b.x
  y : a.y = b.y

structure InBounds (s : Screen) : Prop where
  left : 0 ≤ s.x
  right : s.x < numCols
  top : 0 ≤ s.y
  bottom : s.y < numRows

/-- Rows 1 to 24 move up and the last row is cleared. -/
def scroll (cells : Int → Byte) : Int → Byte := fun offset =>
  if 0 ≤ offset ∧ offset < 3840 then cells (offset + 160)
  else if 3840 ≤ offset ∧ offset < 4000 then
    if offset % 2 = 0 then space else attrib
  else cells offset

/-- Print a character. -/
def put (s : Screen) (c : Byte) : Screen :=
  if c = newline ∨ c = carriageReturn then
    if s.y + 1 ≥ numRows then ⟨scroll s.cells, 0, numRows - 1⟩
    else ⟨s.cells, 0, s.y + 1⟩
  else
    ⟨storeCell s.cells (cellAddr 0 s.y s.x) c attrib, (s.x + 1) % numCols, s.y⟩

/-- Print a text. -/
def puts (s : Screen) (text : List Byte) : Screen := text.foldl put s

variable {a b s : Screen}

@[simp] theorem puts_nil (s : Screen) : s.puts [] = s := rfl

@[simp] theorem puts_cons (s : Screen) (c : Byte) (text : List Byte) :
    s.puts (c :: text) = (s.put c).puts text := rfl

theorem puts_append (s : Screen) (text more : List Byte) :
    s.puts (text ++ more) = (s.puts text).puts more := List.foldl_append

namespace Same

theorem refl (s : Screen) : s.Same s := ⟨fun _ _ _ => rfl, rfl, rfl⟩

theorem symm (same : a.Same b) : b.Same a :=
  ⟨fun offset low high => (same.cells offset low high).symm, same.x.symm, same.y.symm⟩

theorem trans {c : Screen} (first : a.Same b) (second : b.Same c) : a.Same c :=
  ⟨fun offset low high =>
      (first.cells offset low high).trans (second.cells offset low high),
    first.x.trans second.x, first.y.trans second.y⟩

theorem inBounds (same : a.Same b) (bounds : b.InBounds) : a.InBounds where
  left := same.x ▸ bounds.left
  right := same.x ▸ bounds.right
  top := same.y ▸ bounds.top
  bottom := same.y ▸ bounds.bottom

theorem storeCell {cells other : Int → Byte} (address : Int) (char attr : Byte)
    (same : ∀ offset, 0 ≤ offset → offset < fourKb → cells offset = other offset)
    (offset : Int) (low : 0 ≤ offset) (high : offset < fourKb) :
    LightweightOs.storeCell cells address char attr offset =
      LightweightOs.storeCell other address char attr offset := by
  simp only [LightweightOs.storeCell, Function.update_apply]
  split
  · rfl
  · split
    · rfl
    · exact same offset low high

theorem put (same : a.Same b) (c : Byte) : (a.put c).Same (b.put c) := by
  simp only [Screen.put, same.y, same.x]
  split
  · split
    · refine ⟨?_, rfl, rfl⟩
      intro offset low high
      simp only [scroll]
      split
      · exact same.cells _ (by omega) (by simp only [fourKb]; omega)
      · split
        · rfl
        · exact same.cells offset low high
    · exact ⟨same.cells, rfl, rfl⟩
  · exact ⟨storeCell _ c attrib same.cells, rfl, rfl⟩

theorem puts (same : a.Same b) (text : List Byte) : (a.puts text).Same (b.puts text) := by
  induction text generalizing a b with
  | nil => exact same
  | cons c rest induction => exact induction (same.put c)

end Same

theorem InBounds.put (bounds : s.InBounds) (c : Byte) : (s.put c).InBounds := by
  obtain ⟨left, right, top, bottom⟩ := bounds
  simp only [Screen.put]
  split
  · split <;> constructor <;> simp only [numCols, numRows] at * <;> omega
  · constructor <;> simp only [numCols, numRows] at * <;> omega

theorem InBounds.puts (bounds : s.InBounds) (text : List Byte) :
    (s.puts text).InBounds := by
  induction text generalizing s with
  | nil => exact bounds
  | cons c rest induction => exact induction (bounds.put c)

end Screen

section Loops

variable (page : Int) (memory : Int → Byte)

theorem copyCellsUp_apply (row : Nat) {n : Nat} (bound : n ≤ 80) (address : Int) :
    (List.range n).foldl (copyCellUp page row) memory address =
      if page + 160 * (row - 1) ≤ address ∧ address < page + 160 * (row - 1) + 2 * n then
        memory (address + 160)
      else memory address := by
  induction n generalizing address with
  | zero =>
      rw [if_neg (by omega)]
      rfl
  | succ n induction =>
      rw [List.range_succ, List.foldl_append, List.foldl_cons, List.foldl_nil]
      simp only [copyCellUp, Function.update_apply, cellAddr, numCols]
      have source := induction (by omega) (page + 2 * (80 * row + n))
      have second := induction (by omega) (page + 2 * (80 * row + n) + 1)
      rw [if_neg (by omega)] at source second
      rw [source, second, induction (by omega)]
      push_cast
      split_ifs <;> first | rfl | (exfalso; omega) | (congr 1; omega)

theorem moveRows_apply (n : Nat) (address : Int) :
    (List.range' 1 n).foldl (moveRowUp page) memory address =
      if page ≤ address ∧ address < page + 160 * n then memory (address + 160)
      else memory address := by
  induction n generalizing address with
  | zero =>
      rw [if_neg (by omega)]
      rfl
  | succ n induction =>
      rw [List.range'_concat, List.foldl_append, List.foldl_cons, List.foldl_nil]
      simp only [moveRowUp]
      rw [copyCellsUp_apply page _ _ le_rfl, induction, induction]
      push_cast
      split_ifs <;> first | rfl | (exfalso; omega)

theorem clearCells_apply {n : Nat} (address : Int) :
    (List.range n).foldl (clearCell page) memory address =
      if page + 3840 ≤ address ∧ address < page + 3840 + 2 * n then
        if (address - page) % 2 = 0 then space else attrib
      else memory address := by
  induction n generalizing address with
  | zero =>
      rw [if_neg (by omega)]
      rfl
  | succ n induction =>
      rw [List.range_succ, List.foldl_append, List.foldl_cons, List.foldl_nil]
      simp only [clearCell, storeCell, Function.update_apply, cellAddr, numCols, numRows]
      rw [induction]
      push_cast
      split_ifs <;> first | rfl | (exfalso; omega)

/-- The two loops of a newline on the last row are the scroll of a screen. -/
theorem scrolled_apply (address : Int) :
    clearLastLine page (moveRowsUp page memory) address =
      if page ≤ address ∧ address < page + 4000 then
        Screen.scroll (fun offset => memory (page + offset)) (address - page)
      else memory address := by
  rw [clearLastLine, clearCells_apply, moveRowsUp, moveRows_apply]
  simp only [Screen.scroll]
  push_cast
  split_ifs <;> first | rfl | (exfalso; omega) | (congr 1; omega)

end Loops

namespace Console

/-- The page and the cursor of a terminal. -/
def screen (con : Console) (page terminal : Int) : Screen where
  cells := fun offset => con.vram (page + offset)
  x := con.screenX (terminal - 1)
  y := con.screenY (terminal - 1)

/-- The screen a terminal has, displayed or not. -/
def logical (con : Console) (curTerminal terminal : Int) : Screen :=
  con.screen (pageOf curTerminal terminal) terminal

/-- The text has been printed on the page of one terminal, and nothing else has
changed. -/
structure Prints (con next : Console) (page terminal : Int) (text : List Byte) :
    Prop where
  printed : (next.screen page terminal).Same ((con.screen page terminal).puts text)
  elsewhere : ∀ address, address < page ∨ page + fourKb ≤ address →
    next.vram address = con.vram address
  cursors : ∀ index, index ≠ terminal - 1 →
    next.screenX index = con.screenX index ∧ next.screenY index = con.screenY index

variable {con next last : Console} {page terminal : Int} {text more : List Byte}

theorem Prints.nil (vram : next.vram = con.vram) (screenX : next.screenX = con.screenX)
    (screenY : next.screenY = con.screenY) : Prints con next page terminal [] := by
  refine ⟨?_, by simp [vram], by simp [screenX, screenY]⟩
  simp only [Screen.puts_nil, screen, vram, screenX, screenY]
  exact .refl _

theorem Prints.trans (first : Prints con next page terminal text)
    (second : Prints next last page terminal more) :
    Prints con last page terminal (text ++ more) where
  printed := by
    rw [Screen.puts_append]
    exact second.printed.trans (first.printed.puts more)
  elsewhere := fun address outside =>
    (second.elsewhere address outside).trans (first.elsewhere address outside)
  cursors := fun index different =>
    ⟨((second.cursors index different).1).trans (first.cursors index different).1,
      ((second.cursors index different).2).trans (first.cursors index different).2⟩

theorem Prints.of_cursor {cursor : BitVec 16}
    (prints : Prints con next page terminal text) :
    Prints con { next with cursor := cursor } page terminal text :=
  ⟨prints.printed, prints.elsewhere, prints.cursors⟩

/-- What both branches of `putc` do, for the page of the branch. -/
def printOn (con : Console) (page terminal : Int) (c : Byte) : Console :=
  let cursorIdx := terminal - 1
  if c = newline ∨ c = carriageReturn then
    let con :=
      { con with
        screenY := assign con.screenY cursorIdx (con.screenY cursorIdx + 1)
        screenX := assign con.screenX cursorIdx 0 }
    if con.screenY cursorIdx ≥ 25 then
      { con with
        vram := clearLastLine page (moveRowsUp page con.vram)
        screenY := assign con.screenY cursorIdx (numRows - 1) }
    else con
  else
    let x := con.screenX cursorIdx
    let y := con.screenY cursorIdx
    let vram := storeCell con.vram (cellAddr page y x) c attrib
    let x := (x + 1).tmod numCols
    { con with
      vram := vram
      screenX := assign con.screenX cursorIdx x
      screenY := assign con.screenY cursorIdx (y + x.tdiv numCols) }

theorem putcBackground_eq (con : Console) (terminal : Int) (c : Byte) :
    con.putcBackground terminal c =
      con.printOn (video + fourKb * terminal) terminal c := rfl

theorem putcDisplay_eq (con : Console) (curTerminal : Int) (c : Byte) :
    ∃ cursor, con.putcDisplay curTerminal c =
      { con.printOn video curTerminal c with cursor := cursor } := by
  simp only [putcDisplay, printOn]
  split
  · simp only [updateCursor, Function.update_self]
    split <;> exact ⟨_, rfl⟩
  · exact ⟨_, rfl⟩

theorem prints_printOn (con : Console) (page terminal : Int) (c : Byte)
    (bounds : (con.screen page terminal).InBounds) :
    Prints con (con.printOn page terminal c) page terminal [c] := by
  obtain ⟨left, right, top, bottom⟩ := bounds
  simp only [screen, numCols, numRows] at left right top bottom
  simp only [printOn]
  split
  case isTrue isNewline =>
    simp only [Function.update_self]
    split
    case isTrue below =>
      constructor
      case printed =>
        rw [Screen.puts_cons, Screen.puts_nil, Screen.put, if_pos isNewline,
          if_pos (by simpa [screen, numRows] using below)]
        refine ⟨?_, ?_, ?_⟩
        · intro offset low high
          simp only [screen, scrolled_apply]
          split
          · congr 1
            omega
          · simp only [Screen.scroll]
            rw [if_neg (by omega), if_neg (by omega)]
        · simp [screen]
        · simp [screen]
      case elsewhere =>
        intro address outside
        simp only [fourKb] at outside
        have kept := scrolled_apply page con.vram address
        rwa [if_neg (by omega)] at kept
      case cursors =>
        intro index different
        simp [different]
    case isFalse inside =>
      constructor
      case printed =>
        rw [Screen.puts_cons, Screen.puts_nil, Screen.put, if_pos isNewline,
          if_neg (by simpa [screen, numRows] using inside)]
        exact ⟨fun _ _ _ => rfl, by simp [screen], by simp [screen]⟩
      case elsewhere => exact fun _ _ => rfl
      case cursors =>
        intro index different
        simp [different]
  case isFalse isText =>
    constructor
    case printed =>
      rw [Screen.puts_cons, Screen.puts_nil, Screen.put, if_neg isText]
      refine ⟨?_, ?_, ?_⟩
      · intro offset _ _
        have here : page + offset = cellAddr page (con.screenY (terminal - 1))
              (con.screenX (terminal - 1)) ↔
            offset = cellAddr 0 (con.screenY (terminal - 1))
              (con.screenX (terminal - 1)) := by
          simp only [cellAddr]
          omega
        have after : page + offset = cellAddr page (con.screenY (terminal - 1))
              (con.screenX (terminal - 1)) + 1 ↔
            offset = cellAddr 0 (con.screenY (terminal - 1))
              (con.screenX (terminal - 1)) + 1 := by
          simp only [cellAddr]
          omega
        simp only [screen, storeCell, Function.update_apply, here, after]
      · simp only [screen, Function.update_self]
        exact Int.tmod_eq_emod_of_nonneg (by omega)
      · simp only [screen, Function.update_self]
        have column : (con.screenX (terminal - 1) + 1).tmod numCols =
            (con.screenX (terminal - 1) + 1) % numCols :=
          Int.tmod_eq_emod_of_nonneg (by omega)
        have sameRow : ((con.screenX (terminal - 1) + 1) % numCols).tdiv numCols = 0 := by
          simp only [numCols]
          rw [Int.tdiv_eq_ediv_of_nonneg (by omega)]
          omega
        rw [column, sameRow, add_zero]
    case elsewhere =>
      intro address outside
      have apart : address ≠ cellAddr page (con.screenY (terminal - 1))
            (con.screenX (terminal - 1)) + 1 ∧
          address ≠ cellAddr page (con.screenY (terminal - 1))
            (con.screenX (terminal - 1)) := by
        simp only [cellAddr, numCols, fourKb] at outside ⊢
        omega
      simp [storeCell, apart]
    case cursors =>
      intro index different
      simp [different]

theorem prints_putc (con : Console) (curTerminal curProcessLocal : Int) (c : Byte)
    (keyboardPrint : Bool) {terminal : Int}
    (isTerminal : terminal = if keyboardPrint then curTerminal else curProcessLocal)
    (bounds : (con.logical curTerminal terminal).InBounds) :
    Prints con (con.putc curTerminal curProcessLocal c keyboardPrint)
      (pageOf curTerminal terminal) terminal [c] := by
  have display : terminal = curTerminal →
      Prints con (con.putcDisplay curTerminal c) (pageOf curTerminal terminal) terminal
        [c] := by
    rintro rfl
    obtain ⟨cursor, printed⟩ := con.putcDisplay_eq terminal c
    rw [printed]
    have prints := prints_printOn con _ terminal c bounds
    simp only [pageOf, if_true] at prints ⊢
    exact prints.of_cursor
  rw [putc]
  cases keyboardPrint with
  | true =>
      rw [if_pos (.inr rfl)]
      exact display isTerminal
  | false =>
      have own : terminal = curProcessLocal := isTerminal
      subst own
      by_cases shown : curTerminal = terminal
      · rw [if_pos (.inl shown)]
        exact display shown.symm
      · rw [if_neg (by simp [shown])]
        have prints := prints_printOn con _ terminal c bounds
        simp only [pageOf, if_neg shown] at prints ⊢
        exact prints

/-- The pages of two terminals do not overlap, whichever is displayed. -/
theorem pageOf_disjoint {curTerminal terminal other : Int}
    (low : 1 ≤ terminal ∧ 1 ≤ other) (different : other ≠ terminal) {offset : Int}
    (inside : 0 ≤ offset ∧ offset < fourKb) :
    pageOf curTerminal other + offset < pageOf curTerminal terminal ∨
      pageOf curTerminal terminal + fourKb ≤ pageOf curTerminal other + offset := by
  simp only [pageOf, video, fourKb] at *
  split_ifs <;> omega

/-- Text has been printed on one logical screen. -/
structure PrintsOn (before after : Int → Screen) (terminal : Int) (text : List Byte) :
    Prop where
  own : (after terminal).Same ((before terminal).puts text)
  others : ∀ other, 1 ≤ other → other ≠ terminal → (after other).Same (before other)

theorem PrintsOn.trans {first second third : Int → Screen} {terminal : Int}
    {text more : List Byte} (earlier : PrintsOn first second terminal text)
    (later : PrintsOn second third terminal more) :
    PrintsOn first third terminal (text ++ more) where
  own := by
    rw [Screen.puts_append]
    exact later.own.trans (earlier.own.puts more)
  others := fun other low different =>
    (later.others other low different).trans (earlier.others other low different)

theorem PrintsOn.refl (screens : Int → Screen) (terminal : Int) :
    PrintsOn screens screens terminal [] :=
  ⟨.refl _, fun _ _ _ => .refl _⟩

theorem Prints.on {con next : Console} {curTerminal terminal : Int} {text : List Byte}
    (prints : Prints con next (pageOf curTerminal terminal) terminal text)
    (low : 1 ≤ terminal) :
    PrintsOn (con.logical curTerminal) (next.logical curTerminal) terminal text where
  own := prints.printed
  others := by
    intro other otherLow different
    obtain ⟨x, y⟩ := prints.cursors (other - 1) (by omega)
    refine ⟨?_, x, y⟩
    intro offset atLeast below
    exact prints.elsewhere _ (pageOf_disjoint ⟨low, otherLow⟩ different ⟨atLeast, below⟩)

theorem prints_terminalWrite (con : Console) {curTerminal terminal : Int}
    (input : List Byte) (bounds : (con.logical curTerminal terminal).InBounds) :
    Prints con (con.terminalWrite curTerminal terminal input)
      (pageOf curTerminal terminal) terminal
      (input.map fun c => if c = tab then space else c) := by
  induction input generalizing con with
  | nil => exact .nil rfl rfl rfl
  | cons c rest induction =>
      have first := con.prints_putc curTerminal terminal (if c = tab then space else c)
        false rfl bounds
      have after := first.printed.inBounds (bounds.puts _)
      exact first.trans (induction _ after)

theorem logical_swapPages (con : Console) {curTerminal selected terminal : Int}
    (low : 1 ≤ curTerminal ∧ 1 ≤ selected ∧ 1 ≤ terminal) :
    ((con.swapPages curTerminal selected).logical selected terminal).Same
      (con.logical curTerminal terminal) := by
  refine ⟨?_, rfl, rfl⟩
  intro offset atLeast below
  simp only [logical, screen, swapPages, memcpy, pageOf, videomemBuffer, video, fourKb]
    at *
  split_ifs <;> first | rfl | (congr 1; omega)

end Console

end LightweightOs
