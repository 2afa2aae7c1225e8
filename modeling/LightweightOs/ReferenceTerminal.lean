import LightweightOs.PutcCalls
import Mathlib.Data.List.Nodup

/-!
# putc and an 80x25 terminal

The reference is a terminal that goes on in the next row after the last column.
`putc` reduces the column before it divides it, so the quotient is always zero
and a full row is continued in the same row.  The two agree on a text exactly as
long as nothing is written in the last column.
-/

namespace LightweightOs

namespace Screen

/-- The cursor goes to the start of the next row; below the last row the text moves up. -/
def nextRow (s : Screen) : Screen :=
  if s.y + 1 < numRows then ⟨s.cells, 0, s.y + 1⟩ else ⟨scroll s.cells, 0, numRows - 1⟩

/-- A tab is stored as one space. -/
def storeChar (s : Screen) (c : Byte) : Screen :=
  { s with
    cells := storeCell s.cells (cellAddr 0 s.y s.x) (if c = tab then space else c) attrib }

/-- A byte written on the reference terminal. -/
def type (s : Screen) (c : Byte) : Screen :=
  if c = newline ∨ c = carriageReturn then s.nextRow
  else if s.x + 1 < numCols then { s.storeChar c with x := s.x + 1 }
  else (s.storeChar c).nextRow

def types (s : Screen) (input : List Byte) : Screen := input.foldl type s

/-- The screens show the same text and have the same cursor. -/
structure Agrees (a b : Screen) : Prop where
  cells : ∀ offset, 0 ≤ offset → offset < 4000 → a.cells offset = b.cells offset
  x : a.x = b.x
  y : a.y = b.y

/-- Nothing but spaces is on the screen. -/
def Blank (cells : Int → Byte) : Prop :=
  ∀ offset, 0 ≤ offset → offset < 4000 →
    cells offset = if offset % 2 = 0 then space else attrib

/-- The reference terminal writes no byte in the last column, unless the screen is blank
afterwards and the next row would be below the last one. -/
def Fits (s : Screen) : List Byte → Prop
  | [] => True
  | c :: rest =>
      ((c = newline ∨ c = carriageReturn) ∨ s.x ≠ numCols - 1 ∨
        s.y = numRows - 1 ∧ Blank (s.storeChar c).cells) ∧ (s.type c).Fits rest

variable {a b s : Screen} {c : Byte}

theorem Same.agrees (same : a.Same b) : a.Agrees b :=
  ⟨fun offset low high => same.cells offset low (by simp only [fourKb]; omega), same.x,
    same.y⟩

theorem Agrees.trans {last : Screen} (first : a.Agrees b) (second : b.Agrees last) :
    a.Agrees last :=
  ⟨fun offset low high =>
      (first.cells offset low high).trans (second.cells offset low high),
    first.x.trans second.x, first.y.trans second.y⟩

theorem Agrees.symm (agrees : a.Agrees b) : b.Agrees a :=
  ⟨fun offset low high => (agrees.cells offset low high).symm, agrees.x.symm,
    agrees.y.symm⟩

theorem blank_iff {cells : Int → Byte} :
    Blank cells ↔ ∀ offset, 0 ≤ offset → offset < 4000 →
      cells offset = scroll cells offset := by
  constructor
  · intro blank offset low high
    by_cases above : offset < 3840
    · have parity : (offset + 160) % 2 = offset % 2 := by omega
      rw [scroll, if_pos ⟨low, above⟩, blank (offset + 160) (by omega) (by omega), parity]
      exact blank offset low high
    · rw [scroll, if_neg (by omega), if_pos (by omega)]
      exact blank offset low high
  · intro moved
    -- from the last row upwards
    have rows : ∀ (left : Nat) (offset : Int), 0 ≤ offset → offset < 4000 →
        4000 - offset ≤ left → cells offset = if offset % 2 = 0 then space else attrib := by
      intro left
      induction left with
      | zero =>
          intro offset _ high above
          omega
      | succ left induction =>
          intro offset low high above
          rw [moved offset low high, scroll]
          split
          case isTrue =>
            have parity : (offset + 160) % 2 = offset % 2 := by omega
            rw [induction (offset + 160) (by omega) (by omega) (by omega), parity]
          case isFalse =>
            rw [if_pos (by omega)]
    intro offset low high
    exact rows 4000 offset low high (by omega)

/-- Outside the text nothing moves, so a blank screen is the same one afterwards. -/
theorem scroll_of_blank {cells : Int → Byte} (blank : Blank cells) : scroll cells = cells := by
  funext offset
  by_cases inside : 0 ≤ offset ∧ offset < 4000
  · exact (blank_iff.mp blank offset inside.1 inside.2).symm
  · rw [scroll, if_neg (by omega), if_neg (by omega)]

/-- What `putc` is given for a byte of `terminal_write`. -/
def untab (c : Byte) : Byte := if c = tab then space else c

theorem untab_newline : (untab c = newline ∨ untab c = carriageReturn) ↔
    c = newline ∨ c = carriageReturn := by
  rw [untab]
  split
  case isTrue isTab =>
    rw [isTab]
    decide
  case isFalse => exact Iff.rfl

/-- `putc` does what the reference does with a newline and in front of the last column. -/
theorem put_eq_type (bounds : s.InBounds)
    (early : (c = newline ∨ c = carriageReturn) ∨ s.x ≠ numCols - 1) :
    s.put (untab c) = s.type c := by
  obtain ⟨left, right, top, bottom⟩ := bounds
  rw [put, type]
  simp only [untab_newline]
  split
  case isTrue =>
    rw [nextRow]
    by_cases below : s.y + 1 ≥ numRows
    · rw [if_pos below, if_neg (by omega)]
    · rw [if_neg below, if_pos (by omega)]
  case isFalse isText =>
    have inRow : s.x + 1 < numCols := by
      rcases early with isNewline | notLast
      · exact (isText isNewline).elim
      · omega
    rw [if_pos inRow, Int.emod_eq_of_lt (by omega) inRow]
    rfl

theorem put_last (isText : ¬(c = newline ∨ c = carriageReturn)) (last : s.x = numCols - 1) :
    s.put (untab c) = ⟨(s.storeChar c).cells, 0, s.y⟩ ∧ s.type c = (s.storeChar c).nextRow := by
  have notBefore : ¬s.x + 1 < numCols := by omega
  have wraps : (s.x + 1) % numCols = 0 := by
    rw [last]
    rfl
  constructor
  · rw [put, if_neg (mt untab_newline.mp isText), wraps]
    rfl
  · rw [type, if_neg isText, if_neg notBefore]

/-- A byte is written alike when it falls in front of the last column, or on the last row of
a screen that is blank afterwards; then the whole states are the same. -/
theorem put_agrees (bounds : s.InBounds) :
    (s.put (untab c)).Agrees (s.type c) ↔
      (c = newline ∨ c = carriageReturn) ∨ s.x ≠ numCols - 1 ∨
        s.y = numRows - 1 ∧ Blank (s.storeChar c).cells := by
  by_cases early : (c = newline ∨ c = carriageReturn) ∨ s.x ≠ numCols - 1
  · rw [put_eq_type bounds early]
    constructor
    · intro _
      rcases early with isNewline | notLast
      · exact .inl isNewline
      · exact .inr (.inl notLast)
    · exact fun _ => ⟨fun _ _ _ => rfl, rfl, rfl⟩
  · simp only [not_or, not_not] at early
    obtain ⟨⟨notNewline, notReturn⟩, last⟩ := early
    have isText : ¬(c = newline ∨ c = carriageReturn) := by
      rintro (isNewline | isReturn)
      · exact notNewline isNewline
      · exact notReturn isReturn
    obtain ⟨put, typed⟩ := put_last isText last
    have bottom := bounds.bottom
    rw [put, typed, nextRow]
    change Agrees _ (if s.y + 1 < numRows then _ else _) ↔ _
    split
    case isTrue above =>
      constructor
      · intro agrees
        have row := agrees.y
        change s.y = s.y + 1 at row
        omega
      · rintro (isNewline | notLast | ⟨onLast, _⟩)
        · exact (isText isNewline).elim
        · exact (notLast last).elim
        · omega
    case isFalse below =>
      have onLast : s.y = numRows - 1 := by omega
      constructor
      · intro agrees
        exact .inr (.inr ⟨onLast, blank_iff.mpr agrees.cells⟩)
      · rintro (isNewline | notLast | ⟨_, blank⟩)
        · exact (isText isNewline).elim
        · exact (notLast last).elim
        · exact ⟨blank_iff.mp blank, rfl, onLast⟩

theorem put_eq_of_agrees (bounds : s.InBounds)
    (agrees : (s.put (untab c)).Agrees (s.type c)) : s.put (untab c) = s.type c := by
  rcases (put_agrees bounds).mp agrees with isNewline | notLast | ⟨onLast, blank⟩
  · exact put_eq_type bounds (.inl isNewline)
  · exact put_eq_type bounds (.inr notLast)
  · by_cases early : (c = newline ∨ c = carriageReturn) ∨ s.x ≠ numCols - 1
    · exact put_eq_type bounds early
    · simp only [not_or, not_not] at early
      obtain ⟨put, typed⟩ := put_last (fun isNewline => isNewline.elim early.1.1 early.1.2)
        early.2
      have below : ¬(s.storeChar c).y + 1 < numRows := by
        change ¬s.y + 1 < numRows
        omega
      rw [put, typed, nextRow, if_neg below, scroll_of_blank blank, onLast]

theorem Agrees.refl (s : Screen) : s.Agrees s := ⟨fun _ _ _ => rfl, rfl, rfl⟩

/-- The two terminals agree after every byte exactly when the text fits. -/
theorem puts_agrees (bounds : s.InBounds) (input : List Byte) :
    (∀ n, (s.puts ((input.take n).map untab)).Agrees (s.types (input.take n))) ↔
      s.Fits input := by
  induction input generalizing s with
  | nil =>
      constructor
      · exact fun _ => trivial
      · intro _ n
        rw [List.take_nil]
        exact .refl s
  | cons c rest induction =>
      constructor
      · intro agrees
        have first : (s.put (untab c)).Agrees (s.type c) := agrees 1
        have same := put_eq_of_agrees bounds first
        have later := induction (bounds.put (untab c))
        rw [same] at later
        refine ⟨(put_agrees bounds).mp first, later.mp ?_⟩
        intro n
        have next := agrees (n + 1)
        rw [List.take_succ_cons, List.map_cons, puts_cons, same] at next
        exact next
      · rintro ⟨here, fits⟩ n
        have same := put_eq_of_agrees bounds ((put_agrees bounds).mpr here)
        have later := induction (bounds.put (untab c))
        rw [same] at later
        cases n with
        | zero => exact .refl s
        | succ n =>
            rw [List.take_succ_cons, List.map_cons, puts_cons, same]
            exact later.mpr fits n

end Screen

/-- No byte of the string is a newline. -/
def NewlineFree (input : List Byte) : Prop :=
  ∀ c ∈ input, ¬(c = newline ∨ c = carriageReturn)

namespace Console

/-- `terminal_write` does with a string what the reference terminal does, byte by byte, and
a string without newlines goes to cells that are all different. -/
structure ImplementsTerminal (con : Console) (curTerminal terminal : Int)
    (input : List Byte) : Prop where
  agrees : ∀ n,
    ((con.terminalWrite curTerminal terminal (input.take n)).logical curTerminal
      terminal).Agrees ((con.logical curTerminal terminal).types (input.take n))
  keeps : NewlineFree input →
    ((con.terminalWriteCalls curTerminal terminal input).filterMap PutcCall.cell).Nodup

variable {con : Console} {curTerminal terminal : Int}

theorem filterMap_cell (bounds : (con.logical curTerminal terminal).InBounds)
    {text : List Byte} (plain : NewlineFree text) :
    (con.putcCalls curTerminal terminal false text).filterMap PutcCall.cell =
      (List.range text.length).map fun k : Nat =>
        cellAddr (pageOf curTerminal terminal) (con.screenY (terminal - 1))
          ((con.screenX (terminal - 1) + k) % numCols) := by
  induction text generalizing con with
  | nil => rfl
  | cons c rest induction =>
      obtain ⟨isText, later⟩ := List.forall_mem_cons.mp plain
      have left := bounds.left
      have right := bounds.right
      change 0 ≤ con.screenX (terminal - 1) at left
      change con.screenX (terminal - 1) < numCols at right
      have prints := con.prints_putc curTerminal terminal c false rfl bounds
      have after := prints.printed.inBounds (bounds.puts [c])
      have x := prints.printed.x
      have y := prints.printed.y
      rw [Screen.puts_cons, Screen.puts_nil, Screen.put, if_neg isText] at x y
      change (con.putc curTerminal terminal c false).screenX (terminal - 1) =
        (con.screenX (terminal - 1) + 1) % numCols at x
      change (con.putc curTerminal terminal c false).screenY (terminal - 1) =
        con.screenY (terminal - 1) at y
      have cell : PutcCall.cell ⟨con, curTerminal, terminal, c, false⟩ =
          some (cellAddr (pageOf curTerminal terminal) (con.screenY (terminal - 1))
            (con.screenX (terminal - 1))) := by
        rw [PutcCall.cell, if_neg isText]
        rfl
      rw [putcCalls, List.filterMap_cons, cell]
      simp only
      rw [induction after later, List.length_cons, List.range_succ_eq_map, List.map_cons,
        List.map_map, x, y]
      congr 1
      · rw [Nat.cast_zero, add_zero, Int.emod_eq_of_lt left right]
      · apply List.map_congr_left
        intro k _
        simp only [Function.comp_apply]
        congr 1
        simp only [numCols, Nat.cast_succ]
        omega

/-- They are all different as long as there are at most as many as columns. -/
theorem nodup_cells_iff (page y x : Int) (count : Nat) :
    ((List.range count).map fun k : Nat => cellAddr page y ((x + k) % numCols)).Nodup ↔
      count ≤ 80 := by
  rw [List.nodup_map_iff_inj_on List.nodup_range]
  simp only [List.mem_range, cellAddr, numCols]
  constructor
  · intro different
    by_contra long
    have again := different 0 (by omega) 80 (by omega) (by omega)
    cases again
  · intro short first firstInside second secondInside same
    omega

end Console

/-- `terminal_write` implements the terminal on a string exactly when the string fits: no
byte but a newline falls on the last column. -/
theorem putc_terminal {con : Console} {curTerminal terminal : Int}
    (bounds : (con.logical curTerminal terminal).InBounds) (input : List Byte) :
    con.ImplementsTerminal curTerminal terminal input ↔
      (con.logical curTerminal terminal).Fits input ∧
        (NewlineFree input → input.length ≤ 80) := by
  have written : ∀ n,
      ((con.terminalWrite curTerminal terminal (input.take n)).logical curTerminal
        terminal).Agrees
          ((con.logical curTerminal terminal).puts ((input.take n).map Screen.untab)) := by
    intro n
    exact (con.prints_terminalWrite (input.take n) bounds).printed.agrees
  have cells : NewlineFree input →
      (((con.terminalWriteCalls curTerminal terminal input).filterMap PutcCall.cell).Nodup ↔
        input.length ≤ 80) := by
    intro plain
    have isPlain : NewlineFree (input.map Screen.untab) := by
      intro c member
      obtain ⟨byte, inInput, rfl⟩ := List.mem_map.mp member
      exact mt Screen.untab_newline.mp (plain byte inInput)
    have stored := Console.filterMap_cell bounds isPlain
    rw [List.length_map] at stored
    change ((con.putcCalls curTerminal terminal false (input.map Screen.untab)).filterMap
      PutcCall.cell).Nodup ↔ _
    rw [stored, Console.nodup_cells_iff]
  rw [← Screen.puts_agrees bounds input]
  constructor
  · rintro ⟨agrees, keeps⟩
    constructor
    · intro n
      exact (written n).symm.trans (agrees n)
    · intro plain
      exact (cells plain).mp (keeps plain)
  · rintro ⟨agrees, short⟩
    constructor
    case agrees =>
      intro n
      exact (written n).trans (agrees n)
    case keeps =>
      intro plain
      exact (cells plain).mpr (short plain)

/-- Three terminals with their cursors in one column of the first row. -/
def sampleColumn (x : Int) : Console where
  vram := fun _ => 0
  screenX := fun _ => x
  screenY := fun _ => 0
  cursor := 0

theorem sampleColumn_inBounds {x : Int} (left : 0 ≤ x) (right : x < numCols) :
    ((sampleColumn x).logical 1 2).InBounds :=
  ⟨left, right, le_rfl, show (0 : Int) < 25 by decide⟩

/-- A tab and a newline on a terminal that is not displayed. -/
theorem putc_terminal_sampleColumn :
    (sampleColumn 77).ImplementsTerminal 1 2 [0x68#8, tab, newline, 0x69#8] := by
  apply (putc_terminal (sampleColumn_inBounds (by decide) (by decide)) _).mpr
  refine ⟨⟨.inr (.inl ?_), .inr (.inl ?_), .inl (.inl rfl), .inr (.inl ?_), trivial⟩, ?_⟩
  · decide
  · decide
  · decide
  · exact fun _ => by decide

/-- A letter in the last column. -/
theorem putc_terminal_lastColumn :
    ¬∀ (con : Console) (curTerminal terminal : Int) (input : List Byte),
      (con.logical curTerminal terminal).InBounds →
        con.ImplementsTerminal curTerminal terminal input := by
  intro implements
  have agrees := (implements (sampleColumn 79) 1 2 [0x61#8]
    (sampleColumn_inBounds (by decide) (by decide))).agrees 1
  have row := agrees.y
  revert row
  decide

end LightweightOs
