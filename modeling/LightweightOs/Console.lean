import LightweightOs.Words
import Mathlib.Data.List.Range

/-!
# Console output

The text page at `0xB8000` is the display; the pages at `0xB8000 + 4096 * t`
hold the screens of the terminals that are not displayed.  `putc` has one
branch for each and they are kept apart here as they are in lib.c, although
they must agree.
-/

namespace LightweightOs

def video : Int := 0xB8000

def numCols : Int := 80

def numRows : Int := 25

def attrib : Byte := 7#8

/-- Video memory, the cursors of the three terminals and the position last
sent to the VGA. -/
structure Console where
  vram : Int → Byte
  screenX : Int → Int
  screenY : Int → Int
  cursor : BitVec 16

/-- The address of the character at a row and column; its attribute follows. -/
def cellAddr (page row col : Int) : Int := page + 2 * (numCols * row + col)

def storeCell (memory : Int → Byte) (address : Int) (char attr : Byte) :
    Int → Byte :=
  assign (assign memory address char) (address + 1) attr

/-- One turn of the inner loop that moves a row up. -/
def copyCellUp (page : Int) (row : Nat) (memory : Int → Byte) (col : Nat) :
    Int → Byte :=
  let src := cellAddr page row col
  let dst := cellAddr page (row - 1) col
  let copied := assign memory dst (memory src)
  assign copied (dst + 1) (copied (src + 1))

def moveRowUp (page : Int) (memory : Int → Byte) (row : Nat) : Int → Byte :=
  (List.range 80).foldl (copyCellUp page row) memory

/-- The loop over rows 1 to 24. -/
def moveRowsUp (page : Int) (memory : Int → Byte) : Int → Byte :=
  (List.range' 1 24).foldl (moveRowUp page) memory

def clearCell (page : Int) (memory : Int → Byte) (col : Nat) : Int → Byte :=
  storeCell memory (cellAddr page (numRows - 1) col) space attrib

def clearLastLine (page : Int) (memory : Int → Byte) : Int → Byte :=
  (List.range 80).foldl (clearCell page) memory

/-- `memcpy` between ranges that do not overlap. -/
def memcpy (memory : Int → Byte) (dest src count : Int) : Int → Byte :=
  fun address =>
    if dest ≤ address ∧ address < dest + count
    then memory (src + (address - dest))
    else memory address

namespace Console

def updateCursor (con : Console) (x y : Int) : Console :=
  { con with cursor := BitVec.ofInt 16 (y * 80 + x) }

/-- The branch of `putc` that prints to the display. -/
def putcDisplay (con : Console) (curTerminal : Int) (c : Byte) : Console :=
  let cursorIdx := curTerminal - 1
  if c = newline ∨ c = carriageReturn then
    let con :=
      { con with
        screenY := assign con.screenY cursorIdx (con.screenY cursorIdx + 1)
        screenX := assign con.screenX cursorIdx 0 }
    let con := con.updateCursor (con.screenX cursorIdx) (con.screenY cursorIdx)
    if con.screenY cursorIdx ≥ 25 then
      { con with
        vram := clearLastLine video (moveRowsUp video con.vram)
        screenY := assign con.screenY cursorIdx (numRows - 1) }
    else con
  else
    let x := con.screenX cursorIdx
    let y := con.screenY cursorIdx
    let vram := storeCell con.vram (cellAddr video y x) c attrib
    let x := (x + 1).tmod numCols
    let con :=
      { con with
        vram := vram
        screenX := assign con.screenX cursorIdx x
        screenY := assign con.screenY cursorIdx (y + x.tdiv numCols) }
    con.updateCursor (con.screenX cursorIdx) (con.screenY cursorIdx)

/-- The branch of `putc` that prints to the page of a terminal that is not
displayed. -/
def putcBackground (con : Console) (curProcessLocal : Int) (c : Byte) :
    Console :=
  let terminalVideoMem := video + fourKb * curProcessLocal
  let cursorIdx := curProcessLocal - 1
  if c = newline ∨ c = carriageReturn then
    let con :=
      { con with
        screenY := assign con.screenY cursorIdx (con.screenY cursorIdx + 1)
        screenX := assign con.screenX cursorIdx 0 }
    if con.screenY cursorIdx ≥ 25 then
      { con with
        vram := clearLastLine terminalVideoMem (moveRowsUp terminalVideoMem con.vram)
        screenY := assign con.screenY cursorIdx (numRows - 1) }
    else con
  else
    let x := con.screenX cursorIdx
    let y := con.screenY cursorIdx
    let vram := storeCell con.vram (cellAddr terminalVideoMem y x) c attrib
    let x := (x + 1).tmod numCols
    { con with
      vram := vram
      screenX := assign con.screenX cursorIdx x
      screenY := assign con.screenY cursorIdx (y + x.tdiv numCols) }

/-- The page `putc` prints to for a terminal: the display, or the terminal's own
page behind it. -/
def pageOf (curTerminal terminal : Int) : Int :=
  if curTerminal = terminal then video else video + fourKb * terminal

/-- `putc` for a process of terminal `curProcessLocal`. -/
def putc (con : Console) (curTerminal curProcessLocal : Int) (c : Byte)
    (keyboardPrint : Bool) : Console :=
  if curTerminal = curProcessLocal ∨ keyboardPrint then
    con.putcDisplay curTerminal c
  else con.putcBackground curProcessLocal c

def clearDisplay (memory : Int → Byte) : Int → Byte :=
  (List.range 2000).foldl
    (fun memory (i : Nat) => storeCell memory (video + 2 * i) space attrib) memory

/-- The prompt `391OS> `. -/
def prompt : List Byte :=
  [0x33#8, 0x39#8, 0x31#8, 0x4F#8, 0x53#8, 0x3E#8, 0x20#8]

/-- `clear`, called on the kernel stack of the process `processId` of terminal
`curProcessLocal`. -/
def clear (con : Console) (curTerminal curProcessLocal processId : Int) :
    Console :=
  let cursorIdx := curTerminal - 1
  let con :=
    { con with
      vram := clearDisplay con.vram
      screenY := assign con.screenY cursorIdx 0
      screenX := assign con.screenX cursorIdx 0 }
  -- the arguments are swapped in the source; both are zero here
  let con := con.updateCursor (con.screenY cursorIdx) (con.screenX cursorIdx)
  if processId = 1 ∨ processId = 2 ∨ processId = 3 then
    prompt.foldl (fun con c => con.putc curTerminal curProcessLocal c true) con
  else con

/-- The loop of `terminal_write`. -/
def terminalWrite (con : Console) (curTerminal curProcessLocal : Int)
    (input : List Byte) : Console :=
  input.foldl
    (fun con c =>
      con.putc curTerminal curProcessLocal (if c = tab then space else c) false)
    con

/-- The page of the terminal in `videomem_buffer[terminal - 1]`. -/
def videomemBuffer (terminal : Int) : Int := video + terminal * fourKb

/-- The two copies of an Alt+Fn switch from `curTerminal` to
`selectedTerminal`. -/
def swapPages (con : Console) (curTerminal selectedTerminal : Int) : Console :=
  let vram := memcpy con.vram (videomemBuffer curTerminal) video fourKb
  { con with vram := memcpy vram video (videomemBuffer selectedTerminal) fourKb }

end Console

end LightweightOs
