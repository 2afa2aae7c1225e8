import LightweightOs.Printf
import LightweightOs.CursorBounds

/-!
# Booting

`entry` clears the screen and reports what the boot loader passed to it before it
initialises anything, and starts the devices and the first shell after that.  What
it does to the console is followed here, access by access: `clear` and `putc` take
their cursor from arrays with a place for each terminal, and until `keyboard_init`
no terminal is displayed.  The descriptor tables, the pages and the interrupt
controller it sets up have no part in this.
-/

namespace LightweightOs

open Lib

def multibootBootloaderMagic : Word := 0x2BADB002#32

/-- An access to the console: by `clear`, by the prompt `clear` prints, or by
`printf`. -/
inductive ConsoleAccess where
  | clear (curTerminal : Int)
  | prompt (call : PutcCall)
  | printf (call : PutcCall)

/-- The driver, and the accesses to the console so far. -/
structure Boot where
  tty : Tty
  accesses : List ConsoleAccess

/-- What `entry` finds: its arguments, the memory with the multiboot information,
the word at the base of its stack in place of `processID`, and the video memory and
the position of the VGA. -/
structure BootInput where
  magic : Word
  addr : Word
  memory : Word → Byte
  processId : Int
  vram : Int → Byte
  cursor : BitVec 16

/-- The 32-bit value at an address. -/
def load32 (memory : Word → Byte) (address : Word) : Word :=
  memory (address + 3) ++ memory (address + 2) ++ memory (address + 1) ++ memory address

/-- `CHECK_FLAG` -/
def checkFlag (flags : Word) (bit : Nat) : Bool := flags.getLsbD bit

namespace Boot

/-- `clear` before a shell has been booted, when all output is for terminal 1. -/
def clear (b : Boot) (processId : Int) : Boot where
  tty := { b.tty with toConsole := b.tty.toConsole.clear b.tty.curTerminal 1 processId }
  accesses :=
    b.accesses ++ .clear b.tty.curTerminal ::
      (b.tty.toConsole.clearCalls b.tty.curTerminal 1 processId).map .prompt

/-- The calls of `putc` for the bytes `printf` prints. -/
def print (b : Boot) (text : List Byte) : Boot where
  tty :=
    { b.tty with
      toConsole :=
        text.foldl (fun con c => con.putc b.tty.curTerminal 1 c false) b.tty.toConsole }
  accesses :=
    b.accesses ++ (b.tty.toConsole.putcCalls b.tty.curTerminal 1 false text).map .printf

/-- A call of `printf` with a string literal, which lies below the memory. -/
def literalCall (memory : Word → Byte) (format : String) (args : List Word) :
    PrintfCall where
  memory := fun place =>
    if place < 0 then (ascii format).getD (place + (ascii format).length + 1).toNat nul
    else memory (BitVec.ofInt 32 place)
  format := -((ascii format).length + 1)
  stack := fun i => args.getD i 0
  convBuf := fun _ => nul

end Boot

/-- Booting goes on, or it has stopped: `entry` has returned, or the turns given to
its loops were not enough. -/
abbrev Booting := Except Boot Boot

/-- The state booting has come to. -/
def Booting.reached : Booting → Boot
  | .ok b => b
  | .error b => b

namespace BootInput

variable (m : BootInput) (fuel : Nat)

/-- The globals of the console and the driver have no initialisers. -/
def start : Boot where
  tty :=
    { vram := m.vram
      screenX := fun _ => 0
      screenY := fun _ => 0
      cursor := m.cursor
      keyboardIndex := fun _ => 0
      shiftFlag := false
      capsLockFlag := false
      ctrlFlag := false
      enterFlag := fun _ => false
      newlineFlag := false
      altFlag := false
      curTerminal := 0
      keyboardBuffer := fun _ => nul
      accesses := [] }
  accesses := []

/-- `printf` -/
def printf (format : String) (args : List Word) (b : Boot) : Booting :=
  match (Boot.literalCall m.memory format args).printf fuel with
  | some p => .ok (b.print p.output)
  | none => .error b

/-- A field of the multiboot information, by its offset. -/
def mbi (offset : Word) : Word := load32 m.memory (m.addr + offset)

def flags : Word := m.mbi 0

/-- `if (CHECK_FLAG(mbi->flags, bit)) printf(..)` -/
def printfIf (bit : Nat) (format : String) (args : List Word) (b : Boot) : Booting :=
  if checkFlag m.flags bit then m.printf fuel format args b else .ok b

/-- The loop over the first bytes of a module. -/
def firstBytes (modStart : Word) (b : Boot) : Booting :=
  (List.range 16).foldlM
    (fun b i =>
      m.printf fuel "0x%x " [(m.memory (modStart + BitVec.ofNat 32 i)).signExtend 32] b) b

/-- The loop over the modules, with `left` turns to go. -/
def modulesLoop (modCount : Nat) (mod : Word) (b : Boot) : Nat → Booting
  | 0 => .ok b
  | left + 1 => do
      let modStart := load32 m.memory mod
      let modEnd := load32 m.memory (mod + 4)
      let b ← m.printf fuel "Module %d loaded at address: 0x%#x\n"
        [BitVec.ofNat 32 modCount, modStart] b
      let b ← m.printf fuel "Module %d ends at address: 0x%#x\n"
        [BitVec.ofNat 32 modCount, modEnd] b
      let b ← m.printf fuel "First few bytes of module:\n" [] b
      let b ← m.firstBytes fuel modStart b
      let b ← m.printf fuel "\n" [] b
      modulesLoop (modCount + 1) (mod + 16) b left

def modules (b : Boot) : Booting :=
  if checkFlag m.flags 3 then m.modulesLoop fuel 0 (m.mbi 24) b (m.mbi 20).toNat
  else .ok b

/-- The loop over the memory map. -/
def mmapLoop (mmap : Word) (b : Boot) : Nat → Booting
  | 0 => .error b
  | left + 1 =>
      if mmap.toNat < (m.mbi 48 + m.mbi 44).toNat then do
        let size := load32 m.memory mmap
        let b ← m.printf fuel
          "    size = 0x%x, base_addr = 0x%#x%#x\n    type = 0x%x,  length    = 0x%#x%#x\n"
          [size, load32 m.memory (mmap + 8), load32 m.memory (mmap + 4),
            load32 m.memory (mmap + 20), load32 m.memory (mmap + 16),
            load32 m.memory (mmap + 12)] b
        mmapLoop (mmap + size + 4) b left
      else .ok b

def memoryMap (b : Boot) : Booting :=
  if checkFlag m.flags 6 then do
    let b ← m.printf fuel "mmap_addr = 0x%#x, mmap_length = 0x%x\n" [m.mbi 48, m.mbi 44] b
    m.mmapLoop fuel (m.mbi 48) b fuel
  else .ok b

/-- `entry` up to the tables it sets up: the screen is cleared and the multiboot
information is printed. -/
def report : Booting := do
  let b := m.start.clear m.processId
  if m.magic ≠ multibootBootloaderMagic then
    let b ← m.printf fuel "Invalid magic number: 0x%#x\n" [m.magic] b
    .error b
  else
    let b ← m.printf fuel "flags = 0x%#x\n" [m.flags] b
    let b ← m.printfIf fuel 0 "mem_lower = %uKB, mem_upper = %uKB\n" [m.mbi 4, m.mbi 8] b
    let b ← m.printfIf fuel 1 "boot_device = 0x%#x\n" [m.mbi 12] b
    let b ← m.printfIf fuel 2 "cmdline = %s\n" [m.mbi 16] b
    let b ← m.modules fuel b
    if checkFlag m.flags 4 ∧ checkFlag m.flags 5 then
      let b ← m.printf fuel "Both bits 4 and 5 are set.\n" [] b
      .error b
    else
      let b ← m.printfIf fuel 5 "elf_sec: num = %u, size = 0x%#x, addr = 0x%#x, shndx = 0x%#x\n"
        [m.mbi 28, m.mbi 32, m.mbi 36, m.mbi 40] b
      m.memoryMap fuel b

/-- `entry` from `keyboard_init` to the first `execute`, when no key interrupts it. -/
def startDevices (b : Boot) : Booting := do
  let b := { b with tty := b.tty.keyboardInit }
  let b := { b with tty := { b.tty with toConsole := b.tty.toConsole.updateCursor 0 0 } }
  let b ← m.printf fuel "Enabling Interrupts\n" [] b
  .ok (b.clear m.processId)

/-- `entry` up to the first `execute`, with `fuel` turns for each of its loops. -/
def entry : Booting := (m.report fuel).bind (m.startDevices fuel)

end BootInput

namespace ConsoleAccess

/-- The index into `screen_x` and `screen_y`. -/
def index : ConsoleAccess → Int
  | .clear curTerminal => curTerminal - 1
  | .prompt call => call.terminal - 1
  | .printf call => call.terminal - 1

/-- While `curTerminal` is displayed, `clear` works on its screen, and `printf` on the
page of terminal 1. -/
def On (curTerminal : Int) : ConsoleAccess → Prop
  | .clear terminal => terminal = curTerminal
  | .prompt call => call.terminal = curTerminal
  | .printf call =>
      call.terminal = 1 ∧ call.page = Console.pageOf curTerminal 1 ∧ call.Inside

end ConsoleAccess

/-- The state of the console has been valid at every access. -/
structure Boot.ConsoleValid (b : Boot) : Prop where
  indices : ∀ access ∈ b.accesses, 0 ≤ access.index ∧ access.index ≤ 2
  displayed : ∀ call, .printf call ∈ b.accesses → ∀ address ∈ call.cell,
    video ≤ address ∧ address + 1 < video + 80 * 25 * 2

/-- Booting goes on from `before` with `curTerminal` displayed. -/
structure Boot.At (curTerminal : Int) (before : List ConsoleAccess) (b : Boot) : Prop where
  displayed : b.tty.curTerminal = curTerminal
  bounds : b.tty.toConsole.CursorsInBounds
  accesses : ∃ later, b.accesses = before ++ later ∧ ∀ access ∈ later, access.On curTerminal

/-- The state booting has come to is one of these. -/
def Booting.Reaches (P : Boot → Prop) (m : Booting) : Prop := P m.reached

theorem Booting.Reaches.bind {P : Boot → Prop} {m : Booting} {f : Boot → Booting}
    (first : m.Reaches P) (second : ∀ b, P b → (f b).Reaches P) :
    Booting.Reaches P (Except.bind m f) := by
  cases m with
  | error b => exact first
  | ok b => exact second b first

theorem Console.putcCalls_mem {con : Console} {curTerminal curProcessLocal : Int}
    {keyboardPrint : Bool} {text : List Byte} {call : PutcCall}
    (member : call ∈ con.putcCalls curTerminal curProcessLocal keyboardPrint text) :
    call.curTerminal = curTerminal ∧ call.curProcessLocal = curProcessLocal ∧
      call.keyboardPrint = keyboardPrint := by
  induction text generalizing con with
  | nil => exact absurd member List.not_mem_nil
  | cons c rest induction =>
      rw [putcCalls, List.mem_cons] at member
      rcases member with here | later
      · rw [here]
        exact ⟨rfl, rfl, rfl⟩
      · exact induction later

/-- `clear` keeps the cursors on their screens, also when no terminal is displayed. -/
theorem Console.CursorsInBounds.clear {con : Console} (bounds : con.CursorsInBounds)
    {curTerminal : Int} (atMost : curTerminal ≤ 3) (curProcessLocal processId : Int) :
    (con.clear curTerminal curProcessLocal processId).CursorsInBounds := by
  by_cases isDisplayed : 1 ≤ curTerminal
  · have cleared := bounds.cleared curTerminal
    have prompted := @Console.CursorsInBounds.puts _ cleared curTerminal curProcessLocal true
      _ rfl isDisplayed atMost prompt
    rw [clear_eq]
    split
    · exact prompted.1
    · exact cleared
  · intro terminal low high
    obtain ⟨x, y⟩ := con.clear_others curTerminal curProcessLocal processId
      (by omega : terminal - 1 ≠ curTerminal - 1)
    rw [x, y]
    exact bounds terminal low high

namespace Boot.At

variable {curTerminal : Int} {before : List ConsoleAccess} {b : Boot}

theorem append (here : b.At curTerminal before) {new : List ConsoleAccess} {con : Console}
    (bounds : con.CursorsInBounds) (on : ∀ access ∈ new, access.On curTerminal) :
    Boot.At curTerminal before ⟨{ b.tty with toConsole := con }, b.accesses ++ new⟩ where
  displayed := here.displayed
  bounds := bounds
  accesses := by
    obtain ⟨later, isAppend, earlier⟩ := here.accesses
    refine ⟨later ++ new, ?_, ?_⟩
    · rw [isAppend, List.append_assoc]
    · rw [List.forall_mem_append]
      exact ⟨earlier, on⟩

theorem print (here : b.At curTerminal before) (text : List Byte) :
    (b.print text).At curTerminal before := by
  obtain ⟨after, inside⟩ := @Console.CursorsInBounds.puts _ here.bounds b.tty.curTerminal 1
    false 1 rfl (by decide) (by decide) text
  apply here.append after
  intro access member
  obtain ⟨call, isCall, isAccess⟩ := List.mem_map.mp member
  obtain ⟨terminal, own, noKey⟩ := Console.putcCalls_mem isCall
  have isFirst : call.terminal = 1 := by rw [PutcCall.terminal, noKey, own]; rfl
  rw [← isAccess]
  refine ⟨isFirst, ?_, inside call isCall⟩
  rw [PutcCall.page, isFirst, terminal, here.displayed]

theorem clear (here : b.At curTerminal before) (atMost : curTerminal ≤ 3) (processId : Int) :
    (b.clear processId).At curTerminal before := by
  have low : b.tty.curTerminal ≤ 3 := here.displayed ▸ atMost
  apply here.append (here.bounds.clear low 1 processId)
  rw [List.forall_mem_cons]
  refine ⟨here.displayed, ?_⟩
  intro access member
  obtain ⟨call, isCall, isAccess⟩ := List.mem_map.mp member
  rw [Console.clearCalls] at isCall
  split at isCall
  · obtain ⟨terminal, _, key⟩ := Console.putcCalls_mem isCall
    rw [← isAccess]
    change call.terminal = curTerminal
    rw [PutcCall.terminal, key, terminal, here.displayed]
    rfl
  · exact absurd isCall List.not_mem_nil

end Boot.At

namespace BootInput

variable {m : BootInput} {fuel : Nat} {curTerminal : Int} {before : List ConsoleAccess}
  {b : Boot}

theorem printf_reaches (format : String) (args : List Word)
    (here : b.At curTerminal before) :
    (m.printf fuel format args b).Reaches (Boot.At curTerminal before) := by
  unfold BootInput.printf
  split
  · exact here.print _
  · exact here

theorem printfIf_reaches (bit : Nat) (format : String) (args : List Word)
    (here : b.At curTerminal before) :
    (m.printfIf fuel bit format args b).Reaches (Boot.At curTerminal before) := by
  unfold BootInput.printfIf
  split
  · exact printf_reaches format args here
  · exact here

theorem firstBytes_reaches (modStart : Word) (here : b.At curTerminal before) :
    (m.firstBytes fuel modStart b).Reaches (Boot.At curTerminal before) := by
  unfold BootInput.firstBytes
  generalize List.range 16 = places
  induction places generalizing b with
  | nil => exact here
  | cons i rest induction =>
      rw [List.foldlM_cons]
      exact (printf_reaches _ _ here).bind fun _ next => induction next

theorem modulesLoop_reaches (left modCount : Nat) (mod : Word)
    (here : b.At curTerminal before) :
    (m.modulesLoop fuel modCount mod b left).Reaches (Boot.At curTerminal before) := by
  induction left generalizing modCount mod b with
  | zero => exact here
  | succ left induction =>
      rw [BootInput.modulesLoop]
      apply (printf_reaches _ _ here).bind
      intro b here
      apply (printf_reaches _ _ here).bind
      intro b here
      apply (printf_reaches _ _ here).bind
      intro b here
      apply (firstBytes_reaches _ here).bind
      intro b here
      apply (printf_reaches _ _ here).bind
      intro b here
      exact induction _ _ here

theorem modules_reaches (here : b.At curTerminal before) :
    (m.modules fuel b).Reaches (Boot.At curTerminal before) := by
  unfold BootInput.modules
  split
  · exact modulesLoop_reaches _ _ _ here
  · exact here

theorem mmapLoop_reaches (left : Nat) (mmap : Word) (here : b.At curTerminal before) :
    (m.mmapLoop fuel mmap b left).Reaches (Boot.At curTerminal before) := by
  induction left generalizing mmap b with
  | zero => exact here
  | succ left induction =>
      rw [BootInput.mmapLoop]
      split
      · apply (printf_reaches _ _ here).bind
        intro b here
        exact induction _ here
      · exact here

theorem memoryMap_reaches (here : b.At curTerminal before) :
    (m.memoryMap fuel b).Reaches (Boot.At curTerminal before) := by
  unfold BootInput.memoryMap
  split
  · apply (printf_reaches _ _ here).bind
    intro b here
    exact mmapLoop_reaches _ _ here
  · exact here

theorem start_clear (m : BootInput) : (m.start.clear m.processId).At 0 [.clear 0] := by
  have start : m.start.At 0 [] := by
    constructor
    case displayed => rfl
    case bounds =>
      intro terminal _ _
      have inside : (0 : Int) < 80 ∧ (0 : Int) < 25 := by decide
      exact ⟨⟨le_rfl, inside.1⟩, le_rfl, inside.2⟩
    case accesses => exact ⟨[], rfl, by simp⟩
  have cleared := start.clear (by decide) m.processId
  obtain ⟨later, isAppend, on⟩ := cleared.accesses
  rw [List.nil_append] at isAppend
  rw [← isAppend] at on
  refine ⟨cleared.displayed, cleared.bounds, _, rfl, ?_⟩
  intro access member
  exact on access (List.mem_cons_of_mem _ member)

/-- Until `keyboard_init` no terminal is displayed. -/
theorem report_reaches (m : BootInput) (fuel : Nat) :
    (m.report fuel).Reaches (Boot.At 0 [.clear 0]) := by
  have here := m.start_clear
  rw [BootInput.report]
  split
  · apply (printf_reaches _ _ here).bind
    intro b here
    exact here
  · apply (printf_reaches _ _ here).bind
    intro b here
    apply (printfIf_reaches _ _ _ here).bind
    intro b here
    apply (printfIf_reaches _ _ _ here).bind
    intro b here
    apply (printfIf_reaches _ _ _ here).bind
    intro b here
    apply (modules_reaches here).bind
    intro b here
    split
    · apply (printf_reaches _ _ here).bind
      intro b here
      exact here
    · apply (printfIf_reaches _ _ _ here).bind
      intro b here
      exact memoryMap_reaches here

theorem startDevices_reaches (here : b.At 0 before) :
    (m.startDevices fuel b).Reaches (Boot.At 1 b.accesses) := by
  have devices : Boot.At 1 b.accesses
      { b with tty := { b.tty.keyboardInit with
          toConsole := b.tty.keyboardInit.toConsole.updateCursor 0 0 } } := by
    constructor
    case displayed => rfl
    case bounds => exact here.bounds
    case accesses => exact ⟨[], (List.append_nil _).symm, by simp⟩
  rw [BootInput.startDevices]
  apply (printf_reaches _ _ devices).bind
  intro b here
  exact here.clear (by decide) m.processId

/-- Every access of a boot is made with no terminal displayed, up to `keyboard_init`,
or with terminal 1. -/
theorem entry_accesses (m : BootInput) (fuel : Nat) :
    ∃ early late,
      (m.entry fuel).reached.accesses = .clear 0 :: early ++ late ∧
        (∀ access ∈ early, access.On 0) ∧ ∀ access ∈ late, access.On 1 := by
  have reported := m.report_reaches fuel
  rw [BootInput.entry]
  cases outcome : m.report fuel with
  | error b =>
      rw [outcome] at reported
      obtain ⟨early, isAppend, on⟩ := reported.accesses
      refine ⟨early, [], ?_, on, by simp⟩
      rw [List.append_nil]
      exact isAppend
  | ok b =>
      rw [outcome] at reported
      obtain ⟨early, isAppend, on⟩ := reported.accesses
      obtain ⟨late, isLater, onLater⟩ := (@startDevices_reaches m fuel _ b reported).accesses
      change b.accesses = .clear 0 :: early at isAppend
      rw [isAppend] at isLater
      exact ⟨early, late, isLater, on, onLater⟩

end BootInput

theorem ConsoleAccess.On.valid {access : ConsoleAccess} (on : access.On 1) :
    access.index = 0 ∧
      ∀ call, access = .printf call → ∀ address ∈ call.cell,
        video ≤ address ∧ address + 1 < video + 80 * 25 * 2 := by
  cases access with
  | clear terminal =>
      cases on
      exact ⟨rfl, fun _ other => nomatch other⟩
  | prompt call =>
      change call.terminal = 1 at on
      refine ⟨?_, fun _ other => nomatch other⟩
      rw [ConsoleAccess.index, on]
      rfl
  | printf call =>
      obtain ⟨isFirst, page, inside⟩ := on
      rw [Console.pageOf, if_pos rfl] at page
      constructor
      · rw [ConsoleAccess.index, isFirst]
        rfl
      · intro other same address isCell
        cases same
        rw [← page]
        exact inside address isCell

/-- Before it, what `printf` prints is stored on the page behind the display. -/
theorem ConsoleAccess.On.hidden {call : PutcCall} (on : ConsoleAccess.On 0 (.printf call)) :
    ∀ address ∈ call.cell, video + fourKb ≤ address := by
  obtain ⟨_, page, inside⟩ := on
  have own : Console.pageOf 0 1 = video + fourKb := by decide
  rw [own] at page
  intro address isCell
  rw [← page]
  exact (inside address isCell).1

/-- In no boot has the state of the console been valid at every access. -/
theorem entry_invalid (m : BootInput) (fuel : Nat) :
    ¬(m.entry fuel).reached.ConsoleValid := by
  intro valid
  obtain ⟨early, late, isAppend, _, _⟩ := m.entry_accesses fuel
  have first : ConsoleAccess.clear 0 ∈ (m.entry fuel).reached.accesses := by
    rw [isAppend]
    exact List.mem_cons_self
  have index := (valid.indices _ first).1
  exact absurd index (by decide)

/-- A boot with no multiboot information. -/
def sampleBoot : BootInput where
  magic := multibootBootloaderMagic
  addr := 0
  memory := fun _ => 0
  processId := 0
  vram := fun _ => 0
  cursor := 0

/-- The first `clear` stores to `screen_x[-1]`. -/
theorem entry_clears_outside :
    (∃ access ∈ (sampleBoot.entry 100).reached.accesses, access.index = -1) ∧
      ¬∀ (m : BootInput) (fuel : Nat), (m.entry fuel).reached.ConsoleValid := by
  obtain ⟨early, late, isAppend, _, _⟩ := sampleBoot.entry_accesses 100
  have first : ConsoleAccess.clear 0 ∈ (sampleBoot.entry 100).reached.accesses := by
    rw [isAppend]
    exact List.mem_cons_self
  refine ⟨⟨_, first, rfl⟩, ?_⟩
  intro valid
  have index := ((valid sampleBoot 100).indices _ first).1
  exact absurd index (by decide)

end LightweightOs
