import LightweightOs.PutcCalls
import LightweightOs.TerminalIsolation
import LightweightOs.PendingLine
import LightweightOs.System

/-!
# The process a key interrupts

`keyboard_handler` runs on the kernel stack of whatever process the key
interrupts.  It prints with `putc_keyboard`, which does not look at that
process; only `clear`, for Ctrl+L, asks whether it is a base shell before it
prints the prompt.
-/

namespace LightweightOs

open Transition

/-- The PIDs for which `clear` prints the prompt. -/
def IsBaseShell (processId : Int) : Prop :=
  processId = 1 ∨ processId = 2 ∨ processId = 3

instance (processId : Int) : Decidable (IsBaseShell processId) :=
  inferInstanceAs (Decidable (_ ∨ _ ∨ _))

namespace Tty

instance (t : Tty) (scanCode : Byte) : Decidable (t.Clears scanCode) :=
  inferInstanceAs (Decidable (_ ∧ _))

/-- The two drivers have the same buffers, indices and flags, display the same
terminal and show the same on each. -/
structure SameTerminals (t u : Tty) : Prop where
  keyboardBuffer : t.keyboardBuffer = u.keyboardBuffer
  keyboardIndex : t.keyboardIndex = u.keyboardIndex
  shiftFlag : t.shiftFlag = u.shiftFlag
  capsLockFlag : t.capsLockFlag = u.capsLockFlag
  ctrlFlag : t.ctrlFlag = u.ctrlFlag
  enterFlag : t.enterFlag = u.enterFlag
  newlineFlag : t.newlineFlag = u.newlineFlag
  altFlag : t.altFlag = u.altFlag
  curTerminal : t.curTerminal = u.curTerminal
  screens : ∀ terminal, 1 ≤ terminal → terminal ≤ 3 →
    (t.logical terminal).Same (u.logical terminal)

theorem SameTerminals.refl (t : Tty) : SameTerminals t t := by
  constructor
  case screens => exact fun terminal _ _ => .refl _
  all_goals rfl

variable (who other : Interrupted) (scanCode : Byte)

theorem putcKeyboard_who (t : Tty) (c : Byte) :
    t.putcKeyboard who c = t.putcKeyboard other c := by
  simp only [putcKeyboard, Console.putc, or_true, if_true]

theorem enterKey_who (t : Tty) : t.enterKey who scanCode = t.enterKey other scanCode := by
  simp only [enterKey, putcKeyboard_who who other]

theorem wrapLine_who (t : Tty) : t.wrapLine who = t.wrapLine other := by
  simp only [wrapLine, putcKeyboard_who who other]

theorem tabKey_who (t : Tty) : t.tabKey who scanCode = t.tabKey other scanCode := by
  simp only [tabKey, tabStore, putcKeyboard_who who other]

theorem backspaceKey_who (t : Tty) :
    t.backspaceKey who scanCode = t.backspaceKey other scanCode := by
  have chars : ∀ u : Tty, u.eraseChar who = u.eraseChar other := by
    intro u
    simp only [eraseChar, putcKeyboard_who who other]
  have newlines : ∀ u : Tty, u.eraseNewline who = u.eraseNewline other := by
    intro u
    simp only [eraseNewline, putcKeyboard_who who other]
  simp only [backspaceKey, chars, newlines]

theorem charKey_who (t : Tty) : t.charKey who scanCode = t.charKey other scanCode := by
  simp only [charKey, putcKeyboard_who who other]

theorem clear_who (con : Console) (curTerminal : Int)
    (same : IsBaseShell who.processId ↔ IsBaseShell other.processId) :
    con.clear curTerminal who.curProcessLocal who.processId =
      con.clear curTerminal other.curProcessLocal other.processId := by
  have printed : ∀ (con : Console) (c : Byte),
      con.putc curTerminal who.curProcessLocal c true =
        con.putc curTerminal other.curProcessLocal c true := by
    intro con c
    simp only [Console.putc, or_true, if_true]
  simp only [IsBaseShell] at same
  simp only [Console.clear_eq, same, printed]

theorem clearKey_who (t : Tty)
    (same : ¬(t.ctrlFlag ∧ scanCode = ScanCode.l) ∨
      (IsBaseShell who.processId ↔ IsBaseShell other.processId)) :
    t.clearKey who scanCode = t.clearKey other scanCode := by
  rcases same with noClear | same
  · rw [clearKey_of_not who noClear, clearKey_of_not other noClear]
  · simp only [clearKey, clear_who who other _ _ same]

theorem keyPress_who (t : Tty)
    (same : ¬t.Clears scanCode ∨
      (IsBaseShell who.processId ↔ IsBaseShell other.processId)) :
    t.keyPress who scanCode = t.keyPress other scanCode := by
  have kept := (SameControls.enterKey other scanCode (t.modifierKeys scanCode)).trans
    (SameControls.wrapLine other _)
  rw [Clears, ← kept.ctrlFlag] at same
  simp only [keyPress, keyBlocks, enterKey_who who other, wrapLine_who who other,
    clearKey_who who other scanCode _ same, tabKey_who who other,
    backspaceKey_who who other, charKey_who who other]

theorem clear_cursor (con : Console) (curTerminal : Int) :
    (con.clear curTerminal who.curProcessLocal who.processId).screenX (curTerminal - 1) =
        (if IsBaseShell who.processId then 7 else 0) ∧
      (con.clear curTerminal who.curProcessLocal who.processId).screenY (curTerminal - 1) =
        0 := by
  have left : (con.cleared curTerminal).screenX (curTerminal - 1) = 0 := by
    rw [Console.cleared_screenX, assign_self]
  have top : (con.cleared curTerminal).screenY (curTerminal - 1) = 0 := by
    rw [Console.cleared_screenY, assign_self]
  obtain ⟨x, y⟩ := (con.cleared curTerminal).puts_text curTerminal who.curProcessLocal
    Console.prompt (by decide) (by rw [left]) (by rw [left]; decide)
  rw [Console.clear_eq]
  by_cases shell : IsBaseShell who.processId
  · have printed : who.processId = 1 ∨ who.processId = 2 ∨ who.processId = 3 := shell
    rw [if_pos printed, if_pos shell, x, y, left, top]
    exact ⟨rfl, rfl⟩
  · have silent : ¬(who.processId = 1 ∨ who.processId = 2 ∨ who.processId = 3) := shell
    rw [if_neg silent, if_neg shell]
    exact ⟨left, top⟩

theorem keyPress_clears (t : Tty) (clears : t.Clears scanCode) :
    (t.keyPress who scanCode).screenX t.row =
      if IsBaseShell who.processId then 7 else 0 := by
  obtain ⟨held, rfl⟩ := clears
  have kept := (SameControls.enterKey who ScanCode.l (t.modifierKeys ScanCode.l)).trans
    (SameControls.wrapLine who _)
  have pressed := kept.ctrlFlag.trans held
  have cleared := clearKey_toConsole who ScanCode.l
    (((t.modifierKeys ScanCode.l).enterKey who ScanCode.l).wrapLine who)
  rw [if_pos ⟨pressed, rfl⟩] at cleared
  have controls := SameControls.clearKey who ScanCode.l
    (((t.modifierKeys ScanCode.l).enterKey who ScanCode.l).wrapLine who)
  rw [(keyPress_cursors t who ScanCode.l).1, keyBlocks]
  generalize ((t.modifierKeys ScanCode.l).enterKey who ScanCode.l).wrapLine who = u at *
  rw [tabKey_of_ne _ who (by decide), backspaceKey_of_ne _ who (by decide)]
  have rejected : ¬(u.clearKey who ScanCode.l).placeCursor.acceptsChar ScanCode.l := by
    intro accepted
    have released : (u.clearKey who ScanCode.l).ctrlFlag = false := accepted.2.2.1
    rw [controls.ctrlFlag, pressed] at released
    cases released
  rw [charKey, if_neg rejected]
  have shown : t.row = u.curTerminal - 1 := by
    rw [row, kept.curTerminal]
    rfl
  rw [shown, ← (clear_cursor who u.toConsole u.curTerminal).1, ← cleared]
  rfl

/-- The processes matter exactly when the key clears the screen and only one of them
is a base shell. -/
theorem sameTerminals_iff (t : Tty) (low : 1 ≤ t.curTerminal) (high : t.curTerminal ≤ 3) :
    SameTerminals (t.keyPress who scanCode) (t.keyPress other scanCode) ↔
      ¬t.Clears scanCode ∨
        (IsBaseShell who.processId ↔ IsBaseShell other.processId) := by
  constructor
  · intro same
    by_cases clears : t.Clears scanCode
    · right
      have column : (t.keyPress who scanCode).screenX t.row =
          (t.keyPress other scanCode).screenX t.row :=
        (same.screens t.curTerminal low high).x
      rw [keyPress_clears who scanCode t clears, keyPress_clears other scanCode t clears]
        at column
      by_cases first : IsBaseShell who.processId <;>
        by_cases second : IsBaseShell other.processId <;> simp_all
    · exact .inl clears
  · intro same
    rw [keyPress_who who other scanCode t same]
    exact .refl _

end Tty

/-- A choice of the process a key interrupts, with the frames of the handler and of
the `execute` it may call. -/
structure Interruption where
  pid : Int
  curProcess : Int
  frame : Frame
  inner : Frame
  locals : Locals

namespace Interruption

/-- The process is live and the handler runs on its kernel stack. -/
structure Possible (i : Interruption) (s : Kernel) : Prop where
  range : 1 ≤ i.pid ∧ i.pid ≤ 6
  live : s.table.live i.pid
  onStack : currentPcb i.frame.esp = pcbAddr i.pid

/-- The kernel when the key comes. -/
def state (i : Interruption) (s : Kernel) (tty : Tty) : Kernel :=
  { s with tty := tty, curProcess := i.curProcess, esp := i.frame.esp }

def press (i : Interruption) (s : Kernel) (tty : Tty) (scanCode : Byte)
    (after : Nat → Byte) : Option KeyResult :=
  (i.state s tty).keyboardHandler i.frame i.inner i.locals scanCode after

end Interruption

/-- A block but for its saved frames. -/
def ProcessControlBlock.withoutFrames (block : ProcessControlBlock) :
    ProcessControlBlock := { block with ebp := 0, schedEbp := 0 }

/-- The two kernels have the same process table, clock, files and pages, and the same
process control blocks but for the saved frames. -/
structure SameElsewhere (s u : Kernel) : Prop where
  table : s.table = u.table
  blocks : ∀ address, (s.pcb address).withoutFrames = (u.pcb address).withoutFrames
  pages : ∀ n, pageFrame (s.pdt n) = pageFrame (u.pdt n)
  ptVidmap : s.ptVidmap = u.ptVidmap
  tssEsp0 : s.tssEsp0 = u.tssEsp0
  rtc : s.rtc = u.rtc
  fs : s.fs = u.fs

theorem saveSched_withoutFrames (pcb : PcbMemory) (current frameEbp address : Word) :
    (saveSched pcb current frameEbp address).withoutFrames =
      (pcb address).withoutFrames := by
  by_cases own : address = current <;>
    simp [saveSched, ProcessControlBlock.withoutFrames, own]

/-- What a base shell's block becomes. -/
def baseBlock (pid : Int) (command : List Byte) (block : ProcessControlBlock) :
    ProcessControlBlock :=
  { block with
    processId := pid
    exitStatus := 0
    name := strcpy block.name 0 (command.take (nameEnd command))
    parentPcb := 0
    childPcb := 0
    files := standardFiles block.files
    args := copyArgs command (clearArgs block.args) 0
      (skipSpaces command (nameEnd command) 128) argsBufferSize }

/-- A new base shell writes its own block, and a frame into the interrupted one. -/
theorem installPcb_withoutFrames (pcb : PcbMemory) (current frameEbp : Word) (pid : Int)
    (command : List Byte) (address : Word) :
    (installPcb pcb current frameEbp pid true command address).withoutFrames =
      if address = pcbAddr pid then baseBlock pid command (pcb address).withoutFrames
      else (pcb address).withoutFrames := by
  by_cases new : address = pcbAddr pid
  · subst new
    by_cases own : pcbAddr pid = current
    · subst own
      simp [installPcb, ProcessControlBlock.withoutFrames, baseBlock, standardFiles]
    · simp [installPcb, ProcessControlBlock.withoutFrames, baseBlock, standardFiles, own]
  · by_cases own : address = current
    · subst own
      simp [installPcb, ProcessControlBlock.withoutFrames, new]
    · simp [installPcb, ProcessControlBlock.withoutFrames, new, own]

namespace Interruption

variable {s : Kernel} {a : Session} {i : Interruption}

theorem Possible.interrupted (possible : i.Possible s) (represents : Represents s a)
    (tty : Tty) :
    ∃ terminal, (i.state s tty).interrupted (currentPcb i.frame.esp) =
      some ⟨terminal, i.pid⟩ := by
  have live : a.Live i.pid :=
    (represents.accounts.slots i.pid possible.range.1 possible.range.2).mp possible.live
  obtain ⟨t, member⟩ := live
  have named := represents.links.named i.pid ⟨t, member⟩
  have found := represents.getBaseProcessPcb member
  rw [possible.onStack]
  simp only [Kernel.interrupted, Kernel.curProcessLocal, state, found, named,
    Option.map_some]
  by_cases zero : s.table.baseShellBootedBitmask = 0
  · exact ⟨1, by rw [if_pos zero]; rfl⟩
  · exact ⟨_, by rw [if_neg zero]; rfl⟩

/-- How the handler ends: with the key handled, or with a shell booted. -/
theorem Possible.press_eq (possible : i.Possible s) (represents : Represents s a)
    (tty : Tty) (scanCode : Byte) (after : Nat → Byte) :
    ∃ who : Interrupted, who.processId = i.pid ∧
      match (tty.modifierKeys scanCode).selectedTerminal scanCode with
      | none => i.press s tty scanCode after =
          some (.handled (i.state s (tty.keyPress who scanCode)))
      | some selected =>
          if s.table.booted selected then
            i.press s tty scanCode after =
              some (.handled (i.state s (tty.keyPress who scanCode)))
          else
            ∃ started, i.press s tty scanCode after = some (.boots started
              (((i.state s (tty.keyPress who scanCode)).prepareBoot i.frame
                selected).install i.inner i.locals
                ({ s.table with shellInitBoot := selected } : ProcessTable).bootBase
                (localCommand (shellCommand after)))) := by
  obtain ⟨terminal, found⟩ := possible.interrupted represents tty
  have counted := represents.accounts.counted
  have bound := @ProcessTable.auxSlots_le s.table.activeProcesses
  refine ⟨⟨terminal, i.pid⟩, rfl, ?_⟩
  rw [← Tty.keyBlocks_selectedTerminal tty ⟨terminal, i.pid⟩ scanCode]
  simp only [press, Kernel.keyboardHandler, found, Tty.keyPress]
  change match (tty.keyBlocks ⟨terminal, i.pid⟩ scanCode).selectedTerminal scanCode with
    | none => _
    | some selected => _
  cases selects : (tty.keyBlocks ⟨terminal, i.pid⟩ scanCode).selectedTerminal scanCode with
  | none => simp only [state, selects]
  | some selected =>
      have range := Tty.selectedTerminal_range selects
      simp only [state, selects]
      by_cases booted : s.table.booted selected
      · rw [if_pos booted]
        exact if_pos booted
      · rw [if_neg booted]
        obtain ⟨program, boots⟩ := @Kernel.bootTerminal_boots
          (i.state s ((tty.keyBlocks ⟨terminal, i.pid⟩ scanCode).switchTerminal selected))
          represents.shell (by simp only [state]; omega) i.frame i.inner i.locals selected
          (by omega) after
        exact ⟨_, (if_neg booted).trans boots⟩

/-- Without a boot the kernels differ in the running process only. -/
theorem sameElsewhere_state (i j : Interruption) (s : Kernel) (tty other : Tty) :
    SameElsewhere (i.state s tty) (j.state s other) := by
  constructor
  case blocks => exact fun _ => rfl
  case pages => exact fun _ => rfl
  all_goals rfl

theorem sameElsewhere_boot (i j : Interruption) (s : Kernel) (tty other : Tty)
    (selected : Int) (command : List Byte) :
    SameElsewhere
      (((i.state s tty).prepareBoot i.frame selected).install i.inner i.locals
        ({ s.table with shellInitBoot := selected } : ProcessTable).bootBase command)
      (((j.state s other).prepareBoot j.frame selected).install j.inner j.locals
        ({ s.table with shellInitBoot := selected } : ProcessTable).bootBase command) := by
  constructor
  case blocks =>
    intro address
    simp only [Kernel.install, Kernel.prepareBoot, state, ProcessTable.bootBase]
    rw [installPcb_withoutFrames, installPcb_withoutFrames, saveSched_withoutFrames,
      saveSched_withoutFrames]
  case pages =>
    intro n
    simp only [Kernel.install, Kernel.prepareBoot, state]
    by_cases program : n = 32
    · subst program
      rw [assign_self, assign_self, pageFrame_pdtEntryPageSetup,
        pageFrame_pdtEntryPageSetup]
    · rw [assign_of_ne program, assign_of_ne program]
  all_goals rfl

end Interruption

/-- In every reachable process structure and for every state of the terminals, a key
has the same effect on them whichever process it interrupts, exactly if it does not
clear the screen or both or neither of the two processes are base shells. -/
theorem keyboard_independence {start s : Kernel} {history : List Record}
    (booted : Booted start) (run : Run Step start history s) (tty : Tty)
    (displayed : 1 ≤ tty.curTerminal ∧ tty.curTerminal ≤ 3) {i j : Interruption}
    (first : i.Possible s) (second : j.Possible s) (scanCode : Byte)
    (after : Nat → Byte) :
    ∃ result other, i.press s tty scanCode after = some result ∧
      j.press s tty scanCode after = some other ∧
      (Tty.SameTerminals result.next.tty other.next.tty ↔
        ¬tty.Clears scanCode ∨ (IsBaseShell i.pid ↔ IsBaseShell j.pid)) ∧
      SameElsewhere result.next other.next := by
  obtain ⟨_, _, represents⟩ := booted.run run
  obtain ⟨who, isFirst, pressed⟩ := first.press_eq represents tty scanCode after
  obtain ⟨whom, isSecond, pressedToo⟩ := second.press_eq represents tty scanCode after
  have same := Tty.sameTerminals_iff who whom scanCode tty displayed.1 displayed.2
  rw [isFirst, isSecond] at same
  cases selects : (tty.modifierKeys scanCode).selectedTerminal scanCode with
  | none =>
      rw [selects] at pressed pressedToo
      exact ⟨_, _, pressed, pressedToo, same, i.sameElsewhere_state j s _ _⟩
  | some selected =>
      rw [selects] at pressed pressedToo
      by_cases isBooted : s.table.booted selected
      · simp only [if_pos isBooted] at pressed pressedToo
        exact ⟨_, _, pressed, pressedToo, same, i.sameElsewhere_state j s _ _⟩
      · simp only [if_neg isBooted] at pressed pressedToo
        obtain ⟨started, boots⟩ := pressed
        obtain ⟨startedToo, bootsToo⟩ := pressedToo
        exact ⟨_, _, boots, bootsToo, same, i.sameElsewhere_boot j s _ _ _ _⟩

/-- The handler on the stack of a process that is scheduled. -/
def sampleInterruption (pid : Int) : Interruption where
  pid := pid
  curProcess := 1
  frame := sampleFrame pid
  inner := sampleFrame pid
  locals := sampleLocals

theorem twoShells_run :
    ∃ history s, Run Step sampleStart history s ∧
      s.table.live 1 ∧ s.table.live 4 := by
  obtain ⟨history, s, run, live⟩ :=
    @Kernel.run_of_replay sampleStart [.execute (sampleFrame 1) sampleLocals sampleCommand]
      (fun _ s => s.table.activeProcesses 0 ≠ 0 ∧ s.table.activeProcesses 3 ≠ 0) _
      (by decide +kernel)
  exact ⟨history, s, run, live⟩

theorem sampleInterruption_possible {s : Kernel} {pid : Int} (range : pid = 1 ∨ pid = 4)
    (live : s.table.live pid) : (sampleInterruption pid).Possible s := by
  refine ⟨?_, live, ?_⟩ <;> rcases range with rfl | rfl <;> decide

theorem keyboard_independence_letterA :
    ∃ history s, Run Step sampleStart history s ∧ ∃ result other,
      (sampleInterruption 1).press s sampleTty 0x1E#8 (fun _ => 0) = some result ∧
      (sampleInterruption 4).press s sampleTty 0x1E#8 (fun _ => 0) = some other ∧
      Tty.SameTerminals result.next.tty other.next.tty := by
  obtain ⟨history, s, run, shell, child⟩ := twoShells_run
  obtain ⟨result, other, pressed, pressedToo, same, _⟩ :=
    keyboard_independence sampleStart_booted run sampleTty (by decide)
      (sampleInterruption_possible (.inl rfl) shell)
      (sampleInterruption_possible (.inr rfl) child) 0x1E#8 fun _ => 0
  exact ⟨history, s, run, result, other, pressed, pressedToo, same.mpr (.inl (by decide))⟩

/-- Ctrl+L prints the prompt when it interrupts the first shell, and does not when it
interrupts the second. -/
theorem keyboard_independence_clear :
    ¬∀ (start s : Kernel) (history : List Record) (tty : Tty) (i j : Interruption)
        (scanCode : Byte) (after : Nat → Byte), Booted start →
      Run Step start history s → i.Possible s → j.Possible s →
      1 ≤ tty.curTerminal ∧ tty.curTerminal ≤ 3 →
      ∃ result other, i.press s tty scanCode after = some result ∧
        j.press s tty scanCode after = some other ∧
        Tty.SameTerminals result.next.tty other.next.tty := by
  intro independent
  obtain ⟨history, s, run, shell, child⟩ := twoShells_run
  obtain ⟨tty, shown, clears⟩ : ∃ tty : Tty,
      (1 ≤ tty.curTerminal ∧ tty.curTerminal ≤ 3) ∧ tty.Clears ScanCode.l :=
    ⟨{ sampleTty with ctrlFlag := true }, by decide, by decide⟩
  have first := sampleInterruption_possible (.inl rfl) shell
  have second := sampleInterruption_possible (.inr rfl) child
  obtain ⟨result, other, pressed, pressedToo, same⟩ := independent sampleStart s history
    tty _ _ ScanCode.l (fun _ => 0) sampleStart_booted run first second shown
  obtain ⟨who, isShell, typed⟩ := Kernel.keyboardHandler_tty pressed
  obtain ⟨whom, isChild, typedToo⟩ := Kernel.keyboardHandler_tty pressedToo
  obtain ⟨_, _, represents⟩ := sampleStart_booted.run run
  obtain ⟨_, shellFound⟩ := first.interrupted represents tty
  obtain ⟨_, childFound⟩ := second.interrupted represents tty
  have isFirst : who.processId = 1 := by
    rw [Option.some.inj (isShell.symm.trans shellFound)]
    rfl
  have isSecond : whom.processId = 4 := by
    rw [Option.some.inj (isChild.symm.trans childFound)]
    rfl
  rw [typed, typedToo] at same
  have equal := (Tty.sameTerminals_iff who whom ScanCode.l tty shown.1 shown.2).mp same
  rw [isFirst, isSecond] at equal
  rcases equal with noClear | bothShells
  · exact noClear clears
  · exact absurd bothShells (by decide)

end LightweightOs
