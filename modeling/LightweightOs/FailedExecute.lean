import LightweightOs.TerminalIsolation

/-!
# A failed execute

`execute` searches a slot and updates its counters before it checks the limit
on processes.  The search takes no slot exactly when the limit is passed, so
what the error path has to undo is the counter, and nothing else of the state
but the screen of the caller's terminal has changed.
-/

namespace LightweightOs

open Transition

namespace Console

variable {con : Console} {curTerminal terminal : Int}

theorem printOn_cursors (con : Console) (page terminal : Int) (c : Byte) {index : Int}
    (different : index ≠ terminal - 1) :
    (con.printOn page terminal c).screenX index = con.screenX index ∧
      (con.printOn page terminal c).screenY index = con.screenY index := by
  simp only [printOn]
  split
  · split
    · exact ⟨assign_of_ne different _ _,
        (assign_of_ne different _ _).trans (assign_of_ne different _ _)⟩
    · exact ⟨assign_of_ne different _ _, assign_of_ne different _ _⟩
  · exact ⟨assign_of_ne different _ _, assign_of_ne different _ _⟩

/-- `putc` for a process moves the cursor of its terminal only. -/
theorem putc_cursors (con : Console) (curTerminal terminal : Int) (c : Byte) {index : Int}
    (different : index ≠ terminal - 1) :
    (con.putc curTerminal terminal c false).screenX index = con.screenX index ∧
      (con.putc curTerminal terminal c false).screenY index = con.screenY index := by
  rw [putc]
  split
  case isTrue shown =>
    have own : curTerminal = terminal := by simpa using shown
    subst own
    obtain ⟨cursor, printed⟩ := con.putcDisplay_eq curTerminal c
    rw [printed]
    exact con.printOn_cursors video curTerminal c different
  case isFalse =>
    rw [putcBackground_eq]
    exact con.printOn_cursors _ terminal c different

theorem terminalWrite_cursors (con : Console) (curTerminal terminal : Int)
    (input : List Byte) {index : Int} (different : index ≠ terminal - 1) :
    (con.terminalWrite curTerminal terminal input).screenX index = con.screenX index ∧
      (con.terminalWrite curTerminal terminal input).screenY index =
        con.screenY index := by
  induction input generalizing con with
  | nil => exact ⟨rfl, rfl⟩
  | cons c rest induction =>
      obtain ⟨x, y⟩ := con.putc_cursors curTerminal terminal (if c = tab then space else c)
        different
      obtain ⟨lastX, lastY⟩ := induction
        (con.putc curTerminal terminal (if c = tab then space else c) false)
      exact ⟨lastX.trans x, lastY.trans y⟩

end Console

theorem maxProcessesMessage_plain :
    (maxProcessesMessage.map fun c => if c = tab then space else c) =
      maxProcessesMessage := by
  decide

namespace Kernel

/-- What a call of `execute` that returns leaves behind: the caller is on terminal
`s.curProcess`, whose screen and cursor may have changed by the message. -/
structure FailsQuietly (s : Kernel) (frame : Frame) (value : Int) (next : Kernel) :
    Prop where
  code : value = -1 ∨ value = 1
  table : next.table = s.table
  pcb : next.pcb = s.pcb
  pdt : next.pdt = s.pdt
  tssEsp0 : next.tssEsp0 = s.tssEsp0
  /-- Nothing but the console has changed. -/
  others : next = { s with tty := { s.tty with toConsole := next.tty.toConsole } }
  silent : value = -1 → next = s
  caller : s.curProcessLocal (currentPcb frame.esp) = some s.curProcess
  message : value = 1 → next.tty.toConsole =
    s.tty.toConsole.terminalWrite s.tty.curTerminal s.curProcess maxProcessesMessage
  cursors : ∀ terminal, terminal ≠ s.curProcess →
    next.tty.screenX (terminal - 1) = s.tty.screenX (terminal - 1) ∧
      next.tty.screenY (terminal - 1) = s.tty.screenY (terminal - 1)
  screens : (s.tty.logical s.curProcess).InBounds →
    Console.PrintsOn s.tty.logical next.tty.logical s.curProcess
      (if value = 1 then maxProcessesMessage else [])

/-- The limit is passed only when the search has taken no slot, and then the undone table is
the one before the call. -/
theorem choosePid_undo {table : ProcessTable} {a : Session} (accounts : Accounts table a)
    {isShell : Bool} {nextPid : Int}
    (exceeds : (table.choosePid isShell nextPid).table.auxProcesses > 3) :
    { (table.choosePid isShell nextPid).table with
      auxProcesses := (table.choosePid isShell nextPid).table.auxProcesses - 1 } =
      table := by
  have counted := accounts.counted
  rw [accounts.choosePid] at exceeds ⊢
  cases found : ([3, 4, 5] : List Int).find? fun i => table.activeProcesses i = 0 with
  | none =>
      obtain ⟨_, full⟩ := @ProcessTable.startAux_full table nextPid found
      have restored : table.auxProcesses + 1 - 1 = table.auxProcesses := by omega
      simp only [full, restored]
  | some i =>
      obtain ⟨slot, free, aux⟩ := @ProcessTable.startAux_free table nextPid i found
      have less := ProcessTable.auxSlots_take slot free
      have bound := @ProcessTable.auxSlots_le (assign table.activeProcesses i 1)
      simp only [aux] at exceeds
      omega

theorem FailsQuietly.unchanged {s : Kernel} {frame : Frame}
    (caller : s.curProcessLocal (currentPcb frame.esp) = some s.curProcess) :
    FailsQuietly s frame (-1) s := by
  constructor
  case code => exact .inl rfl
  case caller => exact caller
  case message =>
    intro isOne
    cases isOne
  case cursors => exact fun _ _ => ⟨rfl, rfl⟩
  case screens => exact fun _ => .refl _ _
  case silent => exact fun _ => rfl
  all_goals rfl

theorem FailsQuietly.printed {s next : Kernel} {frame : Frame}
    (caller : s.curProcessLocal (currentPcb frame.esp) = some s.curProcess)
    (low : 1 ≤ s.curProcess)
    (writes : s.terminalWrite (currentPcb frame.esp) maxProcessesMessage = some next) :
    FailsQuietly s frame 1 next := by
  rw [terminalWrite, caller] at writes
  cases writes
  constructor
  case code => exact .inr rfl
  case caller => exact caller
  case message => exact fun _ => rfl
  case silent =>
    intro isMinusOne
    cases isMinusOne
  case cursors =>
    intro terminal different
    apply Console.terminalWrite_cursors
    omega
  case screens =>
    intro bounds
    have prints := Console.prints_terminalWrite s.tty.toConsole maxProcessesMessage bounds
    rw [maxProcessesMessage_plain] at prints
    exact prints.on low
  all_goals rfl

end Kernel

theorem Represents.failsQuietly {s next : Kernel} {a : Session} (represents : Represents s a)
    (fs : FileSystem) {frame : Frame} (on : frame.On s) {locals : Locals}
    {commandUser : Nat → Byte} {value : Int}
    (executes : ({ s with fs := fs } : Kernel).execute frame locals commandUser =
      some (.returns value next)) :
    Kernel.FailsQuietly { s with fs := fs } frame value next := by
  have caller := represents.curProcessLocal on.esp
  have low := represents.terminal.1
  rw [← represents.current] at low
  rcases Kernel.execute_cases executes with
    isReturn | ⟨choice, rfl, ⟨exceeds, written, writes, isReturn⟩ | ⟨program, isStart⟩⟩
  · cases isReturn
    exact .unchanged caller
  · rw [Kernel.choosePid_undo represents.accounts exceeds] at writes
    cases isReturn
    exact .printed caller low writes
  · cases isStart

/-- In every state of a run, on whatever image, an `execute` that comes back has changed
nothing but the screen of its terminal, by the message. -/
theorem failed_execute {start s : Kernel} {history : List Record} (booted : Booted start)
    (run : Run Step start history s) (fs : FileSystem) {frame : Frame} (on : frame.On s)
    (locals : Locals) (commandUser : Nat → Byte) {value : Int} {next : Kernel}
    (executes : ({ s with fs := fs } : Kernel).execute frame locals commandUser =
      some (.returns value next)) :
    Kernel.FailsQuietly { s with fs := fs } frame value next := by
  obtain ⟨a, _, represents⟩ := booted.run run
  exact represents.failsQuietly fs on executes

/-- The call came back with a value. -/
def ExecuteResult.returned (value : Int) : ExecuteResult → Bool
  | .returns code _ => code = value
  | .starts _ _ => false

theorem ExecuteResult.returns_of_returned {result : Option ExecuteResult} {value : Int}
    (returned : result.any (returned value) = true) :
    ∃ next, result = some (.returns value next) := by
  obtain ⟨last, rfl, isReturn⟩ := (Option.any_eq_true _ _).mp returned
  cases last with
  | returns code next =>
      have isValue : code = value := of_decide_eq_true isReturn
      rw [isValue]
      exact ⟨next, rfl⟩
  | starts started next => cases isReturn

/-- Three shells on top of the first one, each started by the one before. -/
def sampleFull : List Event :=
  [.execute (sampleFrame 1) sampleLocals sampleCommand,
    .execute (sampleFrame 4) sampleLocals sampleCommand,
    .execute (sampleFrame 5) sampleLocals sampleCommand]

theorem failed_execute_sampleFull :
    ∃ history final next, Run Step sampleStart history final ∧ history.length = 3 ∧
      Kernel.FailsQuietly final (sampleFrame 6) 1 next := by
  obtain ⟨history, final, run, length, on, returned⟩ :=
    @Kernel.run_of_replay sampleStart sampleFull
      (fun history final => history.length = 3 ∧ (sampleFrame 6).On final ∧
        (final.execute (sampleFrame 6) sampleLocals sampleCommand).any
          (ExecuteResult.returned 1) = true) _ (by decide +kernel)
  obtain ⟨next, executes⟩ := ExecuteResult.returns_of_returned returned
  exact ⟨history, final, next, run, length,
    @failed_execute sampleStart final history sampleStart_booted run final.fs (sampleFrame 6)
      on sampleLocals sampleCommand 1 next executes⟩

end LightweightOs
