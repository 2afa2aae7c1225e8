import LightweightOs.PendingLine

/-!
# Readers of lines

A call of `terminal_read` waits on the flag of its own terminal, and copies from
the row of the terminal that is displayed when the scheduler comes back to it.
The kernel is run here with the state of each terminal's reader: the line that
released it is remembered from the Enter that completed it.  Every reader is
released by such an Enter; it copies that line as long as its terminal is
displayed and nothing has been typed over the line.
-/

namespace LightweightOs

open Transition

/-- What the outermost process of a terminal is doing: something else, waiting
in `terminal_read`, or released and not scheduled since. -/
inductive Reader where
  | running
  | waiting (bytes : Int)
  | released (bytes : Int) (line : List Byte)
deriving DecidableEq

def Reader.release (line : List Byte) : Reader → Reader
  | .waiting bytes => .released bytes line
  | other => other

structure ReaderState where
  kernel : Kernel
  readers : Int → Reader

namespace ReaderState

/-- The reader of the terminal being scheduled. -/
def current (v : ReaderState) : Reader := v.readers v.kernel.curProcess

/-- A blocked process makes no other call until it has its line; interrupts
come at any time. -/
def Admits (v : ReaderState) : Event → Prop
  | .readLine bytes =>
      v.current = .waiting bytes ∨ ∃ line, v.current = .released bytes line
  | .pit _ _ | .key _ _ _ _ _ | .rtc => True
  | .execute _ _ _ | .halt _ _ _ _ _ | .vidmap _ _ _ | .terminalWrite _ _ | .readStart _
  | .rtcWrite _ => v.current = .running

def readersAfter (v : ReaderState) : Event → Int → Reader
  | .readStart bytes =>
      if bytes = 0 then v.readers
      else assign v.readers v.kernel.curProcess (.waiting bytes)
  | .readLine _ => assign v.readers v.kernel.curProcess .running
  | .key _ _ _ scanCode _ =>
      if scanCode = ScanCode.enter then
        assign v.readers v.kernel.tty.curTerminal
          ((v.readers v.kernel.tty.curTerminal).release v.kernel.tty.completedLine)
      else v.readers
  | _ => v.readers

end ReaderState

structure ReaderRecord where
  before : ReaderState
  record : Record

structure ReaderStep (v : ReaderState) (r : ReaderRecord) (w : ReaderState) : Prop where
  before : r.before = v
  step : Step v.kernel r.record w.kernel
  admits : v.Admits r.record.event
  readers : w.readers = v.readersAfter r.record.event

namespace ReaderRecord

/-- Enter, pressed while the waiting reader's terminal is displayed. -/
def Completes (terminal bytes : Int) (line : List Byte) (r : ReaderRecord) : Prop :=
  (∃ frame inner locals memory,
    r.record.event = .key frame inner locals ScanCode.enter memory) ∧
    r.before.kernel.tty.curTerminal = terminal ∧
    r.before.readers terminal = .waiting bytes ∧
    r.before.kernel.tty.completedLine = line

/-- The reader of the terminal gets its line. -/
def Resumes (terminal : Int) (r : ReaderRecord) : Prop :=
  (∃ bytes, r.record.event = .readLine bytes) ∧ r.before.kernel.curProcess = terminal

end ReaderRecord

/-- The steps that leave every released reader its line: no key types over it,
and a reader comes back while its own terminal is displayed. -/
def KeepsLines (v : ReaderState) (r : ReaderRecord) : Prop :=
  match r.record.event with
  | .key _ _ _ scanCode _ =>
      ∀ terminal bytes line, 1 ≤ terminal → terminal ≤ 3 →
        v.readers terminal = .released bytes line →
          v.kernel.tty.KeepsLine scanCode terminal line
  | .readLine _ =>
      v.kernel.tty.curTerminal = v.kernel.curProcess ∧
        ∀ bytes line, v.readers (v.kernel.curProcess + 1) = .released bytes line →
          line.head? ≠ some newline
  | _ => True

/-- A waiting reader's flag is clear, and the rows have their shape. -/
structure ReadersWait (v : ReaderState) : Prop where
  rows : v.kernel.tty.RowsInvariant
  waiting : ∀ terminal bytes, v.readers terminal = .waiting bytes →
    v.kernel.tty.enterFlag (terminal - 1) = false

/-- A released reader's line is pending on its terminal. -/
def LinesPending (v : ReaderState) : Prop :=
  ∀ terminal bytes line, 1 ≤ terminal → terminal ≤ 3 →
    v.readers terminal = .released bytes line → v.kernel.tty.Pending terminal line

section Step

variable {v w : ReaderState} {r : ReaderRecord}

/-- What a step does to the readers' terminals, by its kind. -/
inductive ReaderEffect (v : ReaderState) (event : Event) (w : ReaderState) : Prop where
  | quiet (notRead : ∀ bytes, event ≠ .readLine bytes)
      (keyboard : v.kernel.KeepsKeyboard w.kernel) (readers : w.readers = v.readers)
  | key (who : Interrupted) (scanCode : Byte) (frame inner : Frame) (locals : Locals)
      (memory : Nat → Byte) (isEvent : event = .key frame inner locals scanCode memory)
      (tty : w.kernel.tty = v.kernel.tty.keyPress who scanCode)
      (readers : w.readers = v.readersAfter event)
  | readStart (bytes : Int) (isEvent : event = .readStart bytes)
      (tty : w.kernel.tty = if bytes = 0 then v.kernel.tty
        else v.kernel.tty.terminalReadStart v.kernel.curProcess)
      (readers : w.readers = v.readersAfter event)
  | readLine (bytes : Int) (isEvent : event = .readLine bytes)
      (tty : w.kernel.tty = (v.kernel.tty.terminalReadLine bytes).1)
      (readers : w.readers = v.readersAfter event)

theorem ReaderStep.effect (step : ReaderStep v r w) : ReaderEffect v r.record.event w := by
  obtain ⟨_, taken, _, readers⟩ := step
  obtain ⟨who, moved⟩ := Step.tty taken
  cases isEvent : r.record.event with
  | key frame inner locals scanCode memory =>
      rw [isEvent] at moved readers
      exact .key who scanCode frame inner locals memory rfl moved.performed readers
  | readStart bytes =>
      rw [isEvent] at moved readers
      exact .readStart bytes rfl moved.performed readers
  | readLine bytes =>
      rw [isEvent] at moved readers
      exact .readLine bytes rfl moved.performed readers
  | _ =>
      rw [isEvent] at moved readers
      exact .quiet (fun bytes isRead => by cases isRead) moved readers

theorem Reader.release_waiting {reader : Reader} {line : List Byte} {bytes : Int}
    (waits : reader.release line = .waiting bytes) : False := by
  cases reader <;> cases waits

theorem Reader.release_released {reader : Reader} {line text : List Byte} {bytes : Int}
    (released : reader.release line = .released bytes text) :
    reader = .waiting bytes ∧ line = text ∨ reader = .released bytes text := by
  cases reader with
  | running => cases released
  | waiting other =>
      cases released
      exact .inl ⟨rfl, rfl⟩
  | released other old => exact .inr released

/-- A reader that waits after a step was waiting before it, or has just begun;
Enter on its terminal would have released it. -/
theorem ReadersWait.step (holds : ReadersWait v) (step : ReaderStep v r w) :
    ReadersWait w := by
  refine ⟨Step.rows holds.rows step.step, ?_⟩
  intro terminal bytes waits
  cases step.effect with
  | quiet notRead keyboard readers =>
      rw [keyboard]
      exact holds.waiting terminal bytes (readers ▸ waits)
  | key who scanCode frame inner locals memory isEvent tty readers =>
      obtain ⟨_, _, flags⟩ := Tty.keyPress_rows who v.kernel.tty scanCode
      rw [tty, flags, Tty.keyBlocks_enterFlag]
      rw [readers, isEvent] at waits
      simp only [ReaderState.readersAfter] at waits
      by_cases isEnter : scanCode = ScanCode.enter
      · rw [if_pos isEnter] at waits ⊢
        by_cases shown : terminal = v.kernel.tty.curTerminal
        · rw [shown, assign, Function.update_self] at waits
          exact (Reader.release_waiting waits).elim
        · rw [assign, Function.update_of_ne shown] at waits
          have apart : terminal - 1 ≠ v.kernel.tty.row := by
            simp only [Tty.row]
            omega
          rw [assign, Function.update_of_ne apart]
          exact holds.waiting terminal bytes waits
      · rw [if_neg isEnter] at waits ⊢
        exact holds.waiting terminal bytes waits
  | readStart count isEvent tty readers =>
      rw [readers, isEvent] at waits
      simp only [ReaderState.readersAfter] at waits
      rw [tty]
      by_cases none : count = 0
      · rw [if_pos none] at waits ⊢
        exact holds.waiting terminal bytes waits
      · rw [if_neg none] at waits ⊢
        simp only [Tty.terminalReadStart, assign, Function.update_apply]
        split
        · rfl
        · have other : terminal ≠ v.kernel.curProcess := by omega
          rw [assign, Function.update_of_ne other] at waits
          exact holds.waiting terminal bytes waits
  | readLine count isEvent tty readers =>
      rw [readers, isEvent] at waits
      simp only [ReaderState.readersAfter] at waits
      obtain ⟨_, _, flags⟩ := Tty.terminalReadLine_stores v.kernel.tty count
      rw [tty, flags]
      by_cases own : terminal = v.kernel.curProcess
      · rw [own, assign, Function.update_self] at waits
        cases waits
      · rw [assign, Function.update_of_ne own] at waits
        exact holds.waiting terminal bytes waits

/-- A released reader was released before the step, and has not been scheduled
in it; or the step is the Enter that completes its line. -/
theorem ReaderStep.released (step : ReaderStep v r w) {terminal bytes : Int}
    {line : List Byte} (released : w.readers terminal = .released bytes line) :
    v.readers terminal = .released bytes line ∧ ¬r.Resumes terminal ∨
      r.Completes terminal bytes line := by
  have before := step.before
  cases step.effect with
  | quiet notRead keyboard readers =>
      refine .inl ⟨readers ▸ released, ?_⟩
      rintro ⟨⟨count, isRead⟩, _⟩
      exact notRead count isRead
  | key who scanCode frame inner locals memory isEvent tty readers =>
      have notRead : ¬r.Resumes terminal := by
        rintro ⟨⟨count, isRead⟩, _⟩
        rw [isEvent] at isRead
        cases isRead
      rw [readers, isEvent] at released
      simp only [ReaderState.readersAfter] at released
      by_cases isEnter : scanCode = ScanCode.enter
      · rw [if_pos isEnter] at released
        by_cases shown : terminal = v.kernel.tty.curTerminal
        · rw [shown, assign, Function.update_self] at released
          rcases Reader.release_released released with ⟨waited, completed⟩ | old
          · right
            refine ⟨⟨frame, inner, locals, memory, isEnter ▸ isEvent⟩, ?_, ?_, ?_⟩
            · rw [before, shown]
            · rw [before, shown]
              exact waited
            · rw [before]
              exact completed
          · rw [shown]
            exact .inl ⟨old, shown ▸ notRead⟩
        · rw [assign, Function.update_of_ne shown] at released
          exact .inl ⟨released, notRead⟩
      · rw [if_neg isEnter] at released
        exact .inl ⟨released, notRead⟩
  | readStart count isEvent tty readers =>
      have notRead : ¬r.Resumes terminal := by
        rintro ⟨⟨count, isRead⟩, _⟩
        rw [isEvent] at isRead
        cases isRead
      rw [readers, isEvent] at released
      simp only [ReaderState.readersAfter] at released
      split at released
      · exact .inl ⟨released, notRead⟩
      · by_cases own : terminal = v.kernel.curProcess
        · rw [own, assign, Function.update_self] at released
          cases released
        · rw [assign, Function.update_of_ne own] at released
          exact .inl ⟨released, notRead⟩
  | readLine count isEvent tty readers =>
      rw [readers, isEvent] at released
      simp only [ReaderState.readersAfter] at released
      by_cases own : terminal = v.kernel.curProcess
      · rw [own, assign, Function.update_self] at released
        cases released
      · rw [assign, Function.update_of_ne own] at released
        left
        refine ⟨released, ?_⟩
        rintro ⟨_, isOwn⟩
        rw [before] at isOwn
        exact own isOwn.symm

/-- Steps that keep the lines leave every released reader's line pending. -/
theorem LinesPending.step (pending : LinesPending v) (holds : ReadersWait v)
    (step : ReaderStep v r w) (keeps : KeepsLines v r) : LinesPending w := by
  intro terminal bytes line low high released
  cases step.effect with
  | quiet notRead keyboard readers =>
      rw [keyboard]
      exact (pending terminal bytes line low high (readers ▸ released)).of_eq rfl
        (fun _ _ => rfl) fun _ isNul => isNul
  | key who scanCode frame inner locals memory isEvent tty readers =>
      rw [tty]
      rcases step.released released with ⟨old, _⟩ | completes
      · rw [KeepsLines, isEvent] at keeps
        exact (pending terminal bytes line low high old).keyPress who holds.rows
          (keeps terminal bytes line low high old)
      · obtain ⟨⟨_, _, _, _, isEnter⟩, shown, _, completed⟩ := completes
        rw [isEvent] at isEnter
        cases isEnter
        rw [step.before] at shown completed
        rw [← shown, ← completed]
        exact Tty.pending_enter who holds.rows
  | readStart count isEvent tty readers =>
      have kept : v.kernel.tty.Pending terminal line := by
        rcases step.released released with ⟨old, _⟩ | ⟨⟨_, _, _, _, isEnter⟩, _⟩
        · exact pending terminal bytes line low high old
        · rw [isEvent] at isEnter
          cases isEnter
      rw [tty]
      split
      · exact kept
      · exact kept.of_eq rfl (fun _ _ => rfl) fun _ isNul => isNul
  | readLine count isEvent tty readers =>
      rw [KeepsLines, isEvent] at keeps
      obtain ⟨shown, notNewline⟩ := keeps
      rcases step.released released with ⟨old, _⟩ | ⟨⟨_, _, _, _, isEnter⟩, _⟩
      · rw [tty]
        apply (pending terminal bytes line low high old).terminalReadLine count
        intro above
        apply notNewline bytes line
        rw [← shown, above]
        exact old
      · rw [isEvent] at isEnter
        cases isEnter

end Step

/-- The readers' state at the start of a run: no process is in `terminal_read`. -/
def unblocked (s : Kernel) : ReaderState := ⟨s, fun _ => .running⟩

/-- What the steps that keep the lines preserve. -/
structure ReadersInvariant (v : ReaderState) : Prop where
  wait : ReadersWait v
  pending : LinesPending v

theorem ReadersInvariant.step {v w : ReaderState} {r : ReaderRecord}
    (holds : ReadersInvariant v) (taken : Guarded KeepsLines ReaderStep v r w) :
    ReadersInvariant w :=
  ⟨holds.wait.step taken.2, holds.pending.step holds.wait taken.2 taken.1⟩

theorem blocked_readers {start s : Kernel} {earlier : List Record}
    {history : List ReaderRecord} {v : ReaderState} (booted : Booted start)
    (run : Run Step start earlier s) (reads : Run ReaderStep (unblocked s) history v) :
    ∀ r w bytes, ReaderStep v r w → r.record.event = .readLine bytes →
      ∃ line, v.current = .released bytes line ∧
        LastWrite (ReaderRecord.Completes v.kernel.curProcess bytes line)
          (fun record => ¬record.Resumes v.kernel.curProcess) history ∧
        (Run (Guarded KeepsLines ReaderStep) (unblocked s) history v → KeepsLines v r →
          (v.kernel.tty.terminalReadLine bytes).2.1 <+: line ++ [nul]) := by
  intro r w bytes step isRead
  have initially : ReadersWait (unblocked s) := by
    refine ⟨booted.rows run, ?_⟩
    intro terminal bytes waits
    cases waits
  have holds := reads.invariant (fun _ _ _ held taken => ReadersWait.step held taken)
    initially
  have admits := step.admits
  have legal := step.step.legal
  rw [isRead] at admits legal
  rcases admits with waits | ⟨line, released⟩
  · -- a waiting reader's flag is clear, so it does not come through the wait
    have clear := holds.waiting _ _ waits
    have ready : v.kernel.tty.enterFlag (v.kernel.curProcess - 1) = true := legal.2
    rw [clear] at ready
    cases ready
  · refine ⟨line, released, ?_, ?_⟩
    · exact reads.lastWrite (fun _ _ _ taken later => taken.released later)
        (fun initial => by cases initial) released
    · intro guarded keeps
      have unread : ReadersInvariant (unblocked s) :=
        ⟨initially, fun _ _ _ _ _ released => by cases released⟩
      have kept := guarded.invariant (fun _ _ _ held taken => ReadersInvariant.step held taken)
        unread
      rw [KeepsLines, isRead] at keeps
      obtain ⟨low, high⟩ := holds.rows.displayed
      obtain ⟨shown, _⟩ := keeps
      rw [shown] at low high
      have own := kept.pending _ bytes line low high released
      rw [← shown] at own
      exact own.copies bytes

instance (v : ReaderState) (event : Event) : Decidable (v.Admits event) :=
  match event with
  | .readLine bytes =>
      match isReader : v.current with
      | .running => isFalse (by simp [ReaderState.Admits, isReader])
      | .waiting count =>
          decidable_of_iff (count = bytes) (by simp [ReaderState.Admits, isReader])
      | .released count line =>
          decidable_of_iff (count = bytes) (by simp [ReaderState.Admits, isReader])
  | .pit _ _ => isTrue trivial
  | .key _ _ _ _ _ => isTrue trivial
  | .rtc => isTrue trivial
  | .execute _ _ _ => inferInstanceAs (Decidable (v.current = .running))
  | .halt _ _ _ _ _ => inferInstanceAs (Decidable (v.current = .running))
  | .vidmap _ _ _ => inferInstanceAs (Decidable (v.current = .running))
  | .terminalWrite _ _ => inferInstanceAs (Decidable (v.current = .running))
  | .readStart _ => inferInstanceAs (Decidable (v.current = .running))
  | .rtcWrite _ => inferInstanceAs (Decidable (v.current = .running))

/-- The step an event takes. -/
def ReaderState.advance (v : ReaderState) (event : Event) :
    Option (ReaderRecord × ReaderState) :=
  if v.Admits event ∧ v.kernel.Legal event then
    (v.kernel.step event).map fun (outcome, next) =>
      (⟨v, v.kernel, event, outcome⟩, ⟨next, v.readersAfter event⟩)
  else none

theorem ReaderState.advance_step (v : ReaderState) (event : Event) (r : ReaderRecord)
    (w : ReaderState) (advances : v.advance event = some (r, w)) : ReaderStep v r w := by
  unfold advance at advances
  split at advances
  case isTrue allowed =>
    obtain ⟨⟨outcome, next⟩, taken, isResult⟩ := Option.map_eq_some_iff.mp advances
    cases isResult
    exact ⟨rfl, ⟨rfl, allowed.2, taken⟩, allowed.1, rfl⟩
  case isFalse => cases advances

/-- The first shell asks for a line, and an empty one is typed. -/
def sampleLine : List Event := [.readStart 10, sampleKey 1 ScanCode.enter]

theorem readLineStep {v : ReaderState} {bytes : Int} (admits : v.Admits (.readLine bytes))
    (legal : v.kernel.Legal (.readLine bytes)) :
    ReaderStep v ⟨v, v.kernel, .readLine bytes, .continues⟩
      ⟨{ v.kernel with tty := (v.kernel.tty.terminalReadLine bytes).1 },
        v.readersAfter (.readLine bytes)⟩ :=
  ⟨rfl, ⟨rfl, legal, rfl⟩, admits, rfl⟩

def Event.isRead : Event → Bool
  | .readLine _ => true
  | _ => false

/-- The step is no read, and no reader has been released before it. -/
def Early (r : ReaderRecord) : Prop :=
  r.record.event.isRead = false ∧
    ∀ terminal ∈ ([1, 2, 3] : List Int), r.before.readers terminal = .running ∨
      r.before.readers terminal = .waiting 10

instance (r : ReaderRecord) : Decidable (Early r) := inferInstanceAs (Decidable (_ ∧ _))

theorem Early.keepsLines {r : ReaderRecord} (early : Early r) : KeepsLines r.before r := by
  unfold KeepsLines
  split
  case h_1 =>
    intro terminal bytes line low high released
    have one : terminal ∈ ([1, 2, 3] : List Int) := by
      simp only [List.mem_cons, List.not_mem_nil, or_false]
      omega
    rcases early.2 terminal one with running | waiting
    · rw [running] at released
      cases released
    · rw [waiting] at released
      cases released
  case h_2 bytes isRead =>
    have noRead := early.1
    rw [isRead] at noRead
    cases noRead
  case h_3 => trivial

theorem ReaderStep.guarded {start v : ReaderState} {history : List ReaderRecord}
    (run : Run ReaderStep start history v)
    (keeps : ∀ r ∈ history, KeepsLines r.before r) :
    Run (Guarded KeepsLines ReaderStep) start history v := by
  induction run with
  | nil => exact .nil
  | @snoc earlier middle last r _ step induction =>
      have before := induction fun other member => keeps other (by simp [member])
      have here := keeps r (by simp)
      rw [step.before] at here
      exact before.snoc ⟨here, step⟩

/-- The first shell gets its line. -/
theorem blocked_readers_sampleLine :
    ∃ history v r w, Run (Guarded KeepsLines ReaderStep) (unblocked sampleStart) history v ∧
      ReaderStep v r w ∧ KeepsLines v r ∧ r.record.event = .readLine 10 ∧
      ∃ line, v.current = .released 10 line ∧
        LastWrite (ReaderRecord.Completes v.kernel.curProcess 10 line)
          (fun record => ¬record.Resumes v.kernel.curProcess) history ∧
        (v.kernel.tty.terminalReadLine 10).2.1 <+: line ++ [nul] := by
  obtain ⟨history, v, run, early, admits, legal, shown, idle⟩ :=
    @exists_run_of_replay _ _ _ _ ReaderState.advance ReaderState.advance_step
      (unblocked sampleStart) sampleLine
      (fun history v => (∀ r ∈ history, Early r) ∧ v.Admits (.readLine 10) ∧
        v.kernel.Legal (.readLine 10) ∧ v.kernel.tty.curTerminal = v.kernel.curProcess ∧
        v.readers (v.kernel.curProcess + 1) = .running) _ (by decide +kernel)
  have guarded := ReaderStep.guarded run fun r member => (early r member).keepsLines
  have step := readLineStep admits legal
  have keeps : KeepsLines v ⟨v, v.kernel, .readLine 10, .continues⟩ := by
    refine ⟨shown, ?_⟩
    intro bytes line released
    rw [idle] at released
    cases released
  obtain ⟨line, released, completed, copied⟩ :=
    blocked_readers sampleStart_booted .nil run _ _ 10 step rfl
  exact ⟨history, v, _, _, guarded, step, keeps, rfl, line, released, completed,
    copied guarded keeps⟩

/-- A line is typed on terminal 1, terminal 2 is booted, and the scheduler comes
back to the reader on terminal 1. -/
def otherRow : List Event :=
  [.readStart 10, sampleKey 1 letterA, sampleKey 1 ScanCode.enter,
    sampleKey 1 ScanCode.alt, sampleKey 1 ScanCode.f2, .pit (sampleFrame 2) sampleLocals]

/-- The reader on terminal 1 copies from the row of terminal 2. -/
theorem blocked_readers_otherRow :
    ¬∀ start s earlier history v r w bytes line, Booted start → Run Step start earlier s →
      Run ReaderStep (unblocked s) history v → ReaderStep v r w →
      r.record.event = .readLine bytes → v.current = .released bytes line →
      (v.kernel.tty.terminalReadLine bytes).2.1 <+: line ++ [nul] := by
  intro copies
  obtain ⟨history, v, run, admits, legal, released, wrong⟩ :=
    @exists_run_of_replay _ _ _ _ ReaderState.advance ReaderState.advance_step
      (unblocked sampleStart) otherRow
      (fun _ v => v.Admits (.readLine 10) ∧ v.kernel.Legal (.readLine 10) ∧
        v.current = .released 10 [0x61#8, newline] ∧
        ¬(v.kernel.tty.terminalReadLine 10).2.1 <+: [0x61#8, newline] ++ [nul]) _
      (by decide +kernel)
  exact wrong (copies sampleStart sampleStart [] history v _ _ 10 _ sampleStart_booted .nil
    run (readLineStep admits legal) rfl released)

end LightweightOs
