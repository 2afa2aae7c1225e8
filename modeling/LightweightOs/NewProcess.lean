import LightweightOs.DescriptorTable

/-!
# What a new program finds

`execute` fills two descriptors, clears the argument buffer and copies the rest
of the command into it.  Whatever earlier processes left in the block, a started
program finds stdin and stdout, no other open descriptor, no child, and its own
arguments followed by zero bytes.
-/

namespace LightweightOs

open Transition

/-- What follows the first word and the spaces after it, up to the NUL. -/
def arguments (command : List Byte) : List Byte :=
  ((command.drop (nameEnd command)).dropWhile (· = space)).takeWhile (· ≠ nul)

theorem skipSpaces_eq (command : List Byte) {argsIdx fuel : Nat}
    (enough : (command.drop argsIdx).length ≤ fuel) :
    command.drop (skipSpaces command argsIdx fuel) =
      (command.drop argsIdx).dropWhile (· = space) := by
  induction fuel generalizing argsIdx with
  | zero =>
      have empty : command.drop argsIdx = [] := List.length_eq_zero_iff.mp (by omega)
      simp [skipSpaces, empty]
  | succ fuel induction =>
      rw [skipSpaces]
      rcases Nat.lt_or_ge argsIdx command.length with inside | outside
      · have here : command.drop argsIdx = command[argsIdx] :: command.drop (argsIdx + 1) :=
          List.drop_eq_getElem_cons inside
        rw [here] at enough ⊢
        have value : command.getD argsIdx nul = command[argsIdx] := by
          simp [List.getD, inside]
        rw [value]
        by_cases isSpace : command[argsIdx] = space
        · rw [if_pos isSpace, List.dropWhile_cons_of_pos (by simpa using isSpace)]
          apply induction
          simp only [List.length_cons] at enough
          omega
        · rw [if_neg isSpace, List.dropWhile_cons_of_neg (by simpa using isSpace), here]
      · have value : command.getD argsIdx nul = nul := by
          simp [List.getD, outside]
        have notSpace : nul ≠ space := by decide
        have empty : command.drop argsIdx = [] := List.drop_eq_nil_of_le outside
        rw [value, if_neg notSpace, empty]
        rfl

theorem copyArgs_apply (command : List Byte) (args : Nat → Byte) (i argsIdx left j : Nat) :
    copyArgs command args i argsIdx left j =
      if i ≤ j ∧ j - i < left ∧
          j - i ≤ ((command.drop argsIdx).takeWhile (· ≠ nul)).length then
        ((command.drop argsIdx).takeWhile (· ≠ nul)).getD (j - i) nul
      else args j := by
  induction left generalizing args i argsIdx with
  | zero => simp [copyArgs]
  | succ left induction =>
      rw [copyArgs]
      by_cases ended : command.getD argsIdx nul = nul
      · have nothing : (command.drop argsIdx).takeWhile (· ≠ nul) = [] := by
          rcases Nat.lt_or_ge argsIdx command.length with inside | outside
          · have value : command[argsIdx] = nul := by simpa [List.getD, inside] using ended
            rw [List.drop_eq_getElem_cons inside,
              List.takeWhile_cons_of_neg (by simpa using value)]
          · rw [List.drop_eq_nil_of_le outside]
            rfl
        rw [if_pos ended, nothing]
        by_cases here : j = i
        · subst here
          simp
        · rw [assign_of_ne here, if_neg]
          intro ⟨atLeast, _, atMost⟩
          simp only [List.length_nil] at atMost
          omega
      · have inside : argsIdx < command.length := by
          by_contra outside
          exact ended (by simp [List.getD, Nat.le_of_not_lt outside])
        have value : command.getD argsIdx nul = command[argsIdx] := by
          simp [List.getD, inside]
        have more : (command.drop argsIdx).takeWhile (· ≠ nul) =
            command[argsIdx] :: (command.drop (argsIdx + 1)).takeWhile (· ≠ nul) := by
          rw [List.drop_eq_getElem_cons inside,
            List.takeWhile_cons_of_pos (by simpa using value ▸ ended)]
        rw [if_neg ended, induction, more, value]
        rcases Nat.lt_trichotomy j i with before | here | after
        · rw [if_neg (by omega), if_neg (by omega), assign_of_ne (by omega)]
        · subst here
          rw [if_neg (by omega), if_pos (by simp)]
          simp
        · have position : j - i = (j - (i + 1)) + 1 := by omega
          rw [assign_of_ne (by omega), position, List.getD_cons_succ,
            List.length_cons]
          apply if_congr _ rfl rfl
          omega

theorem args_eq {command : List Byte} (length : command.length ≤ 128) (old : Nat → Byte)
    {i : Nat} (inside : i < argsBufferSize) :
    copyArgs command (clearArgs old) 0 (skipSpaces command (nameEnd command) 128)
      argsBufferSize i = (arguments command).getD i nul := by
  have skipped : command.drop (skipSpaces command (nameEnd command) 128) =
      (command.drop (nameEnd command)).dropWhile (· = space) :=
    skipSpaces_eq command (by simp only [List.length_drop]; omega)
  rw [copyArgs_apply, skipped]
  change (if _ then (arguments command).getD (i - 0) nul else _) = _
  split
  · rfl
  case isFalse outside =>
    have beyond : (arguments command).length ≤ i := by
      by_contra within
      refine outside ⟨by omega, by omega, ?_⟩
      change i - 0 ≤ (arguments command).length
      omega
    have padding : (arguments command).getD i nul = nul := by
      simp [List.getD, List.getElem?_eq_none beyond]
    rw [clearArgs, if_pos inside, padding]

theorem arguments_shellCommand (after : Nat → Byte) :
    arguments (localCommand (shellCommand after)) = [] := by
  obtain ⟨rest, parsed⟩ := localCommand_shellCommand after
  have stops : nameEnd (shellName ++ nul :: rest) = shellName.length := by
    simp [nameEnd, shellName, List.findIdx_cons, space, nul]
  rw [parsed, arguments, stops, List.drop_left]
  rfl

/-- The block of a program that has just been entered. -/
structure Fresh (s : Kernel) (p : Int) (args : List Byte) : Prop where
  stdin : (s.pcb (pcbAddr p)).files 0 = { stdinFd with flags := 1 }
  stdout : (s.pcb (pcbAddr p)).files 1 = { stdoutFd with flags := 1 }
  unused : ∀ fd, 2 ≤ fd → fd ≤ 7 → ((s.pcb (pcbAddr p)).files fd).flags = 0
  childPcb : (s.pcb (pcbAddr p)).childPcb = 0
  args : ∀ i < argsBufferSize, (s.pcb (pcbAddr p)).args i = args.getD i nul

/-- The command of the program that a step may start. -/
def Entry.command (entry : Entry) : List Byte :=
  match entry.action with
  | .event event => event.command
  | .call _ _ | .rtcReadEnd => []

theorem Event.command_length (event : Event) : event.command.length ≤ 128 := by
  cases event <;> simp [Event.command, localCommand]

theorem Tidy.fresh {s next : Kernel} {a : Session} {entry : Entry} {started : Started}
    (tidy : Tidy s a) (represents : Represents s a) (acts : Acts s entry next)
    (starts : entry.Starts started) :
    Fresh next started.pid (arguments entry.command) := by
  obtain ⟨b, after, lives, program⟩ := represents.programStep acts
  have unique : ∀ {other : Started}, entry.Starts other → other = started := by
    intro other isStart
    have both := isStart.symm.trans starts
    simpa using both
  have entered : b.running = some started.pid ∧
      (¬a.Live started.pid ∨ entry.Ends started.pid) := by
    cases lives with
    | starts other isStart _ notLive enters _ =>
        exact ⟨unique isStart ▸ enters, .inl (unique isStart ▸ notLive)⟩
    | restarts other isStart halts own enters _ =>
        exact ⟨unique isStart ▸ enters, .inr ⟨halts, (unique isStart ▸ own).symm⟩⟩
    | ends noStart => exact (noStart started starts).elim
    | stays noStart => exact (noStart started starts).elim
  obtain ⟨running, free⟩ := entered
  have range := after.started_range running
  have live : b.Live started.pid := by
    refine ⟨b.current, ?_⟩
    rw [Sessions.running] at running
    exact List.mem_of_mem_head? running
  have clean : ∃ old, Spare old ∧
      (next.pcb (pcbAddr started.pid)).files = standardFiles old := by
    cases program started.pid range with
    | enters _ _ _ notLive files => exact ⟨_, tidy.dead _ range notLive, files⟩
    | restarts _ _ _ _ files => exact ⟨_, closeFiles_spare, files⟩
    | ends _ dead _ => exact (dead live).elim
    | stays stays same _ =>
        rcases free with notLive | ends
        · exact (notLive (same.mp live)).elim
        · exact (stays ends).elim
  obtain ⟨old, spare, files⟩ := clean
  constructor
  case stdin => rw [files, spare.standard.stdin]
  case stdout => rw [files, spare.standard.stdout]
  case unused =>
    rw [files]
    exact spare.standardFiles
  case childPcb => exact after.running_childPcb running
  case args =>
    intro i inside
    obtain ⟨before, action, reply⟩ := entry
    have isStart : reply = .event (.starts started) := starts
    subst isStart
    cases action with
    | event event =>
        obtain ⟨outcome, isReply, step⟩ := acts.of_event rfl
        cases isReply
        obtain ⟨oldArgs, written⟩ := step.args rfl
        rw [written]
        exact args_eq event.command_length oldArgs inside
    | call | rtcReadEnd =>
        exact ((acts.of_call (by simp)).2 started rfl).elim

theorem BlankBooted.fresh {s : Kernel} (booted : BlankBooted s) : Fresh s 1 [] := by
  have represents := booted.booted.represents
  have live : firstSession.Live 1 := live_firstSession.mpr rfl
  have standard := booted.tidy.live 1 live
  obtain ⟨pre, frame, locals, after, started, preBoot, spare, on, executes⟩ := booted
  obtain ⟨_, rfl⟩ := preBoot.install executes
  constructor
  case stdin => exact standard.stdin
  case stdout => exact standard.stdout
  case unused =>
    have files := installPcb_files pre.pcb (currentPcb frame.esp) frame.ebp 1 true
      (localCommand (shellCommand after)) (pcbAddr 1)
    rw [if_pos rfl] at files
    change Spare (installPcb _ _ _ 1 true _ (pcbAddr 1)).files
    rw [files]
    exact (spare 1 (by omega)).standardFiles
  case childPcb => exact represents.running_childPcb rfl
  case args =>
    intro i inside
    have args := installPcb_args pre.pcb (currentPcb frame.esp) frame.ebp 1 true
      (localCommand (shellCommand after)) (pcbAddr 1)
    rw [if_pos rfl] at args
    change (installPcb _ _ _ 1 true _ (pcbAddr 1)).args i = _
    rw [args, args_eq (by simp [localCommand]) _ inside, arguments_shellCommand]

/-- In every run of programs each program that is entered finds a fresh block:
the first shell, and whatever a step of the run starts. -/
theorem new_process {start s : Kernel} {history : List Entry}
    (booted : BlankBooted start) (run : Run Acts start history s) :
    Fresh start 1 [] ∧
      ∀ earlier entry started, history = earlier ++ [entry] → entry.Starts started →
        Fresh s started.pid (arguments entry.command) := by
  refine ⟨booted.fresh, ?_⟩
  intro earlier entry started isHistory starts
  rw [isHistory] at run
  obtain ⟨before, toEntry, last⟩ := run.split
  obtain ⟨a, represents, tidy⟩ := booted.run toEntry
  exact tidy.fresh represents last.singleton starts

/-- The identifier of the program a step enters. -/
def Entry.startedPid (entry : Entry) : Option Int :=
  match entry.reply with
  | .event (.starts started) => some started.pid
  | _ => none

theorem Entry.starts_of_startedPid {entry : Entry} {p : Int}
    (started : entry.startedPid = some p) : ∃ program, entry.Starts program := by
  rw [Entry.startedPid] at started
  split at started
  case h_1 program isReply => exact ⟨program, isReply⟩
  case h_2 => cases started

/-- The first shell opens a file and halts; the shell that replaces it finds a
fresh block. -/
theorem new_process_sampleRestart :
    ∃ earlier entry started final, Run Acts sampleStart (earlier ++ [entry]) final ∧
      entry.Starts started ∧ Fresh final started.pid (arguments entry.command) := by
  obtain ⟨history, final, run, _, pids⟩ := @exists_programs sampleStart
    [.call (sampleFrame 1) (.openFile (some shellName)),
      .event (.halt (sampleFrame 1) (sampleFrame 1) sampleLocals 0 fun _ => 0)]
    (fun history _ => history.map Entry.startedPid = [none, some 1]) _ (by decide +kernel)
  obtain ⟨first, rest, rfl, _, restPids⟩ := List.map_eq_cons_iff.mp pids
  obtain ⟨second, rest, rfl, secondPid, noMore⟩ := List.map_eq_cons_iff.mp restPids
  obtain rfl := List.map_eq_nil_iff.mp noMore
  obtain ⟨started, starts⟩ := Entry.starts_of_startedPid secondPid
  exact ⟨[first], second, started, final, run, starts,
    (new_process sampleStart_blank run).2 [first] second started rfl starts⟩

end LightweightOs
