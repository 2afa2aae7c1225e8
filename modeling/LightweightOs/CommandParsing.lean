import LightweightOs.Arguments

/-!
# The arrays that execute parses a command with

Three loops go over the local copy of the command with one index: to the end of
the first word, over the spaces, and to the NUL.  None of them looks at the
length of an array, so where they stay depends on the command, and the second
and the third run only when a program is started.
-/

namespace LightweightOs

open Terminated

/-- The local array and what lies behind it on the stack. -/
def commandMemory (commandUser after : Nat → Byte) : Nat → Byte :=
  fun i => if i < 128 then commandUser i else after i

/-- An access of `execute` to one of its arrays, with the index. -/
inductive ParseAccess where
  | readCommand (i : Nat)
  | writeFileName (i : Nat)
  | writeName (i : Nat)
  deriving DecidableEq

namespace ParseAccess

def InBounds : ParseAccess → Prop
  | .readCommand i => i < 128
  | .writeFileName i => i < 32
  | .writeName i => i < 32

instance (access : ParseAccess) : Decidable access.InBounds := by
  cases access <;> unfold InBounds <;> infer_instance

end ParseAccess

/-- `command[args_idx] != ' ' && command[args_idx] != '\\0'` -/
def inWord (c : Byte) : Bool := c ≠ space ∧ c ≠ nul

/-- The loop that copies the file name. -/
def nameAccesses (command : Nat → Byte) (fuel : Nat) : List ParseAccess :=
  (scan inWord command 0 fuel).flatMap fun argsIdx =>
    .readCommand argsIdx :: if inWord (command argsIdx) then [.writeFileName argsIdx] else []

/-- The loop of `strcpy`. -/
def strcpyAccesses (i : Nat) : List Byte → List ParseAccess
  | [] => [.writeName i]
  | _ :: rest => .writeName i :: strcpyAccesses (i + 1) rest

/-- The loops that skip the spaces and copy the arguments. -/
def argumentAccesses (command : Nat → Byte) (argsIdx fuel : Nat) : List ParseAccess :=
  (scan (· = space) command argsIdx fuel).map .readCommand ++
    match scanEnd (· = space) command argsIdx fuel with
    | none => []
    | some argsIdx => (scan (· ≠ nul) command argsIdx argsBufferSize).map .readCommand

namespace Kernel

/-- `execute` finds the program and a process identifier for it. -/
def startsProgram (s : Kernel) (locals : Locals) (fileName : List Byte) : Bool :=
  match findProgram s.fs fileName locals.fileMetadata with
  | none => false
  | some _ =>
      (s.table.choosePid (isShell fileName) locals.nextPid).table.auxProcesses ≤ 3

/-- The accesses of `execute`, with at most `fuel` turns in each of the loops that have no
bound. -/
def parseAccesses (s : Kernel) (locals : Locals) (command : Nat → Byte) (fuel : Nat) :
    List ParseAccess :=
  nameAccesses command fuel ++
    match scanEnd inWord command 0 fuel with
    | none => []
    | some argsIdx =>
        let fileName := (List.range argsIdx).map command
        .writeFileName argsIdx ::
          if s.startsProgram locals fileName then
            strcpyAccesses 0 fileName ++ argumentAccesses command argsIdx fuel
          else []

/-- However long the loops run, every access is inside its array. -/
def ParsesInBounds (s : Kernel) (locals : Locals) (command : Nat → Byte) : Prop :=
  ∀ fuel, ∀ access ∈ s.parseAccesses locals command fuel, access.InBounds

theorem execute_starts_iff {s : Kernel} {frame : Frame} {locals : Locals}
    {commandUser : Nat → Byte} :
    (∃ started next, s.execute frame locals commandUser = some (.starts started next)) ↔
      s.startsProgram locals (firstWord (localCommand commandUser)) = true := by
  rw [← take_nameEnd, startsProgram]
  simp only [execute]
  cases findProgram s.fs ((localCommand commandUser).take
      (nameEnd (localCommand commandUser))) locals.fileMetadata with
  | none => simp
  | some program =>
      simp only [runProgram, decide_eq_true_eq]
      split
      case isTrue exceeds =>
        constructor
        · rintro ⟨_, _, isStart⟩
          obtain ⟨_, _, isResult⟩ := Option.map_eq_some_iff.mp isStart
          cases isResult
        · intro within
          omega
      case isFalse within =>
        constructor
        · intro _
          omega
        · exact fun _ => ⟨_, _, rfl⟩

end Kernel

section Loops

variable {command commandUser after : Nat → Byte} {argsIdx fuel : Nat}

theorem localCommand_getElem {i : Nat} (inside : i < (localCommand commandUser).length) :
    (localCommand commandUser)[i] = commandMemory commandUser after i := by
  rw [localCommand_length] at inside
  simp [localCommand, commandMemory, inside]

theorem nameEnd_le (commandUser : Nat → Byte) : nameEnd (localCommand commandUser) ≤ 128 := by
  rw [← localCommand_length commandUser]
  exact List.findIdx_le_length

theorem inWord_of_lt {place : Nat} (before : place < nameEnd (localCommand commandUser)) :
    inWord (commandMemory commandUser after place) = true := by
  have goesOn := List.not_of_lt_findIdx before
  have atMost := nameEnd_le commandUser
  rw [← localCommand_getElem (by rw [localCommand_length]; omega)]
  simpa [inWord] using goesOn

/-- A first word that ends in the local array is where the first loop leaves. -/
theorem stops_nameEnd (inside : nameEnd (localCommand commandUser) < 128) :
    Stops inWord (commandMemory commandUser after) 0 (nameEnd (localCommand commandUser)) := by
  have within : nameEnd (localCommand commandUser) < (localCommand commandUser).length := by
    rwa [localCommand_length]
  constructor
  case ordered => exact Nat.zero_le _
  case leaves =>
    have ends := List.findIdx_getElem (w := within)
    rw [← localCommand_getElem within]
    simp only [decide_eq_true_eq] at ends
    simp only [inWord, decide_eq_false_iff_not]
    rintro ⟨notSpace, notNul⟩
    rcases ends with isSpace | isNul
    · exact notSpace isSpace
    · exact notNul isNul
  case before => exact fun _ _ => inWord_of_lt

theorem fileName_eq {length : Nat} (within : length ≤ 128) :
    (List.range length).map (commandMemory commandUser after) =
      (localCommand commandUser).take length := by
  rw [localCommand, ← List.map_take, List.take_range, Nat.min_eq_left within]
  apply List.map_congr_left
  intro i member
  rw [List.mem_range] at member
  rw [commandMemory, if_pos (by omega)]

theorem nameAccesses_inBounds {last : Nat} (stops : Stops inWord command 0 last)
    (short : last ≤ 31) : ∀ access ∈ nameAccesses command fuel, access.InBounds := by
  intro access member
  obtain ⟨place, inScan, isAccess⟩ := List.mem_flatMap.mp member
  obtain ⟨_, atMost⟩ := stops.mem_scan inScan
  rcases List.mem_cons.mp isAccess with rfl | isWrite
  · change place < 128
    omega
  · split at isWrite
    case isTrue onward =>
      obtain rfl := List.mem_singleton.mp isWrite
      change place < 32
      omega
    case isFalse => cases isWrite

theorem strcpyAccesses_inBounds {i : Nat} {string : List Byte}
    (room : i + string.length < 32) :
    ∀ access ∈ strcpyAccesses i string, access.InBounds := by
  induction string generalizing i with
  | nil =>
      intro access member
      obtain rfl := List.mem_singleton.mp member
      exact room
  | cons first rest induction =>
      intro access member
      rw [List.length_cons] at room
      rcases List.mem_cons.mp member with rfl | later
      · change i < 32
        omega
      · exact induction (by omega) access later

theorem argumentAccesses_inBounds {end_ : Nat} (ordered : argsIdx ≤ end_) (inside : end_ < 128)
    (ends : command end_ = nul) :
    ∀ access ∈ argumentAccesses command argsIdx fuel, access.InBounds := by
  intro access member
  obtain ⟨spaces, spacesInside, skips⟩ :=
    @exists_stops _ (· = space) command argsIdx end_ ordered (by rw [ends]; decide)
  rcases List.mem_append.mp member with skipped | copied
  · obtain ⟨place, inScan, rfl⟩ := List.mem_map.mp skipped
    have bounds := skips.mem_scan inScan
    change place < 128
    omega
  · split at copied
    case h_1 => cases copied
    case h_2 start isStart =>
      obtain rfl := skips.scanEnd_eq isStart
      obtain ⟨last, lastInside, copies⟩ :=
        @exists_stops _ (· ≠ nul) command start end_ spacesInside (by rw [ends]; decide)
      obtain ⟨place, inScan, rfl⟩ := List.mem_map.mp copied
      have bounds := copies.mem_scan inScan
      change place < 128
      omega

/-- Without a NUL in the local array one of the argument loops leaves it. -/
theorem argumentAccesses_leave (inside : argsIdx ≤ 128)
    (unterminated : ∀ place < 128, command place ≠ nul) :
    .readCommand 128 ∈ argumentAccesses command argsIdx 200 := by
  by_cases blank : ∀ place, argsIdx ≤ place → place < 128 → command place = space
  · apply List.mem_append_left
    apply List.mem_map_of_mem
    apply mem_scan_of_onward inside
    · intro place atLeast before
      simpa using blank place atLeast before
    · omega
  · simp only [not_forall] at blank
    obtain ⟨place, atLeast, before, notSpace⟩ := blank
    obtain ⟨last, lastBefore, skips⟩ :=
      @exists_stops _ (· = space) command argsIdx place atLeast (by simpa using notSpace)
    apply List.mem_append_right
    rw [skips.scanEnd_some (by omega)]
    apply List.mem_map_of_mem
    apply mem_scan_of_onward (by omega)
    · intro earlier _ inLocal
      simpa using unterminated earlier inLocal
    · rw [argsBufferSize]
      omega

end Loops

namespace Kernel

/-- A first word that reaches index 32, or ends right in front of it, is written behind
`file_name`. -/
theorem parseAccesses_long {s : Kernel} {locals : Locals} {commandUser after : Nat → Byte}
    (long : 31 < nameEnd (localCommand commandUser)) :
    .writeFileName 32 ∈ s.parseAccesses locals (commandMemory commandUser after) 34 := by
  rcases Nat.eq_or_lt_of_le long with here | beyond
  · have stops := @stops_nameEnd commandUser after (by omega)
    rw [← here] at stops
    apply List.mem_append_right
    rw [stops.scanEnd_some (by omega)]
    exact List.mem_cons_self
  · apply List.mem_append_left
    apply List.mem_flatMap.mpr
    refine ⟨32, ?_, ?_⟩
    · apply mem_scan_of_onward (Nat.zero_le _)
      · exact fun place _ before => inWord_of_lt (by omega)
      · omega
    · rw [if_pos (inWord_of_lt (by omega))]
      simp

theorem ParsesInBounds.short {s : Kernel} {locals : Locals} {commandUser after : Nat → Byte}
    (inBounds : s.ParsesInBounds locals (commandMemory commandUser after)) :
    nameEnd (localCommand commandUser) ≤ 31 := by
  by_contra long
  have outside := inBounds 34 _ (parseAccesses_long (Nat.lt_of_not_le long))
  exact Nat.lt_irrefl 32 outside

/-- With a first word that fits, a command that starts a program without a NUL in the local
array is read behind it. -/
theorem parseAccesses_unterminated {s : Kernel} {locals : Locals}
    {commandUser after : Nat → Byte} (short : nameEnd (localCommand commandUser) ≤ 31)
    (starts : s.startsProgram locals (firstWord (localCommand commandUser)) = true)
    (unterminated : nul ∉ localCommand commandUser) :
    .readCommand 128 ∈ s.parseAccesses locals (commandMemory commandUser after) 200 := by
  have stops := @stops_nameEnd commandUser after (by omega)
  have notNul : ∀ place < 128, commandMemory commandUser after place ≠ nul := by
    intro place inside isNul
    apply unterminated
    have within : place < (localCommand commandUser).length := by
      rwa [localCommand_length]
    rw [← isNul, ← localCommand_getElem within]
    exact List.getElem_mem within
  rw [← take_nameEnd] at starts
  apply List.mem_append_right
  rw [stops.scanEnd_some (by omega)]
  dsimp only
  rw [fileName_eq (by omega), if_pos starts]
  apply List.mem_cons_of_mem
  apply List.mem_append_right
  exact argumentAccesses_leave (by omega) notNul

theorem nameEnd_le_of_nul {commandUser after : Nat → Byte} {place : Nat}
    (isNul : commandMemory commandUser after place = nul) :
    nameEnd (localCommand commandUser) ≤ place := by
  by_contra before
  have onward := @inWord_of_lt commandUser after place (by omega)
  rw [isNul] at onward
  revert onward
  decide

end Kernel

/-- `execute` stays in its arrays exactly when the first word leaves room for its terminator
and a command that starts a program has its NUL among the 128 bytes copied. -/
theorem command_parsing (s : Kernel) (locals : Locals) (commandUser after : Nat → Byte) :
    s.ParsesInBounds locals (commandMemory commandUser after) ↔
      nameEnd (localCommand commandUser) ≤ 31 ∧
        (s.startsProgram locals (firstWord (localCommand commandUser)) = true →
          nul ∈ localCommand commandUser) := by
  constructor
  · intro inBounds
    refine ⟨inBounds.short, ?_⟩
    intro starts
    by_contra unterminated
    have outside := inBounds 200 _
      (Kernel.parseAccesses_unterminated inBounds.short starts unterminated)
    exact Nat.lt_irrefl 128 outside
  · rintro ⟨short, terminated⟩ fuel access member
    have stops := @stops_nameEnd commandUser after (by omega)
    rw [← take_nameEnd] at terminated
    rcases List.mem_append.mp member with inName | later
    · exact nameAccesses_inBounds stops short access inName
    · split at later
      case h_1 => cases later
      case h_2 argsIdx isEnd =>
        obtain rfl := stops.scanEnd_eq isEnd
        rw [fileName_eq (by omega)] at later
        rcases List.mem_cons.mp later with rfl | further
        · exact Nat.lt_of_le_of_lt short (by decide)
        · split at further
          case isFalse => cases further
          case isTrue starts =>
            rcases List.mem_append.mp further with isName | isArgument
            · apply strcpyAccesses_inBounds _ access isName
              rw [List.length_take]
              omega
            · obtain ⟨place, within, isNul⟩ := List.getElem_of_mem (terminated starts)
              have inside : place < 128 := by
                rwa [localCommand_length] at within
              rw [@localCommand_getElem commandUser after place within] at isNul
              exact argumentAccesses_inBounds (Kernel.nameEnd_le_of_nul isNul) inside isNul
                access isArgument

/-- A first word of 40 characters. -/
theorem command_parsing_longWord :
    ¬∀ (s : Kernel) (locals : Locals) (commandUser after : Nat → Byte),
      s.ParsesInBounds locals (commandMemory commandUser after) := by
  intro inBounds
  have short := (inBounds sampleStart sampleLocals (fun i => if i < 40 then 0x61 else nul)
    fun _ => nul).short
  revert short
  decide

end LightweightOs
