import LightweightOs.Library.Sessions
import LightweightOs.Halt
import LightweightOs.Vidmap
import LightweightOs.Pit
import LightweightOs.KeyboardInterrupt

/-!
# The sessions a kernel state stands for

What the kernel is for is a session: three terminals, each with a stack of
processes on its base shell, one of them running, and a saved frame for every
process that is not.  `Represents` says how the kernel stores a session: the
accounting variables, the links between process control blocks, the two saved
frames of a block, and the page mapping and stack top of the running process.
Each part depends on its own globals, so each operation is checked against the
parts one at a time.
-/

namespace LightweightOs

abbrev Session := Sessions Int Int Word

/-- Process identifiers: the base shell of terminal `t` is `t`, everything
above it is an auxiliary process. -/
structure Numbered (a : Session) : Prop where
  terminal : ∀ t, a.stack t ≠ [] → 1 ≤ t ∧ t ≤ 3
  base : ∀ t, a.stack t ≠ [] → (a.stack t).getLast? = some t
  aux : ∀ t p, p ∈ a.stack t → p = t ∨ 4 ≤ p ∧ p ≤ 6
  first : a.stack 1 ≠ []

structure Accounts (table : ProcessTable) (a : Session) : Prop where
  booted : ∀ t, 1 ≤ t → t ≤ 3 → (table.booted t ↔ a.stack t ≠ [])
  liveMask : table.baseShellLiveBitmask = table.baseShellBootedBitmask
  initBoot : table.shellInitBoot = 0
  slots : ∀ p, 1 ≤ p → p ≤ 6 → (table.live p ↔ a.Live p)
  counted : table.auxProcesses = ProcessTable.auxSlots table.activeProcesses

structure Links (pcb : PcbMemory) (a : Session) : Prop where
  linked : ∀ t, Chain.Linked (fun address => (pcb address).parentPcb)
    (fun address => (pcb address).childPcb) 0 ((a.stack t).map pcbAddr)
  named : ∀ p, a.Live p → (pcb (pcbAddr p)).processId = p

structure Frames (pcb : PcbMemory) (a : Session) : Prop where
  suspended : ∀ p frame, a.suspended p = some frame →
    (pcb (pcbAddr p)).schedEbp = frame ∧ currentPcb frame = pcbAddr p
  calling : ∀ p child frame, a.calling p = some (child, frame) →
    (pcb (pcbAddr p)).ebp = frame ∧ currentPcb frame = pcbAddr p

/-- The processor runs `p`: its stack, its page and its stack top. -/
structure Runs (s : Kernel) (p : Int) : Prop where
  onStack : currentPcb s.esp = pcbAddr p
  mapped : ∃ page, s.pdt 32 = pdtEntryPageSetup page (BitVec.ofInt 32 (p + 1)) 1
  stackTop : s.tssEsp0 = kernelStackTop p

structure Represents (s : Kernel) (a : Session) : Prop where
  wellFormed : a.WellFormed
  numbered : Numbered a
  accounts : Accounts s.table a
  links : Links s.pcb a
  frames : Frames s.pcb a
  runs : ∀ p, a.running = some p → Runs s p
  current : s.curProcess = a.current
  displayed : a.stack s.tty.curTerminal ≠ []
  shell : ValidShell s.fs

namespace Numbered

variable {a : Session}

theorem range (numbered : Numbered a) {p : Int} (live : a.Live p) :
    1 ≤ p ∧ p ≤ 6 := by
  obtain ⟨t, member⟩ := live
  have terminal := numbered.terminal t (List.ne_nil_of_mem member)
  rcases numbered.aux t p member with isBase | isAux <;> omega

theorem pcbAddr_ne (numbered : Numbered a) {p q : Int} (first : a.Live p)
    (second : a.Live q) (different : p ≠ q) : pcbAddr p ≠ pcbAddr q := by
  have pRange := numbered.range first
  have qRange := numbered.range second
  exact LightweightOs.pcbAddr_ne (by omega) (by omega) (by omega) (by omega)
    different

theorem pcbAddr_inj (numbered : Numbered a) {p q : Int} (first : a.Live p)
    (second : a.Live q) (equality : pcbAddr p = pcbAddr q) : p = q := by
  by_contra different
  exact numbered.pcbAddr_ne first second different equality

/-- The identifier of a base shell is in use exactly when its terminal is. -/
theorem live_base (numbered : Numbered a) {t : Int} (low : 1 ≤ t) (high : t ≤ 3) :
    a.Live t ↔ a.stack t ≠ [] := by
  constructor
  · intro ⟨other, member⟩
    rcases numbered.aux other t member with equality | isAux
    · rw [equality]
      exact List.ne_nil_of_mem member
    · omega
  · intro nonempty
    exact ⟨t, List.mem_of_getLast? (numbered.base t nonempty)⟩

theorem base_top (numbered : Numbered a) {t p : Int} {rest : List Int}
    (nodup : (a.stack t).Nodup) (stacked : a.stack t = p :: rest)
    (range : 1 ≤ p ∧ p ≤ 3) : p = t ∧ rest = [] := by
  have isBase : p = t := by
    rcases numbered.aux t p (by simp [stacked]) with isBase | isAux
    · exact isBase
    · omega
  refine ⟨isBase, ?_⟩
  have last := numbered.base t (by simp [stacked])
  rw [stacked] at last nodup
  by_contra more
  have inRest : t ∈ rest := by
    apply List.mem_of_getLast?
    rwa [← List.getLast?_cons_of_ne_nil more]
  exact (List.nodup_cons.mp nodup).1 (isBase ▸ inRest)

theorem aux_top (numbered : Numbered a) {t p : Int} {rest : List Int}
    (stacked : a.stack t = p :: rest) (range : ¬(1 ≤ p ∧ p ≤ 3)) :
    (4 ≤ p ∧ p ≤ 6) ∧ ∃ under inner, rest = under :: inner := by
  have terminal := numbered.terminal t (by simp [stacked])
  have isAux : 4 ≤ p ∧ p ≤ 6 := by
    rcases numbered.aux t p (by simp [stacked]) with isBase | isAux
    · omega
    · exact isAux
  refine ⟨isAux, ?_⟩
  cases rest with
  | nil =>
      have last := numbered.base t (by simp [stacked])
      have isBase : p = t := by simpa [stacked] using last
      omega
  | cons under inner => exact ⟨under, inner, rfl⟩

end Numbered

namespace Represents

variable {s : Kernel} {a : Session} (represents : Represents s a)

include represents

theorem stacked : ∃ p rest, a.stack a.current = p :: rest ∧ Runs s p := by
  obtain ⟨p, rest, stacked⟩ :=
    List.exists_cons_of_ne_nil represents.wellFormed.nonempty
  exact ⟨p, rest, stacked, represents.runs p (by simp [Sessions.running, stacked])⟩

theorem terminal : 1 ≤ a.current ∧ a.current ≤ 3 :=
  represents.numbered.terminal a.current represents.wellFormed.nonempty

theorem stack_length_le (t : Int) : (a.stack t).length ≤ walkFuel := by
  have small : ∀ p ∈ a.stack t, p ∈ ([1, 2, 3, 4, 5, 6] : List Int) := by
    intro p member
    have range := represents.numbered.range ⟨t, member⟩
    simp only [List.mem_cons, List.not_mem_nil, or_false]
    omega
  have bound := (represents.wellFormed.nodup t).length_le_of_subset small
  simp only [walkFuel]
  simp only [List.length_cons, List.length_nil] at bound
  omega

/-- From any block of a terminal `get_base_process_pcb` finds its base shell. -/
theorem getBaseProcessPcb {t p : Int} (member : p ∈ a.stack t) :
    getBaseProcessPcb s.pcb (pcbAddr p) = some (pcbAddr t) := by
  have last := represents.numbered.base t (List.ne_nil_of_mem member)
  have walked := (represents.links.linked t).walk_up
    (List.mem_map_of_mem member)
    (by simpa using represents.stack_length_le t)
  simpa [LightweightOs.getBaseProcessPcb, List.getLast?_map, last] using walked

/-- From any block of a terminal `get_top_process_pcb` finds its outermost
process. -/
theorem getTopProcessPcb {t p top : Int} {rest : List Int}
    (member : p ∈ a.stack t) (stacked : a.stack t = top :: rest) :
    getTopProcessPcb s.pcb (pcbAddr p) = some (pcbAddr top) := by
  have walked := (represents.links.linked t).walk_down
    (List.mem_map_of_mem member)
    (by simpa using represents.stack_length_le t)
  simpa [LightweightOs.getTopProcessPcb, stacked] using walked

/-- The base shell of the running process is that of the terminal being
scheduled. -/
theorem base {current : Word} (own : current = currentPcb s.esp) :
    LightweightOs.getBaseProcessPcb s.pcb current = some (pcbAddr s.curProcess) ∧
      (s.pcb (pcbAddr s.curProcess)).processId = s.curProcess := by
  obtain ⟨p, rest, stacked, runs⟩ := represents.stacked
  have terminal := represents.terminal
  have live : a.Live a.current :=
    (represents.numbered.live_base terminal.1 terminal.2).mpr
      represents.wellFormed.nonempty
  have found := represents.getBaseProcessPcb
    (by rw [stacked]; exact List.mem_cons_self)
  rw [represents.current, own, runs.onStack]
  exact ⟨found, represents.links.named _ live⟩

/-- The terminal `putc` finds for the running process is the one being
scheduled. -/
theorem curProcessLocal {current : Word} (own : current = currentPcb s.esp) :
    s.curProcessLocal current = some s.curProcess := by
  have terminal := represents.terminal
  have booted := (represents.accounts.booted a.current terminal.1 terminal.2).mpr
    represents.wellFormed.nonempty
  have notZero : s.table.baseShellBootedBitmask ≠ 0 := by
    intro zero
    exact booted (by simp [zero])
  obtain ⟨found, named⟩ := represents.base own
  rw [Kernel.curProcessLocal, if_neg notZero, found, Option.map_some, named]

theorem terminalWrite {current : Word} (own : current = currentPcb s.esp)
    (input : List Byte) :
    s.terminalWrite current input = some
      { s with
        tty :=
          { s.tty with
            toConsole :=
              s.tty.toConsole.terminalWrite s.tty.curTerminal s.curProcess
                input } } := by
  rw [Kernel.terminalWrite, represents.curProcessLocal own, Option.map_some]

end Represents

end LightweightOs
