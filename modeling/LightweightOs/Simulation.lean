import LightweightOs.Preservation

/-!
# Each operation realises an action on sessions

For `execute`, `halt`, the scheduler and the keyboard handler: from a state that
represents a session the operation has a result, and the state after represents
the session after the corresponding action.
-/

namespace LightweightOs

variable {a : Session}

theorem Runs.install {s : Kernel} {frame : Frame} {locals : Locals}
    {choice : ProcessTable.Choice} {command : List Byte}
    (low : 1 ≤ choice.nextPid) (high : choice.nextPid ≤ 6) :
    Runs (s.install frame locals choice command) choice.nextPid where
  onStack := currentPcb_kernelStackTop (by omega) high
  mapped := ⟨locals.newPage, by simp [Kernel.install]⟩
  stackTop := rfl

/-- A live table never takes the boot or the reboot branch of `execute`. -/
theorem Accounts.choosePid {table : ProcessTable} (accounts : Accounts table a)
    (isShell : Bool) (nextPid : Int) :
    table.choosePid isShell nextPid = table.startAux nextPid := by
  simp [ProcessTable.choosePid, accounts.initBoot, accounts.liveMask]

namespace Represents

variable {s : Kernel} {frame inner : Frame} {locals : Locals}

/-- Only the console may change without the session noticing. -/
theorem display (represents : Represents s a) (tty : Tty)
    (displayed : a.stack tty.curTerminal ≠ []) :
    Represents { s with tty := tty } a where
  wellFormed := represents.wellFormed
  numbered := represents.numbered
  accounts := represents.accounts
  links := represents.links
  frames := represents.frames
  runs := fun p running =>
    ⟨(represents.runs p running).onStack, (represents.runs p running).mapped,
      (represents.runs p running).stackTop⟩
  current := represents.current
  displayed := displayed
  shell := represents.shell

theorem push (represents : Represents s a) (on : frame.On s) {top i : Int}
    {rest : List Int} (command : List Byte)
    (stacked : a.stack a.current = top :: rest)
    (slot : i ∈ ([3, 4, 5] : List Int)) (free : s.table.activeProcesses i = 0) :
    Represents
      (s.install frame locals
        { table :=
            { s.table with
              activeProcesses := assign s.table.activeProcesses i 1
              auxProcesses := s.table.auxProcesses + 1 }
          nextPid := i + 1
          baseBoot := false } command)
      (a.push top (i + 1) rest frame.ebp) := by
  have range : 4 ≤ i + 1 ∧ i + 1 ≤ 6 := by
    simp only [List.mem_cons, List.not_mem_nil, or_false] at slot
    omega
  have fresh : ¬a.Live (i + 1) := by
    rw [← represents.accounts.slots (i + 1) (by omega) (by omega)]
    simp [ProcessTable.live, free]
  have runs := represents.runs top (by simp [Sessions.running, stacked])
  have block : currentPcb frame.esp = pcbAddr top := on.esp.trans runs.onStack
  constructor
  case wellFormed => exact represents.wellFormed.push _ stacked fresh
  case numbered => exact represents.numbered.push _ stacked range
  case accounts => exact represents.accounts.push _ stacked slot free
  case links =>
    simp only [Kernel.install, block]
    exact represents.links.push represents.wellFormed represents.numbered _ _ _
      stacked range fresh
  case frames =>
    simp only [Kernel.install, block]
    exact represents.frames.push represents.wellFormed represents.numbered _
      stacked (on.ebp.trans runs.onStack)
  case runs =>
    intro p running
    have isChild : i + 1 = p := by simpa [Sessions.running, Sessions.push] using running
    rw [← isChild]
    exact @Runs.install s frame locals _ command (by simp; omega) (by simp; omega)
  case current => exact represents.current
  case displayed =>
    intro empty
    have displayed := represents.displayed
    by_cases here : s.tty.curTerminal = a.current
    · simp [Kernel.install, here] at empty
    · have same := Sessions.push_stack_of_ne top (i + 1) rest frame.ebp here
      exact displayed (same ▸ empty)
  case shell => exact represents.shell

/-- `execute` by the running process: either it returns and nothing of the
session changes, or an auxiliary process starts on top of the caller. -/
theorem execute (represents : Represents s a) (on : frame.On s)
    (locals : Locals) (commandUser : Nat → Byte) :
    (∃ value next, s.execute frame locals commandUser = some (.returns value next) ∧
      next.table = s.table ∧ next.curProcess = s.curProcess ∧
      Represents next a) ∨
    ∃ started next top rest,
      s.execute frame locals commandUser = some (.starts started next) ∧
      a.stack a.current = top :: rest ∧ ¬a.Live started.pid ∧
      4 ≤ started.pid ∧ started.pid ≤ 6 ∧ started.baseBoot = false ∧
      next.curProcess = s.curProcess ∧
      Represents next (a.push top started.pid rest frame.ebp) := by
  obtain ⟨top, rest, stacked, _⟩ := represents.stacked
  simp only [Kernel.execute]
  cases findProgram s.fs ((localCommand commandUser).take
      (nameEnd (localCommand commandUser))) locals.fileMetadata with
  | none => exact .inl ⟨-1, s, rfl, rfl, rfl, represents⟩
  | some program =>
      have counted := represents.accounts.counted
      have chosen := represents.accounts.choosePid
        (isShell ((localCommand commandUser).take
          (nameEnd (localCommand commandUser)))) locals.nextPid
      cases found : ([3, 4, 5] : List Int).find?
          (fun i => s.table.activeProcesses i = 0) with
      | none =>
          obtain ⟨full, aux⟩ :=
            @ProcessTable.startAux_full s.table locals.nextPid found
          have exceeds : s.table.auxProcesses + 1 > 3 := by omega
          have restored : s.table.auxProcesses + 1 - 1 = s.table.auxProcesses := by
            omega
          obtain ⟨tty, wrote, same⟩ : ∃ tty : Tty,
              s.terminalWrite (currentPcb frame.esp) maxProcessesMessage =
                some { s with tty := tty } ∧
              tty.curTerminal = s.tty.curTerminal :=
            ⟨_, represents.terminalWrite on.esp maxProcessesMessage, rfl⟩
          refine .inl ⟨1, { s with tty := tty }, ?_, rfl, rfl,
            represents.display tty (same ▸ represents.displayed)⟩
          simp only [Kernel.runProgram, chosen, aux, if_pos exceeds, restored, wrote,
            Option.map_some]
      | some i =>
          obtain ⟨slot, free, aux⟩ :=
            @ProcessTable.startAux_free s.table locals.nextPid i found
          have less := ProcessTable.auxSlots_take slot free
          have bound := @ProcessTable.auxSlots_le
            (assign s.table.activeProcesses i 1)
          have starts := @Kernel.runProgram_starts s frame locals
            (localCommand commandUser) program _ (chosen.trans aux)
            (by simp only; omega)
          have range : 4 ≤ i + 1 ∧ i + 1 ≤ 6 := by
            simp only [List.mem_cons, List.not_mem_nil, or_false] at slot
            omega
          have fresh : ¬a.Live (i + 1) := by
            rw [← represents.accounts.slots (i + 1) (by omega) (by omega)]
            simp [ProcessTable.live, free]
          exact .inr ⟨_, _, top, rest, starts, stacked, fresh, range.1, range.2, rfl,
            rfl, represents.push on _ stacked slot free⟩

theorem restart (represents : Represents s a) (on : inner.On s) {top : Int}
    {rest : List Int} (command : List Byte)
    (stacked : a.stack a.current = top :: rest) (range : 1 ≤ top ∧ top ≤ 3) :
    Represents
      (s.install inner locals
        { table := s.table, nextPid := top, baseBoot := true } command) a := by
  have runs := represents.runs top (by simp [Sessions.running, stacked])
  have block : currentPcb inner.esp = pcbAddr top := on.esp.trans runs.onStack
  obtain ⟨isBase, alone⟩ := represents.numbered.base_top
    (represents.wellFormed.nodup _) stacked range
  constructor
  case wellFormed => exact represents.wellFormed
  case numbered => exact represents.numbered
  case accounts => exact represents.accounts
  case links =>
    simp only [Kernel.install, block]
    apply represents.links.installBase represents.numbered _ _ _ range
    · rw [isBase, stacked, alone, isBase]
    · exact fun _ _ => rfl
  case frames =>
    simp only [Kernel.install, block]
    exact represents.frames.restart represents.wellFormed represents.numbered _
      stacked
  case runs =>
    intro p running
    have isTop : top = p := by simpa [Sessions.running, stacked] using running
    rw [← isTop]
    exact @Runs.install s inner locals _ command (by simp; omega) (by simp; omega)
  case current => exact represents.current
  case displayed => exact represents.displayed
  case shell => exact represents.shell

theorem enter (represents : Represents s a) (locals : Locals) (on : frame.On s)
    (innerOn : inner.On s) {top t : Int} {rest : List Int} (tty : Tty)
    (command : List Byte) (stacked : a.stack a.current = top :: rest)
    (range : 1 ≤ t ∧ t ≤ 3) (displays : tty.curTerminal = t)
    (unused : a.stack t = []) :
    Represents
      ((({ s with tty := tty } : Kernel).prepareBoot frame t).install inner locals
        ({ s.table with shellInitBoot := t } : ProcessTable).bootBase command)
      (a.enter top t t frame.ebp) := by
  have runs := represents.runs top (by simp [Sessions.running, stacked])
  have block : currentPcb frame.esp = pcbAddr top := on.esp.trans runs.onStack
  have innerBlock : currentPcb inner.esp = pcbAddr top :=
    innerOn.esp.trans runs.onStack
  have own : currentPcb frame.ebp = pcbAddr top := on.ebp.trans runs.onStack
  have fresh : ¬a.Live t := by
    rw [represents.numbered.live_base range.1 range.2]
    exact fun nonempty => nonempty unused
  constructor
  case wellFormed => exact represents.wellFormed.enter _ stacked unused fresh
  case numbered => exact represents.numbered.enter _ range
  case accounts => exact represents.accounts.enter _ range unused
  case links =>
    have saved := represents.links.saveSched (currentPcb frame.esp) frame.ebp
    exact saved.installBase represents.numbered (currentPcb inner.esp)
      inner.ebp command range (Sessions.enter_stack_self a top t t frame.ebp)
      (fun u different => Sessions.enter_stack_of_ne _ _ _ different)
  case frames =>
    have saved := represents.frames.enter represents.wellFormed represents.numbered t
      inner.ebp command stacked own
    simp only [Kernel.install, Kernel.prepareBoot, block, innerBlock]
    exact saved
  case runs =>
    intro p running
    have isBase : t = p := by simpa [Sessions.running, Sessions.enter] using running
    rw [← isBase]
    exact Runs.install range.1 (Int.le_trans range.2 (by decide))
  case current => rfl
  case displayed =>
    intro empty
    have shown : (a.enter top t t frame.ebp).stack tty.curTerminal = [] := empty
    simp [displays] at shown
  case shell => exact represents.shell

/-- The boot of the shell of an unused terminal, which the keyboard handler
has just displayed. -/
theorem boot (represents : Represents s a) (on : frame.On s) (innerOn : inner.On s)
    (locals : Locals) {top t : Int} {rest : List Int} (tty : Tty) (after : Nat → Byte)
    (stacked : a.stack a.current = top :: rest) (range : 1 ≤ t ∧ t ≤ 3)
    (displays : tty.curTerminal = t) (unused : a.stack t = []) :
    ∃ started next,
      ({ s with tty := tty } : Kernel).bootTerminal frame inner locals t after =
        some (.boots started next) ∧
      started.pid = t ∧ started.baseBoot = true ∧ next.curProcess = t ∧
      Represents next (a.enter top t t frame.ebp) := by
  have counted := represents.accounts.counted
  have bound := @ProcessTable.auxSlots_le s.table.activeProcesses
  have notZero : t ≠ 0 := by omega
  obtain ⟨program, boots⟩ := @Kernel.bootTerminal_boots { s with tty := tty }
    represents.shell (by dsimp only; omega) frame inner locals _ notZero after
  have installed := represents.enter locals on innerOn tty
    (localCommand (shellCommand after)) stacked range displays unused
  exact ⟨_, _, boots, rfl, rfl, rfl, installed⟩

/-- The keyboard handler changes the display, and boots the shell of an unused
terminal. -/
theorem key (represents : Represents s a) (on : frame.On s) (innerOn : inner.On s)
    (locals : Locals) (scanCode : Byte) (after : Nat → Byte) :
    (∃ tty, s.keyboardHandler frame inner locals scanCode after =
        some (.handled { s with tty := tty }) ∧
      (∀ t, (s.tty.modifierKeys scanCode).selectedTerminal scanCode = some t →
        s.table.booted t) ∧
      tty.curTerminal =
        ((s.tty.modifierKeys scanCode).selectedTerminal scanCode).getD
          s.tty.curTerminal ∧
      Represents { s with tty := tty } a) ∨
    ∃ started next top rest t,
      s.keyboardHandler frame inner locals scanCode after =
        some (.boots started next) ∧
      a.stack a.current = top :: rest ∧ 1 ≤ t ∧ t ≤ 3 ∧ a.stack t = [] ∧
      (s.tty.modifierKeys scanCode).selectedTerminal scanCode = some t ∧
      started.pid = t ∧ started.baseBoot = true ∧ next.curProcess = t ∧
      Represents next (a.enter top t t frame.ebp) := by
  obtain ⟨top, rest, stacked, runs⟩ := represents.stacked
  have who := represents.curProcessLocal on.esp
  simp only [Kernel.keyboardHandler, Kernel.interrupted, who, Option.map_some]
  generalize typed : s.tty.keyBlocks
    ⟨s.curProcess, (s.pcb (currentPcb frame.esp)).processId⟩ scanCode = tty
  have shown : tty.curTerminal = s.tty.curTerminal := by
    rw [← typed, Tty.keyBlocks_curTerminal]
  rw [← Tty.keyBlocks_selectedTerminal s.tty
    ⟨s.curProcess, (s.pcb (currentPcb frame.esp)).processId⟩, typed]
  cases selects : tty.selectedTerminal scanCode with
  | none =>
      exact .inl ⟨tty, rfl, by simp, shown,
        represents.display tty (shown ▸ represents.displayed)⟩
  | some selected =>
      have range := Tty.selectedTerminal_range selects
      have bootedIff := represents.accounts.booted selected range.1 range.2
      by_cases booted : s.table.booted selected
      · refine .inl ⟨tty.switchTerminal selected, ?_, ?_, rfl,
          represents.display _ (bootedIff.mp booted)⟩
        · simp only [if_pos booted]
        · intro t isSelected
          rwa [← Option.some.inj isSelected]
      · have unused : a.stack selected = [] := by
          by_contra nonempty
          exact booted (bootedIff.mpr nonempty)
        obtain ⟨started, next, boots, facts⟩ := represents.boot on innerOn locals
          (tty.switchTerminal selected) after stacked range rfl unused
        refine .inr ⟨started, next, top, rest, selected, ?_, stacked, range.1,
          range.2, unused, rfl, facts⟩
        simp only [if_neg booted]
        exact boots

/-- The scheduler goes on with the running process, or resumes the outermost
process of another terminal from its saved frame. -/
theorem pit (represents : Represents s a) (on : frame.On s) (locals : Locals) :
    s.pitHandler frame locals = some (.continues s) ∨
    ∃ schedEbp next top rest t resumed others,
      s.pitHandler frame locals = some (.switches schedEbp next) ∧
      a.stack a.current = top :: rest ∧ a.stack t = resumed :: others ∧
      t ≠ a.current ∧ a.suspended resumed = some schedEbp ∧
      next.table = s.table ∧ next.curProcess = t ∧
      Represents next (a.change top t resumed frame.ebp) := by
  obtain ⟨top, rest, stacked, runs⟩ := represents.stacked
  have terminal := represents.terminal
  have block : currentPcb frame.esp = pcbAddr top := on.esp.trans runs.onStack
  have own : currentPcb frame.ebp = pcbAddr top := on.ebp.trans runs.onStack
  generalize chosen : nextProcess s.table.baseShellBootedBitmask s.curProcess = t
  have current := represents.current
  by_cases same : s.curProcess = t
  · left
    have stays := chosen.trans same.symm
    simp [Kernel.pitHandler, stays]
  · right
    have nonempty : a.stack t ≠ [] := by
      have cases := nextProcess_cases s.table.baseShellBootedBitmask
        (current ▸ terminal.1) (current ▸ terminal.2)
      rw [chosen] at cases
      rcases cases with first | ⟨second, bit⟩ | ⟨third, bit⟩
      · exact first ▸ represents.numbered.first
      · rw [second]
        exact (represents.accounts.booted 2 (by omega) (by omega)).mp bit
      · rw [third]
        exact (represents.accounts.booted 3 (by omega) (by omega)).mp bit
    obtain ⟨resumed, others, waiting⟩ := List.exists_cons_of_ne_nil nonempty
    have different : t ≠ a.current := by
      intro equality
      exact same (current.trans equality.symm)
    have base : t ∈ a.stack t :=
      List.mem_of_getLast? (represents.numbered.base t nonempty)
    have found := represents.getTopProcessPcb base waiting
    obtain ⟨schedEbp, saved⟩ := represents.wellFormed.suspended_top waiting different
    obtain ⟨stored, ownFrame⟩ := represents.frames.suspended resumed schedEbp saved
    have resumedLive : a.Live resumed := ⟨t, by simp [waiting]⟩
    have topLive : a.Live top := ⟨a.current, by simp [stacked]⟩
    have notTop : resumed ≠ top := by
      intro equality
      exact different (represents.wellFormed.disjoint resumed t a.current
        (by simp [waiting]) (by simp [stacked, equality]))
    have apart := represents.numbered.pcbAddr_ne resumedLive topLive notTop
    have name := represents.links.named resumed resumedLive
    let next := ({ s with curProcess := t } : Kernel).switchTo frame locals
      (pcbAddr resumed)
    have loaded : next.esp = schedEbp := by
      simp [next, Kernel.switchTo, block, saveSched_schedEbp, apart, stored]
    refine ⟨schedEbp, next, top, rest, t, resumed, others, ?_, stacked, waiting,
      different, saved, rfl, rfl, ?_⟩
    · simp only [Kernel.pitHandler, chosen, ne_eq, same, not_false_eq_true, if_true,
        found, Option.map_some, next]
      exact congrArg (fun esp => some (PitResult.switches esp next)) loaded
    · constructor
      case wellFormed =>
        exact represents.wellFormed.change _ stacked waiting different
      case numbered => exact represents.numbered.change _
      case accounts => exact represents.accounts.change _
      case links =>
        simp only [next, Kernel.switchTo, block]
        have saved := represents.links.saveSched (pcbAddr top) frame.ebp
        exact ⟨saved.linked, saved.named⟩
      case frames =>
        simp only [next, Kernel.switchTo, block]
        exact represents.frames.change represents.wellFormed represents.numbered
          stacked own
      case runs =>
        intro p running
        have isResumed : resumed = p := by
          simpa [Sessions.running, Sessions.change, waiting] using running
        rw [← isResumed]
        constructor
        case onStack => rw [loaded, ownFrame]
        case mapped =>
          exact ⟨locals.newPage, by simp [next, Kernel.switchTo, name]⟩
        case stackTop => simp [next, Kernel.switchTo, name]
      case current => rfl
      case displayed => exact represents.displayed
      case shell => exact represents.shell

/-- The writes to the block of the process that ends change nothing the
session is read from. -/
theorem closeProcess (represents : Represents s a) (address status : Word) :
    Represents { s with pcb := LightweightOs.closeProcess s.pcb address status } a where
  wellFormed := represents.wellFormed
  numbered := represents.numbered
  accounts := represents.accounts
  links := represents.links.closeProcess address status
  frames := represents.frames.closeProcess address status
  runs := fun p running =>
    ⟨(represents.runs p running).onStack, (represents.runs p running).mapped,
      (represents.runs p running).stackTop⟩
  current := represents.current
  displayed := represents.displayed
  shell := represents.shell

theorem haltBase (represents : Represents s a) (innerOn : inner.On s)
    (locals : Locals) {top : Int} {rest : List Int} (after : Nat → Byte)
    (stacked : a.stack a.current = top :: rest) (range : 1 ≤ top ∧ top ≤ 3) :
    ∃ started next,
      (s.prepareRestart top).execute inner locals (shellCommand after) =
        some (.starts started next) ∧
      started.pid = top ∧ started.baseBoot = true ∧
      next.table = s.table ∧ next.curProcess = s.curProcess ∧
      Represents next a := by
  have counted := represents.accounts.counted
  have bound := @ProcessTable.auxSlots_le s.table.activeProcesses
  obtain ⟨isBase, _⟩ := represents.numbered.base_top
    (represents.wellFormed.nodup _) stacked range
  have booted : s.table.booted top := by
    apply (represents.accounts.booted top range.1 range.2).mpr
    simp [isBase, represents.wellFormed.nonempty]
  obtain ⟨program, executes⟩ :=
    @Kernel.execute_shellCommand (s.prepareRestart top) represents.shell inner
      locals after
  have chosen : (s.prepareRestart top).table.choosePid
      (isShell ((localCommand (shellCommand after)).take
        (nameEnd (localCommand (shellCommand after))))) locals.nextPid =
      { table := s.table, nextPid := top, baseBoot := true } := by
    rw [fileName_shellCommand, isShell_shellName]
    exact ProcessTable.choosePid_restart range.1 range.2
      represents.accounts.initBoot represents.accounts.liveMask booted
  have starts := @Kernel.runProgram_starts _ inner _ _ program _ chosen
    (by simp only; omega)
  have installed := @restart a s inner locals represents innerOn top rest
    (localCommand (shellCommand after)) stacked range
  exact ⟨_, _, executes.trans starts, rfl, rfl, rfl, rfl, installed⟩

/-- An auxiliary process that ends returns to its parent's pending call. -/
theorem haltAux (represents : Represents s a) {current : Word} (locals : Locals)
    {top under : Int} {rest : List Int} (own : current = pcbAddr top)
    (stacked : a.stack a.current = top :: under :: rest)
    (range : 4 ≤ top ∧ top ≤ 6) :
    a.calling under = some (top, (s.haltAux current locals).esp) ∧
      Represents (s.haltAux current locals) (a.pop under rest) := by
  have linked := represents.links.linked a.current
  rw [stacked, List.map_cons, List.map_cons] at linked
  have parent : (s.pcb current).parentPcb = pcbAddr under := by
    rw [own]
    exact linked.up_top
  have underLive : a.Live under := ⟨a.current, by simp [stacked]⟩
  have topLive : a.Live top := ⟨a.current, by simp [stacked]⟩
  have name := represents.links.named under underLive
  have topName := represents.links.named top topLive
  have once := represents.wellFormed.nodup a.current
  rw [stacked] at once
  have distinct : top ≠ under := by
    intro equality
    exact (List.nodup_cons.mp once).1 (by simp [equality])
  have apart := represents.numbered.pcbAddr_ne topLive underLive distinct
  obtain ⟨frame, waits⟩ := represents.wellFormed.calling_under stacked
  obtain ⟨stored, ownFrame⟩ := represents.frames.calling under top frame waits
  have loaded : (s.haltAux current locals).esp = frame := by
    simp [Kernel.haltAux, own, apart, own ▸ parent, stored]
  refine ⟨loaded.symm ▸ waits, ?_⟩
  constructor
  case wellFormed => exact represents.wellFormed.pop stacked
  case numbered => exact represents.numbered.pop stacked
  case accounts =>
    simp only [Kernel.haltAux, own, topName]
    exact represents.accounts.pop represents.wellFormed stacked range
  case links =>
    simp only [Kernel.haltAux, parent]
    exact represents.links.pop represents.wellFormed represents.numbered stacked
  case frames =>
    simp only [Kernel.haltAux, parent]
    exact represents.frames.pop 0
  case runs =>
    intro p running
    have isUnder : under = p := by simpa [Sessions.running, Sessions.pop] using running
    rw [← isUnder]
    constructor
    case onStack => rw [loaded, ownFrame]
    case mapped =>
      exact ⟨locals.newPage, by simp [Kernel.haltAux, parent, name]⟩
    case stackTop => simp [Kernel.haltAux, parent, name]
  case current => exact represents.current
  case displayed =>
    intro empty
    have displayed := represents.displayed
    by_cases here : s.tty.curTerminal = a.current
    · simp [Kernel.haltAux, here] at empty
    · have same := Sessions.pop_stack_of_ne under rest here
      exact displayed (same ▸ empty)
  case shell => exact represents.shell

/-- `halt` by the running process: a base shell starts again under its own
identifier, an auxiliary process returns to its parent's pending call. -/
theorem halt (represents : Represents s a) (on : frame.On s) (innerOn : inner.On s)
    (locals : Locals) (status : Word) (after : Nat → Byte) :
    (∃ started next t,
      s.halt frame inner locals status after = some (.restarts started next) ∧
      a.stack a.current = [t] ∧ started.pid = t ∧ started.baseBoot = true ∧
      next.table = s.table ∧ next.curProcess = s.curProcess ∧
      Represents next a) ∨
    ∃ parentEbp next top under rest,
      s.halt frame inner locals status after =
        some (.resumes parentEbp (returnValue status) next) ∧
      a.stack a.current = top :: under :: rest ∧ 4 ≤ top ∧
      a.calling under = some (top, parentEbp) ∧
      next.curProcess = s.curProcess ∧ Represents next (a.pop under rest) := by
  obtain ⟨top, rest, stacked, runs⟩ := represents.stacked
  have block : currentPcb frame.esp = pcbAddr top := on.esp.trans runs.onStack
  have name := represents.links.named top ⟨a.current, by simp [stacked]⟩
  have closed := represents.closeProcess (pcbAddr top) status
  simp only [Kernel.halt, block, closeProcess_processId, name]
  by_cases range : 1 ≤ top ∧ top ≤ 3
  · left
    obtain ⟨_, alone⟩ := represents.numbered.base_top
      (represents.wellFormed.nodup _) stacked range
    have innerOn' : inner.On
        { s with pcb := LightweightOs.closeProcess s.pcb (pcbAddr top) status } :=
      ⟨innerOn.esp, innerOn.ebp⟩
    obtain ⟨started, next, executes, pid, base, table, current, restarted⟩ :=
      closed.haltBase innerOn' locals after stacked range
    refine ⟨started, next, top, ?_, alone ▸ stacked, pid, base, table, current,
      restarted⟩
    rw [if_pos range, executes]
  · right
    obtain ⟨isAux, under, inside, isCons⟩ := represents.numbered.aux_top stacked range
    rw [isCons] at stacked
    obtain ⟨waits, resumed⟩ := closed.haltAux locals rfl stacked isAux
    exact ⟨_, _, top, under, inside, if_neg range, stacked, isAux.1, waits, rfl,
      resumed⟩

end Represents

end LightweightOs
