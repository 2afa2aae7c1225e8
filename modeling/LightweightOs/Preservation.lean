import LightweightOs.Representation

/-!
# What the memory writes do to each part of a representation

Starting an auxiliary process, booting or restarting a base shell, ending a
process and switching terminals change the accounting variables, the links and
the saved frames; each change is matched here with the action on sessions it
stands for, one part of the representation at a time.
-/

namespace LightweightOs

variable {a : Session}

namespace Numbered

variable (numbered : Numbered a)

include numbered

theorem push {top child : Int} {rest : List Int} (frame : Word)
    (stacked : a.stack a.current = top :: rest) (range : 4 ≤ child ∧ child ≤ 6) :
    Numbered (a.push top child rest frame) where
  terminal := by
    intro t nonempty
    by_cases here : t = a.current
    · exact numbered.terminal t (by simp [here, stacked])
    · rw [Sessions.push_stack_of_ne _ _ _ _ here] at nonempty
      exact numbered.terminal t nonempty
  base := by
    intro t nonempty
    by_cases here : t = a.current
    · have old := numbered.base a.current (by simp [stacked])
      rw [stacked] at old
      simpa [here] using old
    · rw [Sessions.push_stack_of_ne _ _ _ _ here] at nonempty ⊢
      exact numbered.base t nonempty
  aux := by
    intro t p member
    by_cases here : t = a.current
    · subst here
      rw [Sessions.push_stack_self, List.mem_cons, ← stacked] at member
      rcases member with isChild | inner
      · exact .inr (isChild ▸ range)
      · exact numbered.aux a.current p inner
    · rw [Sessions.push_stack_of_ne _ _ _ _ here] at member
      exact numbered.aux t p member
  first := by
    by_cases here : 1 = a.current
    · simp [here]
    · rw [Sessions.push_stack_of_ne _ _ _ _ here]
      exact numbered.first

theorem pop {top under : Int} {rest : List Int}
    (stacked : a.stack a.current = top :: under :: rest) :
    Numbered (a.pop under rest) where
  terminal := by
    intro t nonempty
    by_cases here : t = a.current
    · exact numbered.terminal t (by simp [here, stacked])
    · rw [Sessions.pop_stack_of_ne _ _ here] at nonempty
      exact numbered.terminal t nonempty
  base := by
    intro t nonempty
    by_cases here : t = a.current
    · have old := numbered.base a.current (by simp [stacked])
      rw [stacked] at old
      simpa [here] using old
    · rw [Sessions.pop_stack_of_ne _ _ here] at nonempty ⊢
      exact numbered.base t nonempty
  aux := by
    intro t p member
    by_cases here : t = a.current
    · subst here
      rw [Sessions.pop_stack_self] at member
      apply numbered.aux a.current p
      rw [stacked]
      exact List.mem_cons_of_mem _ member
    · rw [Sessions.pop_stack_of_ne _ _ here] at member
      exact numbered.aux t p member
  first := by
    by_cases here : 1 = a.current
    · simp [here]
    · rw [Sessions.pop_stack_of_ne _ _ here]
      exact numbered.first

theorem enter {top t : Int} (frame : Word) (range : 1 ≤ t ∧ t ≤ 3) :
    Numbered (a.enter top t t frame) where
  terminal := by
    intro u nonempty
    by_cases here : u = t
    · rwa [here]
    · rw [Sessions.enter_stack_of_ne _ _ _ here] at nonempty
      exact numbered.terminal u nonempty
  base := by
    intro u nonempty
    by_cases here : u = t
    · simp [here]
    · rw [Sessions.enter_stack_of_ne _ _ _ here] at nonempty ⊢
      exact numbered.base u nonempty
  aux := by
    intro u p member
    by_cases here : u = t
    · subst here
      exact .inl (by simpa using member)
    · rw [Sessions.enter_stack_of_ne _ _ _ here] at member
      exact numbered.aux u p member
  first := by
    by_cases here : 1 = t
    · simp [here]
    · rw [Sessions.enter_stack_of_ne _ _ _ here]
      exact numbered.first

theorem change {top t next : Int} (frame : Word) :
    Numbered (a.change top t next frame) :=
  ⟨numbered.terminal, numbered.base, numbered.aux, numbered.first⟩

end Numbered

namespace Accounts

variable {table : ProcessTable} (accounts : Accounts table a)

include accounts

theorem push {top i : Int} {rest : List Int} (frame : Word)
    (stacked : a.stack a.current = top :: rest)
    (slot : i ∈ ([3, 4, 5] : List Int)) (free : table.activeProcesses i = 0) :
    Accounts
      { table with
        activeProcesses := assign table.activeProcesses i 1
        auxProcesses := table.auxProcesses + 1 }
      (a.push top (i + 1) rest frame) where
  booted := by
    intro t low high
    refine (accounts.booted t low high).trans ?_
    by_cases here : t = a.current
    · subst here
      simp [stacked]
    · rw [Sessions.push_stack_of_ne _ _ _ _ here]
  liveMask := accounts.liveMask
  initBoot := accounts.initBoot
  slots := by
    intro p low high
    rw [Sessions.live_push stacked, ← accounts.slots p low high]
    by_cases isChild : p = i + 1
    · simp [ProcessTable.live, isChild]
    · have other : p - 1 ≠ i := by omega
      simp [ProcessTable.live, isChild, other]
  counted := by
    have counted := accounts.counted
    have taken := ProcessTable.auxSlots_take slot free
    simp only [taken]
    omega

theorem pop (wellFormed : a.WellFormed) {top under : Int} {rest : List Int}
    (stacked : a.stack a.current = top :: under :: rest)
    (range : 4 ≤ top ∧ top ≤ 6) :
    Accounts
      { table with
        activeProcesses := assign table.activeProcesses (top - 1) 0
        auxProcesses := table.auxProcesses - 1 }
      (a.pop under rest) where
  booted := by
    intro t low high
    refine (accounts.booted t low high).trans ?_
    by_cases here : t = a.current
    · subst here
      simp [stacked]
    · rw [Sessions.pop_stack_of_ne _ _ here]
  liveMask := accounts.liveMask
  initBoot := accounts.initBoot
  slots := by
    intro p low high
    rw [wellFormed.live_pop stacked, ← accounts.slots p low high]
    by_cases isTop : p = top
    · simp [ProcessTable.live, isTop]
    · have other : p - 1 ≠ top - 1 := by omega
      simp [ProcessTable.live, isTop, other]
  counted := by
    have counted := accounts.counted
    have live : a.Live top := ⟨a.current, by simp [stacked]⟩
    have taken := (accounts.slots top (by omega) (by omega)).mpr live
    have slot : top - 1 ∈ ([3, 4, 5] : List Int) := by
      simp only [List.mem_cons, List.not_mem_nil, or_false]
      omega
    have released := ProcessTable.auxSlots_release slot taken
    simp only
    omega

theorem enter {top t : Int} (frame : Word) (range : 1 ≤ t ∧ t ≤ 3)
    (unused : a.stack t = []) :
    Accounts (({ table with shellInitBoot := t } : ProcessTable).bootBase).table
      (a.enter top t t frame) where
  booted := by
    intro u low high
    have bits := @or_terminalBit table.baseShellBootedBitmask t u range.1 range.2
      low high
    have old := accounts.booted u low high
    refine bits.trans ?_
    by_cases here : u = t
    · simp [here]
    · rw [Sessions.enter_stack_of_ne _ _ _ here, ← old]
      simp [here, ProcessTable.booted]
  liveMask := rfl
  initBoot := rfl
  slots := by
    intro p low high
    rw [Sessions.live_enter unused, ← accounts.slots p low high]
    by_cases isBase : p = t
    · simp [ProcessTable.bootBase, ProcessTable.live, isBase]
    · have other : p - 1 ≠ t - 1 := by omega
      simp [ProcessTable.bootBase, ProcessTable.live, isBase, other]
  counted := by
    have slot : t - 1 ∉ ([3, 4, 5] : List Int) := by
      simp only [List.mem_cons, List.not_mem_nil, or_false]
      omega
    have same := @ProcessTable.auxSlots_base table.activeProcesses _ 1 slot
    simp only [ProcessTable.bootBase, same]
    exact accounts.counted

theorem change {top t next : Int} (frame : Word) :
    Accounts table (a.change top t next frame) :=
  ⟨accounts.booted, accounts.liveMask, accounts.initBoot, accounts.slots,
    accounts.counted⟩

end Accounts

namespace Links

variable {pcb pcb' : PcbMemory}

theorem congr (links : Links pcb a)
    (parents : ∀ address, (pcb' address).parentPcb = (pcb address).parentPcb)
    (children : ∀ address, (pcb' address).childPcb = (pcb address).childPcb)
    (names : ∀ address, (pcb' address).processId = (pcb address).processId) :
    Links pcb' a where
  linked := fun t =>
    (links.linked t).congr (fun node _ => parents node) (fun node _ => children node)
  named := fun p live => (names _).trans (links.named p live)

/-- Saving a frame in a block leaves the links alone. -/
theorem saveSched (links : Links pcb a) (address frame : Word) :
    Links (saveSched pcb address frame) a := by
  apply links.congr <;> intro other <;> simp

theorem closeProcess (links : Links pcb a) (address status : Word) :
    Links (LightweightOs.closeProcess pcb address status) a := by
  apply links.congr <;> intro other <;> simp

theorem push (links : Links pcb a) (wellFormed : a.WellFormed)
    (numbered : Numbered a) {top child : Int} {rest : List Int}
    (frame frameEbp : Word) (command : List Byte)
    (stacked : a.stack a.current = top :: rest)
    (range : 4 ≤ child ∧ child ≤ 6) (fresh : ¬a.Live child) :
    Links (installPcb pcb (pcbAddr top) frameEbp child false command)
      (a.push top child rest frame) := by
  have topMember : top ∈ a.stack a.current := by simp [stacked]
  have topLive : a.Live top := ⟨a.current, topMember⟩
  -- no block of the session is the new one
  have apart : ∀ p, a.Live p → pcbAddr p ≠ pcbAddr child := by
    intro p live
    have pRange := numbered.range live
    apply pcbAddr_ne (by omega) (by omega) (by omega) (by omega)
    intro equality
    exact fresh (equality ▸ live)
  have separate : false = false → pcbAddr top ≠ pcbAddr child :=
    fun _ => apart top topLive
  constructor
  · intro t
    by_cases here : t = a.current
    · subst here
      have old := links.linked a.current
      rw [stacked, List.map_cons] at old
      rw [Sessions.push_stack_self, List.map_cons, List.map_cons]
      apply old.push
      · exact pcbAddr_ne_zero (by omega) (by omega)
      · simp [installPcb_parentPcb _ _ _ _ _ _ _ separate, links.named _ topLive]
      · simp [installPcb_childPcb _ _ _ _ _ _ _ separate, apart top topLive]
      · simp [installPcb_childPcb _ _ _ _ _ _ _ separate]
      · intro node member
        rw [← List.map_cons] at member
        obtain ⟨p, inside, rfl⟩ := List.mem_map.mp member
        have live : a.Live p := ⟨a.current, by rwa [stacked]⟩
        simp [installPcb_parentPcb _ _ _ _ _ _ _ separate, apart p live]
      · intro node member
        obtain ⟨p, inside, rfl⟩ := List.mem_map.mp member
        have live : a.Live p :=
          ⟨a.current, by rw [stacked]; exact List.mem_cons_of_mem _ inside⟩
        have once := wellFormed.nodup a.current
        rw [stacked] at once
        have notTop : p ≠ top := by
          intro equality
          exact (List.nodup_cons.mp once).1 (equality ▸ inside)
        simp [installPcb_childPcb _ _ _ _ _ _ _ separate, apart p live,
          numbered.pcbAddr_ne live topLive notTop]
    · rw [Sessions.push_stack_of_ne _ _ _ _ here]
      apply (links.linked t).congr
      · intro node member
        obtain ⟨p, inside, rfl⟩ := List.mem_map.mp member
        simp [installPcb_parentPcb _ _ _ _ _ _ _ separate, apart p ⟨t, inside⟩]
      · intro node member
        obtain ⟨p, inside, rfl⟩ := List.mem_map.mp member
        have notTop : p ≠ top := by
          intro equality
          exact here (wellFormed.disjoint p t _ inside (equality ▸ topMember))
        simp [installPcb_childPcb _ _ _ _ _ _ _ separate, apart p ⟨t, inside⟩,
          numbered.pcbAddr_ne ⟨t, inside⟩ topLive notTop]
  · intro p live
    rw [installPcb_processId]
    rcases (Sessions.live_push stacked p).mp live with isChild | old
    · simp [isChild]
    · simp [apart p old, links.named p old]

/-- The block of a base shell is set up alone on its stack. -/
theorem installBase {b : Session} (links : Links pcb a) (numbered : Numbered a)
    {t : Int} (current frameEbp : Word) (command : List Byte)
    (range : 1 ≤ t ∧ t ≤ 3) (here : b.stack t = [t])
    (elsewhere : ∀ u, u ≠ t → b.stack u = a.stack u) :
    Links (installPcb pcb current frameEbp t true command) b := by
  have separate : true = false → current ≠ pcbAddr t := by simp
  have apart : ∀ u p, u ≠ t → p ∈ a.stack u → pcbAddr p ≠ pcbAddr t := by
    intro u p different inside
    have pRange := numbered.range ⟨u, inside⟩
    apply pcbAddr_ne (by omega) (by omega) (by omega) (by omega)
    rcases numbered.aux u p inside with isBase | isAux <;> omega
  constructor
  · intro u
    by_cases isHere : u = t
    · subst isHere
      rw [here]
      apply Chain.Linked.singleton
      · exact pcbAddr_ne_zero (by omega) (by omega)
      · simp [installPcb_parentPcb _ _ _ _ _ _ _ separate]
      · simp [installPcb_childPcb _ _ _ _ _ _ _ separate]
    · rw [elsewhere u isHere]
      apply (links.linked u).congr
      · intro node member
        obtain ⟨p, inside, rfl⟩ := List.mem_map.mp member
        simp [installPcb_parentPcb _ _ _ _ _ _ _ separate, apart u p isHere inside]
      · intro node member
        obtain ⟨p, inside, rfl⟩ := List.mem_map.mp member
        simp [installPcb_childPcb _ _ _ _ _ _ _ separate, apart u p isHere inside]
  · intro p live
    obtain ⟨u, inside⟩ := live
    rw [installPcb_processId]
    by_cases isHere : u = t
    · have isBase : p = t := by simpa [isHere, here] using inside
      simp [isBase]
    · rw [elsewhere u isHere] at inside
      simp [apart u p isHere inside, links.named p ⟨u, inside⟩]

theorem pop (links : Links pcb a) (wellFormed : a.WellFormed)
    (numbered : Numbered a) {top under : Int} {rest : List Int}
    (stacked : a.stack a.current = top :: under :: rest) :
    Links
      (assign pcb (pcbAddr under) { pcb (pcbAddr under) with childPcb := 0 })
      (a.pop under rest) := by
  have underMember : under ∈ a.stack a.current := by simp [stacked]
  have underLive : a.Live under := ⟨a.current, underMember⟩
  have parents : ∀ address,
      (assign pcb (pcbAddr under) { pcb (pcbAddr under) with childPcb := 0 }
        address).parentPcb = (pcb address).parentPcb := by
    intro address
    by_cases own : address = pcbAddr under <;> simp [own]
  have names : ∀ address,
      (assign pcb (pcbAddr under) { pcb (pcbAddr under) with childPcb := 0 }
        address).processId = (pcb address).processId := by
    intro address
    by_cases own : address = pcbAddr under <;> simp [own]
  constructor
  · intro t
    by_cases here : t = a.current
    · subst here
      have old := links.linked a.current
      rw [stacked, List.map_cons, List.map_cons] at old
      rw [Sessions.pop_stack_self, List.map_cons]
      apply old.pop
      · simp
      · exact fun node _ => parents node
      · intro node member
        obtain ⟨p, inside, rfl⟩ := List.mem_map.mp member
        have live : a.Live p := ⟨a.current, by simp [stacked, inside]⟩
        have once := wellFormed.nodup a.current
        rw [stacked] at once
        have notUnder : p ≠ under := by
          intro equality
          exact (List.nodup_cons.mp (List.nodup_cons.mp once).2).1 (equality ▸ inside)
        simp [numbered.pcbAddr_ne live underLive notUnder]
    · rw [Sessions.pop_stack_of_ne _ _ here]
      apply (links.linked t).congr
      · exact fun node _ => parents node
      · intro node member
        obtain ⟨p, inside, rfl⟩ := List.mem_map.mp member
        have notUnder : p ≠ under := by
          intro equality
          exact here (wellFormed.disjoint p t _ inside (equality ▸ underMember))
        simp [numbered.pcbAddr_ne ⟨t, inside⟩ underLive notUnder]
  · intro p live
    rw [names]
    exact links.named p ((wellFormed.live_pop stacked p).mp live).2

end Links

namespace Frames

variable {pcb pcb' : PcbMemory}

/-- Only the fields in use matter: `schedEbp` of the suspended processes and
`ebp` of the calling ones. -/
theorem congr (frames : Frames pcb a)
    (saved : ∀ p, a.suspended p ≠ none →
      (pcb' (pcbAddr p)).schedEbp = (pcb (pcbAddr p)).schedEbp)
    (pending : ∀ p, a.calling p ≠ none →
      (pcb' (pcbAddr p)).ebp = (pcb (pcbAddr p)).ebp) :
    Frames pcb' a where
  suspended := by
    intro p frame holds
    rw [saved p (by simp [holds])]
    exact frames.suspended p frame holds
  calling := by
    intro p child frame holds
    rw [pending p (by simp [holds])]
    exact frames.calling p child frame holds

theorem closeProcess (frames : Frames pcb a) (address status : Word) :
    Frames (LightweightOs.closeProcess pcb address status) a := by
  apply frames.congr <;> intro p _ <;> simp

theorem push (frames : Frames pcb a) (wellFormed : a.WellFormed)
    (numbered : Numbered a) {top child : Int} {rest : List Int}
    {frameEbp : Word} (command : List Byte)
    (stacked : a.stack a.current = top :: rest)
    (own : currentPcb frameEbp = pcbAddr top) :
    Frames (installPcb pcb (pcbAddr top) frameEbp child false command)
      (a.push top child rest frameEbp) where
  suspended := by
    intro p frame holds
    rw [installPcb_schedEbp]
    exact frames.suspended p frame holds
  calling := by
    intro p grandchild frame holds
    rw [installPcb_ebp]
    by_cases isTop : p = top
    · have call : child = grandchild ∧ frameEbp = frame := by
        simpa [Sessions.push, isTop] using holds
      rw [isTop, if_pos rfl, ← call.2]
      exact ⟨rfl, own⟩
    · have old : a.calling p = some (grandchild, frame) := by
        simpa [Sessions.push, isTop] using holds
      have live : a.Live p := by
        by_contra dead
        simp [wellFormed.calling_dead dead] at old
      have topLive : a.Live top := ⟨a.current, by simp [stacked]⟩
      rw [if_neg (numbered.pcbAddr_ne live topLive isTop)]
      exact frames.calling p grandchild frame old

/-- The boot of a terminal saves the interrupted process in `schedEbp`.  It
also overwrites the `ebp` of its block, which nobody reads: an outermost
process has no child that could halt. -/
theorem enter (frames : Frames pcb a) (wellFormed : a.WellFormed)
    (numbered : Numbered a) {top : Int} {rest : List Int} {frameEbp : Word}
    (t : Int) (innerEbp : Word) (command : List Byte)
    (stacked : a.stack a.current = top :: rest)
    (own : currentPcb frameEbp = pcbAddr top) :
    Frames
      (installPcb (saveSched pcb (pcbAddr top) frameEbp) (pcbAddr top) innerEbp t true
        command)
      (a.enter top t t frameEbp) where
  suspended := by
    intro p frame holds
    rw [installPcb_schedEbp, saveSched_schedEbp]
    by_cases isTop : p = top
    · have saved : frameEbp = frame := by
        simpa [Sessions.enter, isTop] using holds
      rw [isTop, if_pos rfl, ← saved]
      exact ⟨rfl, own⟩
    · have old : a.suspended p = some frame := by
        simpa [Sessions.enter, isTop] using holds
      have live : a.Live p := by
        by_contra dead
        simp [wellFormed.suspended_dead dead] at old
      have topLive : a.Live top := ⟨a.current, by simp [stacked]⟩
      rw [if_neg (numbered.pcbAddr_ne live topLive isTop)]
      exact frames.suspended p frame old
  calling := by
    intro p child frame holds
    have old : a.calling p = some (child, frame) := holds
    have live : a.Live p := by
      by_contra dead
      simp [wellFormed.calling_dead dead] at old
    have topLive : a.Live top := ⟨a.current, by simp [stacked]⟩
    have notTop : p ≠ top := by
      intro equality
      simp [equality, wellFormed.calling_top stacked] at old
    rw [installPcb_ebp, if_neg (numbered.pcbAddr_ne live topLive notTop), saveSched_ebp]
    exact frames.calling p child frame old

/-- A base shell that restarts overwrites its own `ebp` only, and it waits for
no child. -/
theorem restart (frames : Frames pcb a) (wellFormed : a.WellFormed)
    (numbered : Numbered a) {top : Int} {rest : List Int} {innerEbp : Word}
    (command : List Byte) (stacked : a.stack a.current = top :: rest) :
    Frames (installPcb pcb (pcbAddr top) innerEbp top true command) a := by
  apply frames.congr
  · intro p _
    exact installPcb_schedEbp _ _ _ _ _ _ _
  · intro p waits
    have live : a.Live p := by
      by_contra dead
      exact waits (wellFormed.calling_dead dead)
    have notTop : p ≠ top := by
      intro equality
      exact waits (equality ▸ wellFormed.calling_top stacked)
    rw [installPcb_ebp]
    exact if_neg (numbered.pcbAddr_ne live ⟨a.current, by simp [stacked]⟩ notTop)

theorem pop (frames : Frames pcb a) {under : Int} {rest : List Int}
    (childPcb : Word) :
    Frames
      (assign pcb (pcbAddr under) { pcb (pcbAddr under) with childPcb := childPcb })
      (a.pop under rest) where
  suspended := by
    intro p frame holds
    have old := frames.suspended p frame holds
    by_cases own : pcbAddr p = pcbAddr under
    · simpa [own] using old
    · simpa [own] using old
  calling := by
    intro p child frame holds
    have notUnder : p ≠ under := by
      intro equality
      simp [Sessions.pop, equality] at holds
    have old := frames.calling p child frame
      (by simpa [Sessions.pop, notUnder] using holds)
    by_cases own : pcbAddr p = pcbAddr under
    · simpa [own] using old
    · simpa [own] using old

theorem change (frames : Frames pcb a) (wellFormed : a.WellFormed)
    (numbered : Numbered a) {top t next : Int} {rest : List Int}
    {frameEbp : Word} (stacked : a.stack a.current = top :: rest)
    (own : currentPcb frameEbp = pcbAddr top) :
    Frames (saveSched pcb (pcbAddr top) frameEbp) (a.change top t next frameEbp) where
  suspended := by
    intro p frame holds
    have notNext : p ≠ next := by
      intro equality
      simp [Sessions.change, equality] at holds
    by_cases isTop : p = top
    · have saved : frameEbp = frame := by
        simpa [Sessions.change, notNext, isTop, isTop ▸ notNext] using holds
      rw [saveSched_schedEbp, isTop, if_pos rfl, ← saved]
      exact ⟨rfl, own⟩
    · have old : a.suspended p = some frame := by
        simpa [Sessions.change, notNext, isTop] using holds
      have live : a.Live p := by
        by_contra dead
        simp [wellFormed.suspended_dead dead] at old
      have topLive : a.Live top := ⟨a.current, by simp [stacked]⟩
      rw [saveSched_schedEbp, if_neg (numbered.pcbAddr_ne live topLive isTop)]
      exact frames.suspended p frame old
  calling := by
    intro p child frame holds
    rw [saveSched_ebp]
    exact frames.calling p child frame holds

end Frames

end LightweightOs
