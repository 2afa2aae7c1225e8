import LightweightOs.System

/-!
# The process tree

In every state of a run from the first shell the blocks of each booted terminal
form one chain from its base shell to the process on top, the chains together
hold exactly the live processes, and both helper loops end on them.
-/

namespace LightweightOs

open Transition

/-- `chain t` lists the processes of terminal `t`, base shell first. -/
structure ProcessTree (s : Kernel) (chain : Int → List Int) : Prop where
  booted : ∀ t, 1 ≤ t → t ≤ 3 →
    (s.table.booted t ↔ ∃ rest, chain t = t :: rest)
  unbooted : ∀ t, ¬(1 ≤ t ∧ t ≤ 3 ∧ s.table.booted t) → chain t = []
  children : ∀ t, (chain t).IsChain fun parent child =>
    (s.pcb (pcbAddr parent)).childPcb = pcbAddr child ∧
      (s.pcb (pcbAddr child)).parentPcb = pcbAddr parent
  last : ∀ t, ∀ p ∈ (chain t).getLast?, (s.pcb (pcbAddr p)).childPcb = 0
  root : ∀ t, ∀ p ∈ chain t, ((s.pcb (pcbAddr p)).parentPcb = 0 ↔ p = t)
  distinct : ∀ t, ((chain t).map pcbAddr).Nodup
  disjoint : ∀ t u, t ≠ u → ∀ p ∈ chain t, ∀ q ∈ chain u, pcbAddr p ≠ pcbAddr q
  named : ∀ t, ∀ p ∈ chain t,
    1 ≤ p ∧ p ≤ 6 ∧ (s.pcb (pcbAddr p)).processId = p
  live : ∀ p, 1 ≤ p → p ≤ 6 → (s.table.live p ↔ ∃ t, p ∈ chain t)
  running : (chain s.curProcess).getLast? = some s.runningPid ∧
    currentPcb s.esp = pcbAddr s.runningPid
  top : ∀ t, ∀ p ∈ chain t,
    getTopProcessPcb s.pcb (pcbAddr p) = (chain t).getLast?.map pcbAddr
  base : ∀ t, ∀ p ∈ chain t,
    getBaseProcessPcb s.pcb (pcbAddr p) = some (pcbAddr t)

namespace Represents

variable {a : Session} {s : Kernel}

/-- A process that is not the base shell of its terminal has its parent under
it. -/
theorem parentPcb_eq_zero (represents : Represents s a) {t p : Int}
    (member : p ∈ a.stack t) : (s.pcb (pcbAddr p)).parentPcb = 0 ↔ p = t := by
  have linked := represents.links.linked t
  have last := represents.numbered.base t (List.ne_nil_of_mem member)
  constructor
  · intro null
    obtain ⟨before, after, split⟩ := List.append_of_mem member
    cases after with
    | nil => simpa [split] using last
    | cons under inner =>
        have links := linked.links
        rw [split, List.map_append, List.map_cons, List.map_cons] at links
        have here := (List.isChain_append.mp links).2.1
        have up := (List.isChain_cons_cons.mp here).1.1
        have live : a.Live under := ⟨t, by simp [split]⟩
        have range := represents.numbered.range live
        exact (pcbAddr_ne_zero (by omega) (by omega) (up.symm.trans null)).elim
  · intro isBase
    apply linked.innermost
    rw [List.getLast?_map, last, isBase]
    rfl

theorem processTree (represents : Represents s a) :
    ProcessTree s fun t => (a.stack t).reverse where
  booted := by
    intro t low high
    rw [represents.accounts.booted t low high]
    constructor
    · intro nonempty
      have last := represents.numbered.base t nonempty
      rw [← List.head?_reverse] at last
      obtain ⟨rest, isCons⟩ := List.head?_eq_some_iff.mp last
      exact ⟨rest, isCons⟩
    · intro ⟨rest, isCons⟩ empty
      simp [empty] at isCons
  unbooted := by
    intro t unbooted
    by_contra nonempty
    have stack : a.stack t ≠ [] := by simpa using nonempty
    have terminal := represents.numbered.terminal t stack
    exact unbooted ⟨terminal.1, terminal.2,
      (represents.accounts.booted t terminal.1 terminal.2).mpr stack⟩
  children := by
    intro t
    have links := (represents.links.linked t).links
    rw [List.isChain_map] at links
    rw [List.isChain_reverse]
    exact links.imp fun _ _ both => both.symm
  last := by
    intro t p member
    have first : p ∈ (a.stack t).head? := by simpa using member
    apply (represents.links.linked t).outermost
    rw [List.head?_map, Option.mem_def.mp first]
    rfl
  root := fun t p member =>
    represents.parentPcb_eq_zero (List.mem_reverse.mp member)
  distinct := by
    intro t
    rw [List.map_reverse, List.nodup_reverse]
    apply List.Nodup.map_on _ (represents.wellFormed.nodup t)
    intro p first q second equality
    exact represents.numbered.pcbAddr_inj ⟨t, first⟩ ⟨t, second⟩ equality
  disjoint := by
    intro t u different p first q second
    rw [List.mem_reverse] at first second
    apply represents.numbered.pcbAddr_ne ⟨t, first⟩ ⟨u, second⟩
    intro same
    exact different (represents.wellFormed.disjoint p t u first (same ▸ second))
  named := by
    intro t p member
    have live : a.Live p := ⟨t, List.mem_reverse.mp member⟩
    have range := represents.numbered.range live
    exact ⟨range.1, range.2, represents.links.named p live⟩
  live := by
    intro p low high
    rw [represents.accounts.slots p low high]
    simp [Sessions.Live]
  running := by
    obtain ⟨p, rest, stacked, runs⟩ := represents.stacked
    have own : p = s.runningPid := by
      simpa [Sessions.running, stacked] using represents.runningPid
    rw [represents.current, ← own]
    exact ⟨by simp [stacked], runs.onStack⟩
  top := by
    intro t p member
    have inside := List.mem_reverse.mp member
    obtain ⟨top, rest, stacked⟩ :=
      List.exists_cons_of_ne_nil (List.ne_nil_of_mem inside)
    rw [represents.getTopProcessPcb inside stacked]
    simp [stacked]
  base := fun t p member =>
    represents.getBaseProcessPcb (List.mem_reverse.mp member)

end Represents

theorem process_tree {start s : Kernel} {history : List Record}
    (booted : Booted start) (run : Run Step start history s) :
    ∃ chain, ProcessTree s chain := by
  obtain ⟨_, _, represents⟩ := booted.run run
  exact ⟨_, represents.processTree⟩

theorem process_tree_sampleTour :
    ∃ history final, Run Step sampleStart history final ∧ history.length = 6 ∧
      ∃ chain, ProcessTree final chain := by
  obtain ⟨history, final, run, length⟩ := sampleTour_run
  exact ⟨history, final, run, length, process_tree sampleStart_booted run⟩

end LightweightOs
