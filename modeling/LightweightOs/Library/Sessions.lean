import Mathlib.Data.List.Chain
import Mathlib.Data.List.Nodup
import Mathlib.Logic.Function.Basic

/-!
# Stacks of activities, one of them running

Each terminal has a stack of activities, outermost first.  The outermost
activity of the current terminal runs.  An activity can start another on top of
itself and wait for it, finish and let the one under it go on, or lose the
processor to another terminal; whatever stops running leaves a frame to be
resumed from.  A well-formed session has exactly one frame for each activity
that does not run, and none for the one that does.
-/

universe u v w

/-- `suspended` holds the frames of activities that lost the processor,
`calling` the frames of those that wait for the activity they started. -/
structure Sessions (τ : Type u) (π : Type v) (φ : Type w) where
  stack : τ → List π
  current : τ
  suspended : π → Option φ
  calling : π → Option (π × φ)

namespace Sessions

variable {τ : Type u} {π : Type v} {φ : Type w}

def running (a : Sessions τ π φ) : Option π := (a.stack a.current).head?

def Live (a : Sessions τ π φ) (p : π) : Prop := ∃ terminal, p ∈ a.stack terminal

inductive Action (τ : Type u) (π : Type v) (φ : Type w) where
  | idle
  | start (child : π) (frame : φ)
  | finish
  | boot (terminal : τ) (base : π) (frame : φ)
  | switch (terminal : τ) (frame : φ)

section Step

variable [DecidableEq τ] [DecidableEq π]

def push (a : Sessions τ π φ) (top child : π) (rest : List π) (frame : φ) :
    Sessions τ π φ :=
  { a with
    stack := Function.update a.stack a.current (child :: top :: rest)
    calling := Function.update a.calling top (some (child, frame)) }

def pop (a : Sessions τ π φ) (under : π) (rest : List π) : Sessions τ π φ :=
  { a with
    stack := Function.update a.stack a.current (under :: rest)
    calling := Function.update a.calling under none }

def enter (a : Sessions τ π φ) (top : π) (terminal : τ) (base : π) (frame : φ) :
    Sessions τ π φ :=
  { a with
    stack := Function.update a.stack terminal [base]
    current := terminal
    suspended := Function.update a.suspended top (some frame) }

def change (a : Sessions τ π φ) (top : π) (terminal : τ) (next : π) (frame : φ) :
    Sessions τ π φ :=
  { a with
    current := terminal
    suspended :=
      Function.update (Function.update a.suspended top (some frame)) next none }

@[simp] theorem push_stack_self (a : Sessions τ π φ) (top child : π)
    (rest : List π) (frame : φ) :
    (a.push top child rest frame).stack a.current = child :: top :: rest := by
  simp [push]

theorem push_stack_of_ne {a : Sessions τ π φ} {terminal : τ} (top child : π)
    (rest : List π) (frame : φ) (different : terminal ≠ a.current) :
    (a.push top child rest frame).stack terminal = a.stack terminal := by
  simp [push, different]

@[simp] theorem pop_stack_self (a : Sessions τ π φ) (under : π) (rest : List π) :
    (a.pop under rest).stack a.current = under :: rest := by
  simp [pop]

theorem pop_stack_of_ne {a : Sessions τ π φ} {terminal : τ} (under : π)
    (rest : List π) (different : terminal ≠ a.current) :
    (a.pop under rest).stack terminal = a.stack terminal := by
  simp [pop, different]

@[simp] theorem enter_stack_self (a : Sessions τ π φ) (top : π) (terminal : τ)
    (base : π) (frame : φ) :
    (a.enter top terminal base frame).stack terminal = [base] := by
  simp [enter]

theorem enter_stack_of_ne {a : Sessions τ π φ} {terminal other : τ} (top base : π)
    (frame : φ) (different : other ≠ terminal) :
    (a.enter top terminal base frame).stack other = a.stack other := by
  simp [enter, different]

theorem live_push {a : Sessions τ π φ} {top child : π} {rest : List π}
    {frame : φ} (stacked : a.stack a.current = top :: rest) (p : π) :
    (a.push top child rest frame).Live p ↔ p = child ∨ a.Live p := by
  constructor
  · intro ⟨terminal, member⟩
    by_cases here : terminal = a.current
    · subst here
      rw [push_stack_self, List.mem_cons, ← stacked] at member
      exact member.imp_right fun inner => ⟨_, inner⟩
    · rw [push_stack_of_ne _ _ _ _ here] at member
      exact .inr ⟨terminal, member⟩
  · intro cases
    rcases cases with isChild | ⟨terminal, member⟩
    · exact ⟨a.current, by simp [isChild]⟩
    · by_cases here : terminal = a.current
      · refine ⟨a.current, ?_⟩
        rw [push_stack_self, ← stacked, ← here]
        exact List.mem_cons_of_mem _ member
      · exact ⟨terminal, by rwa [push_stack_of_ne _ _ _ _ here]⟩

theorem live_enter {a : Sessions τ π φ} {top base : π} {terminal : τ} {frame : φ}
    (unused : a.stack terminal = []) (p : π) :
    (a.enter top terminal base frame).Live p ↔ p = base ∨ a.Live p := by
  constructor
  · intro ⟨other, member⟩
    by_cases here : other = terminal
    · subst here
      exact .inl (by simpa using member)
    · rw [enter_stack_of_ne _ _ _ here] at member
      exact .inr ⟨other, member⟩
  · intro cases
    rcases cases with isBase | ⟨other, member⟩
    · exact ⟨terminal, by simp [isBase]⟩
    · have elsewhere : other ≠ terminal := by
        intro equality
        simp [equality, unused] at member
      exact ⟨other, by rwa [enter_stack_of_ne _ _ _ elsewhere]⟩

inductive Step (a : Sessions τ π φ) : Action τ π φ → Sessions τ π φ → Prop where
  | idle : Step a .idle a
  | start {top child : π} {rest : List π} {frame : φ}
      (stacked : a.stack a.current = top :: rest) (fresh : ¬a.Live child) :
      Step a (.start child frame) (a.push top child rest frame)
  | finish {top under : π} {rest : List π}
      (stacked : a.stack a.current = top :: under :: rest) :
      Step a .finish (a.pop under rest)
  | boot {top base : π} {rest : List π} {terminal : τ} {frame : φ}
      (stacked : a.stack a.current = top :: rest)
      (unused : a.stack terminal = []) (fresh : ¬a.Live base) :
      Step a (.boot terminal base frame) (a.enter top terminal base frame)
  | switch {top next : π} {rest others : List π} {terminal : τ} {frame : φ}
      (stacked : a.stack a.current = top :: rest)
      (waiting : a.stack terminal = next :: others)
      (different : terminal ≠ a.current) :
      Step a (.switch terminal frame) (a.change top terminal next frame)

end Step

structure WellFormed (a : Sessions τ π φ) : Prop where
  nodup : ∀ terminal, (a.stack terminal).Nodup
  disjoint : ∀ p terminal other,
    p ∈ a.stack terminal → p ∈ a.stack other → terminal = other
  nonempty : a.stack a.current ≠ []
  suspended_iff : ∀ p, a.suspended p ≠ none ↔
    ∃ terminal, terminal ≠ a.current ∧ p ∈ (a.stack terminal).head?
  calling_iff : ∀ p, a.calling p ≠ none ↔ ∃ terminal, p ∈ (a.stack terminal).tail
  pending : ∀ terminal, (a.stack terminal).IsChain fun outer inner =>
    ∃ frame, a.calling inner = some (outer, frame)

namespace WellFormed

variable {a : Sessions τ π φ} (wellFormed : a.WellFormed)

include wellFormed

theorem suspended_top {p : π} {terminal : τ} {rest : List π}
    (stacked : a.stack terminal = p :: rest) (different : terminal ≠ a.current) :
    ∃ frame, a.suspended p = some frame := by
  apply Option.ne_none_iff_exists'.mp
  exact (wellFormed.suspended_iff p).mpr ⟨terminal, different, by simp [stacked]⟩

theorem calling_under {p under : π} {terminal : τ} {rest : List π}
    (stacked : a.stack terminal = p :: under :: rest) :
    ∃ frame, a.calling under = some (p, frame) := by
  have chain := wellFormed.pending terminal
  rw [stacked] at chain
  exact (List.isChain_cons_cons.mp chain).1

theorem calling_top {p : π} {terminal : τ} {rest : List π}
    (stacked : a.stack terminal = p :: rest) : a.calling p = none := by
  by_contra waits
  obtain ⟨other, member⟩ := (wellFormed.calling_iff p).mp waits
  have same : other = terminal :=
    wellFormed.disjoint p other terminal (List.mem_of_mem_tail member)
      (by simp [stacked])
  have once := wellFormed.nodup terminal
  rw [same, stacked] at member
  rw [stacked] at once
  exact (List.nodup_cons.mp once).1 member

theorem suspended_current {p : π} (member : p ∈ a.stack a.current) :
    a.suspended p = none := by
  by_contra saved
  obtain ⟨terminal, different, top⟩ := (wellFormed.suspended_iff p).mp saved
  exact different (wellFormed.disjoint p _ _ (List.mem_of_mem_head? top) member)

theorem suspended_dead {p : π} (dead : ¬a.Live p) : a.suspended p = none := by
  by_contra saved
  obtain ⟨terminal, _, top⟩ := (wellFormed.suspended_iff p).mp saved
  exact dead ⟨terminal, List.mem_of_mem_head? top⟩

theorem calling_dead {p : π} (dead : ¬a.Live p) : a.calling p = none := by
  by_contra waits
  obtain ⟨terminal, member⟩ := (wellFormed.calling_iff p).mp waits
  exact dead ⟨terminal, List.mem_of_mem_tail member⟩

end WellFormed

section Preservation

variable [DecidableEq τ] [DecidableEq π] {a : Sessions τ π φ}

theorem WellFormed.push (wellFormed : a.WellFormed) {top child : π}
    {rest : List π} (frame : φ) (stacked : a.stack a.current = top :: rest)
    (fresh : ¬a.Live child) : (a.push top child rest frame).WellFormed where
  nodup := by
    intro terminal
    by_cases here : terminal = a.current
    · have once := wellFormed.nodup a.current
      have absent : child ∉ a.stack a.current := fun member => fresh ⟨_, member⟩
      rw [stacked] at once absent
      simpa [Sessions.push, here] using List.nodup_cons.mpr ⟨absent, once⟩
    · simpa [Sessions.push, here] using wellFormed.nodup terminal
  disjoint := by
    have old : ∀ p terminal,
        p ∈ (a.push top child rest frame).stack terminal →
          p ∈ a.stack terminal ∨ p = child ∧ terminal = a.current := by
      intro p terminal member
      by_cases here : terminal = a.current
      · simp only [Sessions.push, here, Function.update_self] at member
        rcases List.mem_cons.mp member with isChild | inner
        · exact .inr ⟨isChild, here⟩
        · exact .inl (by rwa [here, stacked])
      · exact .inl (by simpa [Sessions.push, here] using member)
    intro p terminal other first second
    rcases old p terminal first with inFirst | ⟨isChild, here⟩
    · rcases old p other second with inSecond | ⟨isChild, _⟩
      · exact wellFormed.disjoint p terminal other inFirst inSecond
      · exact (fresh ⟨terminal, isChild ▸ inFirst⟩).elim
    · rcases old p other second with inSecond | ⟨_, alsoHere⟩
      · exact (fresh ⟨other, isChild ▸ inSecond⟩).elim
      · rw [here, alsoHere]
  nonempty := by simp [Sessions.push]
  suspended_iff := by
    intro p
    have unchanged : ∀ terminal, terminal ≠ a.current →
        (a.push top child rest frame).stack terminal = a.stack terminal := by
      intro terminal different
      simp [Sessions.push, different]
    have before := wellFormed.suspended_iff p
    constructor
    · intro saved
      obtain ⟨terminal, different, member⟩ := before.mp saved
      exact ⟨terminal, different, by rwa [unchanged terminal different]⟩
    · intro ⟨terminal, different, member⟩
      apply before.mpr
      exact ⟨terminal, different, by rwa [unchanged terminal different] at member⟩
  calling_iff := by
    intro p
    by_cases caller : p = top
    · constructor
      · intro _
        exact ⟨a.current, by simp [Sessions.push, caller]⟩
      · intro _
        simp [Sessions.push, caller]
    · have before := wellFormed.calling_iff p
      have same : ∀ terminal,
          p ∈ ((a.push top child rest frame).stack terminal).tail ↔
            p ∈ (a.stack terminal).tail := by
        intro terminal
        by_cases here : terminal = a.current
        · simp [Sessions.push, here, stacked, caller]
        · simp [Sessions.push, here]
      have kept : (a.push top child rest frame).calling p = a.calling p := by
        simp [Sessions.push, caller]
      rw [kept, before]
      exact exists_congr fun terminal => (same terminal).symm
  pending := by
    intro terminal
    by_cases here : terminal = a.current
    · have chain := wellFormed.pending a.current
      have once := wellFormed.nodup a.current
      rw [stacked] at chain once
      have below := (List.nodup_cons.mp once).1
      subst here
      simp only [Sessions.push, Function.update_self]
      refine .cons_cons ⟨frame, by simp⟩ ?_
      refine chain.imp_of_mem_tail_imp ?_
      intro outer inner _ innerMem ⟨held, waits⟩
      have notTop : inner ≠ top := by
        intro equality
        exact below (equality ▸ innerMem)
      exact ⟨held, by simpa [notTop] using waits⟩
    · have chain := wellFormed.pending terminal
      simp only [Sessions.push, Function.update_of_ne here]
      refine chain.imp_of_mem_imp ?_
      intro outer inner _ innerMem ⟨held, waits⟩
      have notTop : inner ≠ top := by
        intro equality
        exact here (wellFormed.disjoint inner terminal a.current innerMem
          (by simp [stacked, equality]))
      exact ⟨held, by simpa [notTop] using waits⟩

theorem WellFormed.pop (wellFormed : a.WellFormed) {top under : π}
    {rest : List π} (stacked : a.stack a.current = top :: under :: rest) :
    (a.pop under rest).WellFormed where
  nodup := by
    intro terminal
    by_cases here : terminal = a.current
    · have once := wellFormed.nodup a.current
      rw [stacked] at once
      simpa [Sessions.pop, here] using (List.nodup_cons.mp once).2
    · simpa [Sessions.pop, here] using wellFormed.nodup terminal
  disjoint := by
    have old : ∀ p terminal,
        p ∈ (a.pop under rest).stack terminal → p ∈ a.stack terminal := by
      intro p terminal member
      by_cases here : terminal = a.current
      · simp only [Sessions.pop, here, Function.update_self] at member
        rw [here, stacked]
        exact List.mem_cons_of_mem _ member
      · simpa [Sessions.pop, here] using member
    intro p terminal other first second
    exact wellFormed.disjoint p terminal other (old p terminal first)
      (old p other second)
  nonempty := by simp [Sessions.pop]
  suspended_iff := by
    intro p
    have same : ∀ terminal,
        (terminal ≠ a.current ∧ p ∈ ((a.pop under rest).stack terminal).head?) ↔
          (terminal ≠ a.current ∧ p ∈ (a.stack terminal).head?) := by
      intro terminal
      apply and_congr_right
      intro different
      simp [Sessions.pop, different]
    exact (wellFormed.suspended_iff p).trans
      (exists_congr fun terminal => (same terminal).symm)
  calling_iff := by
    intro p
    have once := wellFormed.nodup a.current
    rw [stacked] at once
    have below := (List.nodup_cons.mp (List.nodup_cons.mp once).2).1
    by_cases resumed : p = under
    · constructor
      · intro waits
        exact (waits (by simp [Sessions.pop, resumed])).elim
      · intro ⟨terminal, member⟩
        by_cases here : terminal = a.current
        · simp only [Sessions.pop, here, Function.update_self,
            List.tail_cons] at member
          exact (below (resumed ▸ member)).elim
        · simp only [Sessions.pop, Function.update_of_ne here] at member
          exact (here (wellFormed.disjoint p _ _ (List.mem_of_mem_tail member)
            (by simp [stacked, resumed]))).elim
    · have same : ∀ terminal,
          p ∈ ((a.pop under rest).stack terminal).tail ↔
            p ∈ (a.stack terminal).tail := by
        intro terminal
        by_cases here : terminal = a.current
        · simp [Sessions.pop, here, stacked, resumed]
        · simp [Sessions.pop, here]
      have kept : (a.pop under rest).calling p = a.calling p := by
        simp [Sessions.pop, resumed]
      rw [kept, wellFormed.calling_iff p]
      exact exists_congr fun terminal => (same terminal).symm
  pending := by
    intro terminal
    by_cases here : terminal = a.current
    · have chain := wellFormed.pending a.current
      have once := wellFormed.nodup a.current
      rw [stacked] at chain once
      have below := (List.nodup_cons.mp (List.nodup_cons.mp once).2).1
      subst here
      simp only [Sessions.pop, Function.update_self]
      refine (List.isChain_cons_cons.mp chain).2.imp_of_mem_tail_imp ?_
      intro outer inner _ innerMem ⟨held, waits⟩
      have notUnder : inner ≠ under := by
        intro equality
        exact below (equality ▸ innerMem)
      exact ⟨held, by simpa [notUnder] using waits⟩
    · have chain := wellFormed.pending terminal
      simp only [Sessions.pop, Function.update_of_ne here]
      refine chain.imp_of_mem_imp ?_
      intro outer inner _ innerMem ⟨held, waits⟩
      have notUnder : inner ≠ under := by
        intro equality
        exact here (wellFormed.disjoint inner terminal a.current innerMem
          (by simp [stacked, equality]))
      exact ⟨held, by simpa [notUnder] using waits⟩

theorem WellFormed.enter (wellFormed : a.WellFormed) {top base : π}
    {rest : List π} {terminal : τ} (frame : φ)
    (stacked : a.stack a.current = top :: rest)
    (unused : a.stack terminal = []) (fresh : ¬a.Live base) :
    (a.enter top terminal base frame).WellFormed where
  nodup := by
    intro other
    by_cases here : other = terminal
    · simp [Sessions.enter, here]
    · simpa [Sessions.enter, here] using wellFormed.nodup other
  disjoint := by
    have old : ∀ p other, p ∈ (a.enter top terminal base frame).stack other →
        p ∈ a.stack other ∨ p = base ∧ other = terminal := by
      intro p other member
      by_cases here : other = terminal
      · exact .inr ⟨by simpa [Sessions.enter, here] using member, here⟩
      · exact .inl (by simpa [Sessions.enter, here] using member)
    intro p first second inFirst inSecond
    rcases old p first inFirst with oldFirst | ⟨isBase, here⟩
    · rcases old p second inSecond with oldSecond | ⟨isBase, _⟩
      · exact wellFormed.disjoint p first second oldFirst oldSecond
      · exact (fresh ⟨first, isBase ▸ oldFirst⟩).elim
    · rcases old p second inSecond with oldSecond | ⟨_, alsoHere⟩
      · exact (fresh ⟨second, isBase ▸ oldSecond⟩).elim
      · rw [here, alsoHere]
  nonempty := by simp [Sessions.enter]
  suspended_iff := by
    have away : a.current ≠ terminal := by
      intro equality
      simp [equality, unused] at stacked
    intro p
    by_cases saved : p = top
    · constructor
      · intro _
        exact ⟨a.current, away, by simp [Sessions.enter, away, stacked, saved]⟩
      · intro _
        simp [Sessions.enter, saved]
    · have kept : (a.enter top terminal base frame).suspended p =
          a.suspended p := by
        simp [Sessions.enter, saved]
      rw [kept, wellFormed.suspended_iff p]
      constructor
      · intro ⟨other, _, member⟩
        have elsewhere : other ≠ terminal := by
          intro equality
          simp [equality, unused] at member
        exact ⟨other, elsewhere, by simpa [Sessions.enter, elsewhere] using member⟩
      · intro ⟨other, elsewhere, member⟩
        have elsewhere : other ≠ terminal := elsewhere
        have member : p ∈ (a.stack other).head? := by
          simpa [Sessions.enter, elsewhere] using member
        refine ⟨other, ?_, member⟩
        intro equality
        rw [equality, stacked] at member
        simp at member
        exact saved member.symm
  calling_iff := by
    intro p
    have same : ∀ other,
        p ∈ ((a.enter top terminal base frame).stack other).tail ↔
          p ∈ (a.stack other).tail := by
      intro other
      by_cases here : other = terminal
      · simp [Sessions.enter, here, unused]
      · simp [Sessions.enter, here]
    exact (wellFormed.calling_iff p).trans
      (exists_congr fun other => (same other).symm)
  pending := by
    intro other
    by_cases here : other = terminal
    · simp [Sessions.enter, here]
    · simpa [Sessions.enter, here] using wellFormed.pending other

omit [DecidableEq τ] in
theorem WellFormed.change (wellFormed : a.WellFormed) {top next : π}
    {rest others : List π} {terminal : τ} (frame : φ)
    (stacked : a.stack a.current = top :: rest)
    (waiting : a.stack terminal = next :: others)
    (different : terminal ≠ a.current) :
    (a.change top terminal next frame).WellFormed where
  nodup := wellFormed.nodup
  disjoint := wellFormed.disjoint
  nonempty := by simp [Sessions.change, waiting]
  suspended_iff := by
    have distinct : top ≠ next := by
      intro equality
      exact different (wellFormed.disjoint next terminal a.current
        (by simp [waiting]) (by simp [stacked, equality]))
    intro p
    by_cases resumed : p = next
    · constructor
      · intro saved
        exact (saved (by simp [Sessions.change, resumed])).elim
      · intro ⟨other, elsewhere, member⟩
        exact (elsewhere (wellFormed.disjoint p other terminal
          (List.mem_of_mem_head? member) (by simp [waiting, resumed]))).elim
    · by_cases saved : p = top
      · constructor
        · intro _
          exact ⟨a.current, different.symm, by simp [Sessions.change, stacked, saved]⟩
        · intro _
          simp [Sessions.change, saved, distinct]
      · have kept : (a.change top terminal next frame).suspended p =
            a.suspended p := by
          simp [Sessions.change, saved, resumed]
        rw [kept, wellFormed.suspended_iff p]
        constructor
        · intro ⟨other, _, member⟩
          refine ⟨other, ?_, member⟩
          intro equality
          have equality : other = terminal := equality
          rw [equality, waiting] at member
          exact resumed (by simpa [eq_comm] using member)
        · intro ⟨other, _, member⟩
          refine ⟨other, ?_, member⟩
          intro equality
          have member : p ∈ (a.stack other).head? := member
          rw [equality, stacked] at member
          exact saved (by simpa [eq_comm] using member)
  calling_iff := wellFormed.calling_iff
  pending := wellFormed.pending

theorem WellFormed.live_pop (wellFormed : a.WellFormed) {top under : π}
    {rest : List π} (stacked : a.stack a.current = top :: under :: rest) (p : π) :
    (a.pop under rest).Live p ↔ p ≠ top ∧ a.Live p := by
  have once := wellFormed.nodup a.current
  rw [stacked] at once
  have absent := (List.nodup_cons.mp once).1
  constructor
  · intro ⟨terminal, member⟩
    by_cases here : terminal = a.current
    · subst here
      rw [pop_stack_self] at member
      refine ⟨fun equality => absent (equality ▸ member), a.current, ?_⟩
      rw [stacked]
      exact List.mem_cons_of_mem _ member
    · rw [pop_stack_of_ne _ _ here] at member
      refine ⟨?_, terminal, member⟩
      intro equality
      exact here (wellFormed.disjoint p _ _ member (by simp [stacked, equality]))
  · intro ⟨notTop, terminal, member⟩
    by_cases here : terminal = a.current
    · refine ⟨a.current, ?_⟩
      rw [here, stacked] at member
      rw [pop_stack_self]
      exact (List.mem_cons.mp member).resolve_left notTop
    · exact ⟨terminal, by rwa [pop_stack_of_ne _ _ here]⟩

theorem WellFormed.step {b : Sessions τ π φ} {action : Action τ π φ}
    (wellFormed : a.WellFormed) (step : Step a action b) : b.WellFormed := by
  cases step with
  | idle => exact wellFormed
  | start stacked fresh => exact wellFormed.push _ stacked fresh
  | finish stacked => exact wellFormed.pop stacked
  | boot stacked unused fresh => exact wellFormed.enter _ stacked unused fresh
  | switch stacked waiting different =>
      exact wellFormed.change _ stacked waiting different

/-- The frame an action saves for an activity that loses the processor. -/
def Action.suspends : Action τ π φ → Option φ
  | .boot _ _ frame => some frame
  | .switch _ frame => some frame
  | _ => none

/-- The activity an action starts, with the frame its caller waits in. -/
def Action.calls : Action τ π φ → Option (π × φ)
  | .start child frame => some (child, frame)
  | _ => none

/-- A saved frame is older than the step, and its owner did not run in it, or
the step saved it for the activity that ran. -/
theorem Step.suspended {b : Sessions τ π φ} {action : Action τ π φ}
    (wellFormed : a.WellFormed) (step : Step a action b) {p : π} {frame : φ}
    (saved : b.suspended p = some frame) :
    a.suspended p = some frame ∧ a.running ≠ some p ∨
      a.running = some p ∧ action.suspends = some frame := by
  have older : a.suspended p = some frame →
      a.suspended p = some frame ∧ a.running ≠ some p := by
    intro held
    refine ⟨held, ?_⟩
    intro runs
    have none := wellFormed.suspended_current (List.mem_of_mem_head? runs)
    simp [none] at held
  cases step with
  | idle => exact .inl (older saved)
  | start => exact .inl (older saved)
  | finish => exact .inl (older saved)
  | @boot top _ _ _ _ stacked =>
      by_cases ran : p = top
      · exact .inr ⟨by simp [running, stacked, ran],
          by simpa [enter, ran, Action.suspends] using saved⟩
      · exact .inl (older (by simpa [enter, ran] using saved))
  | @switch top next _ _ _ _ stacked =>
      by_cases resumed : p = next
      · simp [change, resumed] at saved
      · by_cases ran : p = top
        · have distinct : top ≠ next := fun equality => resumed (ran.trans equality)
          exact .inr ⟨by simp [running, stacked, ran],
            by simpa [change, ran, distinct, Action.suspends] using saved⟩
        · exact .inl (older (by simpa [change, resumed, ran] using saved))

/-- A pending call is older than the step, and the caller did not run in it, or
the step made it for the activity that ran. -/
theorem Step.calling {b : Sessions τ π φ} {action : Action τ π φ}
    (wellFormed : a.WellFormed) (step : Step a action b) {p : π} {call : π × φ}
    (waits : b.calling p = some call) :
    a.calling p = some call ∧ a.running ≠ some p ∨
      a.running = some p ∧ action.calls = some call := by
  have older : a.calling p = some call →
      a.calling p = some call ∧ a.running ≠ some p := by
    intro held
    refine ⟨held, ?_⟩
    intro runs
    obtain ⟨rest, stacked⟩ := List.head?_eq_some_iff.mp runs
    simp [wellFormed.calling_top stacked] at held
  cases step with
  | idle => exact .inl (older waits)
  | boot => exact .inl (older waits)
  | switch => exact .inl (older waits)
  | @start top _ _ _ stacked =>
      by_cases ran : p = top
      · exact .inr ⟨by simp [running, stacked, ran],
          by simpa [push, ran, Action.calls] using waits⟩
      · exact .inl (older (by simpa [push, ran] using waits))
  | @finish _ under _ stacked =>
      by_cases resumed : p = under
      · simp [pop, resumed] at waits
      · exact .inl (older (by simpa [pop, resumed] using waits))

end Preservation

end Sessions
