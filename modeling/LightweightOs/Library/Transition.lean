import Mathlib.Data.List.Forall2
import Mathlib.Logic.Relation

/-!
# Runs of labelled transition systems

A system is a relation `step state event next`.  Runs record the events they
take, oldest first.  Three rules carry every whole-run argument of a
development: an invariant that one step preserves holds after any run; a
system whose events are restricted by a guard is an instance of the same rule;
and a forward simulation turns a concrete run into an abstract one.
-/

namespace Transition

variable {σ ε α : Type*}

/-- `Run step start events finish` holds when the events, oldest first, lead
from `start` to `finish`. -/
inductive Run (step : σ → ε → σ → Prop) (start : σ) : List ε → σ → Prop where
  | nil : Run step start [] start
  | snoc {events : List ε} {middle finish : σ} {event : ε} :
      Run step start events middle →
      step middle event finish →
      Run step start (events ++ [event]) finish

/-- The part of a system whose steps all meet a condition on the event and
the state before it. -/
def Guarded (allowed : σ → ε → Prop) (step : σ → ε → σ → Prop)
    (state : σ) (event : ε) (next : σ) : Prop :=
  allowed state event ∧ step state event next

theorem Run.invariant
    {step : σ → ε → σ → Prop} {Invariant : σ → Prop}
    (preserved : ∀ state event next,
      Invariant state → step state event next → Invariant next)
    {start finish : σ} {events : List ε}
    (run : Run step start events finish) (initially : Invariant start) :
    Invariant finish := by
  induction run with
  | nil => exact initially
  | snoc _ taken held => exact preserved _ _ _ held taken

theorem Run.map
    {step weaker : σ → ε → σ → Prop}
    (implies : ∀ state event next,
      step state event next → weaker state event next)
    {start finish : σ} {events : List ε}
    (run : Run step start events finish) : Run weaker start events finish := by
  induction run with
  | nil => exact .nil
  | snoc _ taken earlier => exact earlier.snoc (implies _ _ _ taken)

theorem Run.unguarded
    {allowed : σ → ε → Prop} {step : σ → ε → σ → Prop}
    {start finish : σ} {events : List ε}
    (run : Run (Guarded allowed step) start events finish) :
    Run step start events finish :=
  run.map fun _ _ _ taken => taken.2

theorem Run.guarded
    {allowed : σ → ε → Prop} {step : σ → ε → σ → Prop}
    {start finish : σ} {events : List ε} (run : Run step start events finish)
    (permitted : ∀ event ∈ events, ∀ state, allowed state event) :
    Run (Guarded allowed step) start events finish := by
  induction run with
  | nil => exact .nil
  | @snoc _ _ _ last _ taken earlier =>
      have before := earlier fun event member => permitted event (by simp [member])
      exact before.snoc ⟨permitted last (by simp) _, taken⟩

theorem Run.trans
    {step : σ → ε → σ → Prop} {start middle finish : σ}
    {earlier later : List ε}
    (first : Run step start earlier middle)
    (second : Run step middle later finish) :
    Run step start (earlier ++ later) finish := by
  induction second with
  | nil => simpa using first
  | snoc _ taken extended =>
      rw [← List.append_assoc]
      exact extended.snoc taken

theorem Run.split
    {step : σ → ε → σ → Prop} {start finish : σ} {earlier later : List ε}
    (run : Run step start (earlier ++ later) finish) :
    ∃ middle, Run step start earlier middle ∧ Run step middle later finish := by
  generalize isHistory : earlier ++ later = history at run
  induction run generalizing later with
  | nil =>
      obtain ⟨rfl, rfl⟩ := List.append_eq_nil_iff.mp isHistory
      exact ⟨start, .nil, .nil⟩
  | @snoc events _ finish last first taken induction =>
      rcases List.eq_nil_or_concat later with rfl | ⟨before, other, rfl⟩
      · rw [List.append_nil] at isHistory
        exact ⟨finish, isHistory ▸ first.snoc taken, .nil⟩
      · rw [List.concat_eq_append] at isHistory ⊢
        rw [← List.append_assoc] at isHistory
        obtain ⟨isEvents, rfl⟩ := List.append_singleton_inj.mp isHistory
        obtain ⟨middle, toMiddle, onward⟩ := induction isEvents
        exact ⟨middle, toMiddle, onward.snoc taken⟩

theorem Run.singleton
    {step : σ → ε → σ → Prop} {start finish : σ} {event : ε}
    (run : Run step start [event] finish) : step start event finish := by
  generalize isHistory : [event] = history at run
  cases run with
  | nil => cases isHistory
  | @snoc events _ _ last first taken =>
      obtain ⟨isEmpty, rfl⟩ := List.append_singleton_inj.mp
        (show [] ++ [event] = events ++ [last] from isHistory)
      subst isEmpty
      generalize isNil : ([] : List _) = nothing at first
      cases first with
      | nil => exact taken
      | snoc => simp at isNil

theorem Run.head
    {step : σ → ε → σ → Prop} {start finish : σ} {event : ε} {later : List ε}
    (run : Run step start (event :: later) finish) :
    ∃ next, step start event next ∧ Run step next later finish := by
  obtain ⟨next, first, rest⟩ := @Run.split _ _ step start finish [event] later run
  exact ⟨next, first.singleton, rest⟩

/-- What only certain events can end holds until one of them comes. -/
theorem Run.unless
    {step : σ → ε → σ → Prop} {Holds : σ → Prop} {breaks : ε → Prop}
    (kept : ∀ state event next,
      Holds state → step state event next → breaks event ∨ Holds next)
    {start finish : σ} {events : List ε}
    (run : Run step start events finish) (initially : Holds start) :
    (∃ event ∈ events, breaks event) ∨ Holds finish := by
  induction run with
  | nil => exact .inr initially
  | @snoc _ _ _ last _ taken earlier =>
      rcases earlier with ⟨event, member, broken⟩ | held
      · exact .inl ⟨event, by simp [member], broken⟩
      · rcases kept _ _ _ held taken with broken | still
        · exact .inl ⟨last, by simp, broken⟩
        · exact .inr still

/-- Forward simulation: when related states step to related states, every
concrete run is matched by an abstract run of the same events that ends in a
related state. -/
theorem Run.simulate
    {step : σ → ε → σ → Prop} {abstractStep : α → ε → α → Prop}
    {Related : σ → α → Prop}
    (matched : ∀ state event next abstract,
      Related state abstract → step state event next →
        ∃ abstract', abstractStep abstract event abstract' ∧
          Related next abstract')
    {start finish : σ} {events : List ε} {abstract : α}
    (run : Run step start events finish) (initially : Related start abstract) :
    ∃ abstract', Run abstractStep abstract events abstract' ∧
      Related finish abstract' := by
  induction run with
  | nil => exact ⟨abstract, .nil, initially⟩
  | snoc _ taken earlier =>
      obtain ⟨middle, abstractRun, related⟩ := earlier
      obtain ⟨next, abstractTaken, nextRelated⟩ :=
        matched _ _ _ _ related taken
      exact ⟨next, abstractRun.snoc abstractTaken, nextRelated⟩

/-- A copy that is given only some of the inputs of a run, or inputs like them, stays
related to it when it does so for the inputs of one step. -/
theorem Run.follow {κ : Type*} {step : σ → ε → σ → Prop} {Related : σ → α → Prop}
    {inputs : ε → List κ} {alike : κ → κ → Prop} {advance : α → κ → α}
    (followed : ∀ state event next copy given,
      Related state copy → step state event next →
        List.Forall₂ alike given (inputs event) → Related next (given.foldl advance copy))
    {start finish : σ} {events : List ε} {copy : α}
    (run : Run step start events finish) (initially : Related start copy) {given : List κ}
    (same : List.Forall₂ alike given (events.flatMap inputs)) :
    Related finish (given.foldl advance copy) := by
  induction run generalizing given with
  | nil =>
      cases same
      exact initially
  | @snoc events _ _ last _ taken earlier =>
      rw [List.flatMap_append, List.flatMap_singleton] at same
      have before := List.forall₂_take_append _ _ _ same
      have after := List.forall₂_drop_append _ _ _ same
      have onward := followed _ _ _ _ _ (earlier before) taken after
      rwa [← List.foldl_append, List.take_append_drop] at onward

/-- What holds of every event and the history before it, when one event is added. -/
theorem forall_history_concat {P : List ε → ε → Prop} {events : List ε} {last : ε} :
    (∀ earlier event later, events ++ [last] = earlier ++ event :: later →
        P earlier event) ↔
      (∀ earlier event later, events = earlier ++ event :: later → P earlier event) ∧
        P events last := by
  constructor
  · intro all
    constructor
    · intro earlier event later isHistory
      apply all earlier event (later ++ [last])
      rw [isHistory, List.append_assoc, List.cons_append]
    · exact all events last [] rfl
  · rintro ⟨before, atLast⟩ earlier event later isHistory
    rcases List.eq_nil_or_concat later with rfl | ⟨rest, other, rfl⟩
    · obtain ⟨rfl, rfl⟩ := List.append_singleton_inj.mp isHistory
      exact atLast
    · rw [List.concat_eq_append, ← List.cons_append, ← List.append_assoc] at isHistory
      obtain ⟨isEvents, _⟩ := List.append_singleton_inj.mp isHistory
      exact before earlier event rest isEvents

/-- Some event of a run is a write, and every later one is quiet. -/
def LastWrite (writes quiet : ε → Prop) (events : List ε) : Prop :=
  ∃ earlier event later, events = earlier ++ event :: later ∧ writes event ∧
    ∀ other ∈ later, quiet other

/-- What a state remembers and the start does not was written in the run, and
nothing that came later disturbed it. -/
theorem Run.lastWrite
    {step : σ → ε → σ → Prop} {remembers : σ → Prop} {writes quiet : ε → Prop}
    (source : ∀ state event next, step state event next → remembers next →
      remembers state ∧ quiet event ∨ writes event)
    {start finish : σ} {events : List ε}
    (run : Run step start events finish) (initially : ¬remembers start)
    (eventually : remembers finish) : LastWrite writes quiet events := by
  induction run with
  | nil => exact (initially eventually).elim
  | @snoc _ _ _ last _ taken earlier =>
      rcases source _ _ _ taken eventually with ⟨before, still⟩ | written
      · obtain ⟨first, event, later, rfl, wrote, quietLater⟩ := earlier before
        refine ⟨first, event, later ++ [last], by simp, wrote, ?_⟩
        intro other member
        rcases List.mem_append.mp member with inLater | isLast
        · exact quietLater other inLater
        · rw [List.mem_singleton.mp isLast]
          exact still
      · exact ⟨_, _, [], rfl, written, by simp⟩

section LastWrite

variable {writes quiet : ε → Prop} {events : List ε} {last : ε}

theorem lastWrite_concat (wrote : writes last) : LastWrite writes quiet (events ++ [last]) :=
  ⟨events, last, [], rfl, wrote, by simp⟩

theorem LastWrite.concat (written : LastWrite writes quiet events) (still : quiet last) :
    LastWrite writes quiet (events ++ [last]) := by
  obtain ⟨earlier, event, later, rfl, wrote, quietLater⟩ := written
  refine ⟨earlier, event, later ++ [last], by simp, wrote, ?_⟩
  intro other member
  rcases List.mem_append.mp member with inLater | isLast
  · exact quietLater other inLater
  · rw [List.mem_singleton.mp isLast]
    exact still

theorem LastWrite.concat_cases (written : LastWrite writes quiet (events ++ [last])) :
    writes last ∨ LastWrite writes quiet events ∧ quiet last := by
  obtain ⟨earlier, event, later, isHistory, wrote, quietLater⟩ := written
  rcases List.eq_nil_or_concat later with rfl | ⟨rest, other, rfl⟩
  · obtain ⟨_, rfl⟩ := List.append_singleton_inj.mp isHistory
    exact .inl wrote
  · rw [List.concat_eq_append] at isHistory quietLater
    rw [← List.cons_append, ← List.append_assoc] at isHistory
    obtain ⟨rfl, rfl⟩ := List.append_singleton_inj.mp isHistory
    right
    refine ⟨⟨earlier, event, rest, rfl, wrote, ?_⟩, quietLater last (by simp)⟩
    intro between member
    exact quietLater between (by simp [member])

theorem lastWrite_concat_iff :
    LastWrite writes quiet (events ++ [last]) ↔
      writes last ∨ LastWrite writes quiet events ∧ quiet last := by
  constructor
  · intro written
    exact written.concat_cases
  · rintro (wrote | ⟨earlier, still⟩)
    · exact lastWrite_concat wrote
    · exact earlier.concat still

end LastWrite

/-- Take the steps that a list of commands asks for, if the system can. -/
def replay {κ : Type*} (advance : σ → κ → Option (ε × σ)) (state : σ) :
    List κ → Option (List ε × σ)
  | [] => some ([], state)
  | command :: rest =>
      match advance state command with
      | none => none
      | some (event, next) =>
          (replay advance next rest).map fun (events, finish) => (event :: events, finish)

theorem replay_run {κ : Type*} {step : σ → ε → σ → Prop}
    {advance : σ → κ → Option (ε × σ)}
    (sound : ∀ state command event next,
      advance state command = some (event, next) → step state event next)
    {start finish : σ} {commands : List κ} {events : List ε}
    (replays : replay advance start commands = some (events, finish)) :
    Run step start events finish := by
  induction commands generalizing start events with
  | nil =>
      cases replays
      exact .nil
  | cons command rest induction =>
      simp only [replay] at replays
      cases advanced : advance start command with
      | none => simp [advanced] at replays
      | some result =>
          obtain ⟨event, next⟩ := result
          simp only [advanced] at replays
          obtain ⟨⟨later, last⟩, continued, isResult⟩ := Option.map_eq_some_iff.mp replays
          cases isResult
          have first : Run step start [event] next :=
            @Run.snoc _ _ _ _ [] _ _ _ .nil (sound _ _ _ _ advanced)
          exact first.trans (induction continued)

theorem exists_run_of_replay {κ : Type*} {step : σ → ε → σ → Prop}
    {advance : σ → κ → Option (ε × σ)}
    (sound : ∀ state command event next,
      advance state command = some (event, next) → step state event next)
    {start : σ} {commands : List κ} {test : List ε → σ → Prop}
    [∀ events finish, Decidable (test events finish)]
    (passes : (replay advance start commands).any fun (events, finish) => test events finish) :
    ∃ events finish, Run step start events finish ∧ test events finish := by
  obtain ⟨⟨events, finish⟩, replays, holds⟩ := (Option.any_eq_true _ _).mp passes
  exact ⟨events, finish, replay_run sound replays, of_decide_eq_true holds⟩

end Transition
