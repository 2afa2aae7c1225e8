import LightweightOs.System

/-!
# The user's video page

`vidmap` and `pit_handler` compute the frame of the user's video page
separately, and an Alt+Fn switch does not compute it at all.  A run of these
three operations is followed here together with the processes whose `vidmap`
has succeeded.  The page of such a process is its terminal's as long as the
scheduler resumes it only while its terminal is displayed and no Alt+Fn switch
shows or hides its terminal while it runs; any other step breaks the property.
-/

namespace LightweightOs

open Transition

/-- A vidmap call, a timer interrupt or a key. -/
def Event.IsVideo : Event → Prop
  | .vidmap _ _ _ => True
  | .pit _ _ => True
  | .key _ _ _ _ _ => True
  | _ => False

instance (event : Event) : Decidable event.IsVideo :=
  match event with
  | .vidmap _ _ _ => isTrue trivial
  | .pit _ _ => isTrue trivial
  | .key _ _ _ _ _ => isTrue trivial
  | .execute _ _ _ => isFalse id
  | .halt _ _ _ _ _ => isFalse id
  | .terminalWrite _ _ => isFalse id
  | .readStart _ => isFalse id
  | .readLine _ => isFalse id
  | .rtcWrite _ => isFalse id
  | .rtc => isFalse id

/-- The step is a `vidmap` call that returns 0. -/
def Record.vidmaps (record : Record) : Bool :=
  match record.event with
  | .vidmap frame locals screenStart =>
      match record.before.vidmap frame locals screenStart with
      | some (_, value, _) => value = 0
      | none => false
  | _ => false

/-- The processes with a successful `vidmap` after one more step. -/
def mapAfter (mapped : List Int) (record : Record) : List Int :=
  if record.vidmaps then record.running :: mapped else mapped

structure VideoState where
  kernel : Kernel
  mapped : List Int

structure VideoStep (v : VideoState) (record : Record) (w : VideoState) : Prop where
  step : Step v.kernel record w.kernel
  video : record.event.IsVideo
  mapped : w.mapped = mapAfter v.mapped record

/-- The frame of the page `putc` prints to for the terminal being scheduled. -/
def Kernel.ownFrame (s : Kernel) : BitVec 20 :=
  if s.tty.curTerminal = s.curProcess then 0xB8#20
  else 0xB8#20 + BitVec.ofInt 20 s.curProcess

/-- A running process whose `vidmap` has succeeded sees its own terminal. -/
def ShowsOwnPage (v : VideoState) : Prop :=
  v.kernel.runningPid ∈ v.mapped →
    tableFrame (v.kernel.ptVidmap 0) = v.kernel.ownFrame ∧
      (v.kernel.ownFrame.toNat : Int) * fourKb =
        Console.pageOf v.kernel.tty.curTerminal v.kernel.curProcess

/-- The steps after which the page still follows the terminals. -/
def FollowsTerminals (v : VideoState) (record : Record) : Prop :=
  match record.event with
  | .pit _ _ =>
      let t := nextProcess v.kernel.table.baseShellBootedBitmask v.kernel.curProcess
      t = v.kernel.curProcess ∨ v.kernel.tty.curTerminal = t ∨
        ∀ top ∈ getTopProcessPcb v.kernel.pcb (pcbAddr t),
          (v.kernel.pcb top).processId ∉ v.mapped
  | .key _ _ _ scanCode _ =>
      ∀ t ∈ (v.kernel.tty.modifierKeys scanCode).selectedTerminal scanCode,
        v.kernel.table.booted t →
          v.kernel.runningPid ∉ v.mapped ∨
            (v.kernel.tty.curTerminal = v.kernel.curProcess ↔
              t = v.kernel.curProcess)
  | _ => True

section Frames

variable {t : Int}

theorem ownFrame_background_ne (low : 1 ≤ t) (high : t ≤ 3) :
    0xB8#20 ≠ 0xB8#20 + BitVec.ofInt 20 t := by
  interval_cases t <;> decide

/-- `VID_MEM_PHYSICAL + cur_process` is not divided by the page size. -/
theorem pitFrame_ne (low : 1 ≤ t) (high : t ≤ 3) :
    (vidMemPhysical + BitVec.ofInt 32 t).setWidth 20 ≠ 0xB8#20 + BitVec.ofInt 20 t := by
  interval_cases t <;> decide

theorem vidmapFrame (low : 1 ≤ t) (high : t ≤ 3) :
    (vidMemPhysical / 4096#32 + BitVec.ofInt 32 t).setWidth 20 =
      0xB8#20 + BitVec.ofInt 20 t := by
  interval_cases t <;> decide

theorem ownFrame_eq_iff (low : 1 ≤ t) (high : t ≤ 3) (shown selected : Int) :
    (if shown = t then 0xB8#20 else 0xB8#20 + BitVec.ofInt 20 t) =
        (if selected = t then 0xB8#20 else 0xB8#20 + BitVec.ofInt 20 t) ↔
      (shown = t ↔ selected = t) := by
  have distinct := ownFrame_background_ne low high
  by_cases first : shown = t
  · by_cases second : selected = t
    · simp [first, second]
    · simpa [first, second] using distinct
  · by_cases second : selected = t
    · simpa [first, second] using distinct.symm
    · simp [first, second]

end Frames

theorem Represents.ownFrame_page {s : Kernel} {a : Session}
    (represents : Represents s a) :
    (s.ownFrame.toNat : Int) * fourKb =
      Console.pageOf s.tty.curTerminal s.curProcess := by
  obtain ⟨low, high⟩ := represents.terminal
  rw [← represents.current] at low high
  simp only [Kernel.ownFrame, Console.pageOf]
  split
  · rfl
  · generalize s.curProcess = t at low high
    interval_cases t <;> rfl

theorem Represents.showsOwnPage_iff {v : VideoState} {a : Session}
    (represents : Represents v.kernel a) :
    ShowsOwnPage v ↔
      (v.kernel.runningPid ∈ v.mapped →
        tableFrame (v.kernel.ptVidmap 0) = v.kernel.ownFrame) := by
  constructor
  · intro shows isMapped
    exact (shows isMapped).1
  · intro shows isMapped
    exact ⟨shows isMapped, represents.ownFrame_page⟩

/-- The session a state represents, with the processes that called `vidmap`
among the live ones. -/
structure Tracks (v : VideoState) (a : Session) : Prop where
  represents : Represents v.kernel a
  live : ∀ p ∈ v.mapped, a.Live p

theorem Represents.runningPid_eq {s : Kernel} {a : Session}
    (represents : Represents s a) {p : Int} {rest : List Int}
    (stacked : a.stack a.current = p :: rest) : s.runningPid = p := by
  have running := represents.runningPid
  simp only [Sessions.running, stacked, List.head?_cons, Option.some.injEq] at running
  exact running.symm

section Step

variable {v w : VideoState} {a : Session} {record : Record}

theorem Tracks.vidmap {frame : Frame} {locals : Locals} {screenStart : Word}
    (tracks : Tracks v a) (shows : ShowsOwnPage v) (step : VideoStep v record w)
    (isEvent : record.event = .vidmap frame locals screenStart) :
    (∃ b, Tracks w b) ∧ ShowsOwnPage w := by
  obtain ⟨before, event, outcome⟩ := record
  obtain ⟨kernel, mapped⟩ := v
  obtain ⟨next, mappedNext⟩ := w
  obtain ⟨⟨isBefore, legal, taken⟩, _, isMapped⟩ := step
  dsimp only at *
  subst isEvent isBefore
  have on : frame.On before := legal
  obtain ⟨⟨result, value, store⟩, maps, isNext⟩ := Option.map_eq_some_iff.mp taken
  cases isNext
  rcases Kernel.vidmap_cases maps with ⟨rfl, failed⟩ | ⟨base, found, rfl, succeeded⟩
  · have same : mappedNext = mapped := by
      simp [isMapped, mapAfter, Record.vidmaps, maps, failed]
    rw [same]
    exact ⟨⟨a, tracks⟩, shows⟩
  · obtain ⟨atBase, named⟩ := tracks.represents.base on.esp
    have isBase : base = pcbAddr before.curProcess :=
      Option.some.inj (found.symm.trans atBase)
    subst isBase
    have same : Represents (before.mapVideo locals
        (before.pcb (pcbAddr before.curProcess)).processId) a :=
      tracks.represents.unmoved rfl rfl rfl (by simp [Kernel.mapVideo, vidPdtIdx]) rfl
        rfl rfl rfl
    constructor
    · refine ⟨a, same, ?_⟩
      intro p member
      have isCaller : mappedNext = before.runningPid :: mapped := by
        simp [isMapped, mapAfter, Record.vidmaps, maps, succeeded, Record.running]
      rw [isCaller] at member
      rcases List.mem_cons.mp member with rfl | earlier
      · obtain ⟨top, rest, stacked, _⟩ := tracks.represents.stacked
        rw [tracks.represents.runningPid_eq stacked]
        exact ⟨a.current, by simp [stacked]⟩
      · exact tracks.live p earlier
    · rw [Represents.showsOwnPage_iff same]
      intro _
      have range : 1 ≤ before.curProcess ∧ before.curProcess ≤ 3 :=
        tracks.represents.current ▸ tracks.represents.terminal
      rw [named]
      simp only [Kernel.mapVideo, Kernel.vidmapAddress, Function.update_self,
        tableFrame_videoPageEntry, Kernel.ownFrame]
      split
      · rfl
      · exact vidmapFrame range.1 range.2

/-- A timer interrupt maps the page of the process it resumes exactly when that
process is displayed. -/
theorem Tracks.pit {frame : Frame} {locals : Locals} (tracks : Tracks v a)
    (shows : ShowsOwnPage v) (step : VideoStep v record w)
    (isEvent : record.event = .pit frame locals) :
    (∃ b, Tracks w b) ∧ (ShowsOwnPage w ↔ FollowsTerminals v record) := by
  obtain ⟨before, event, outcome⟩ := record
  obtain ⟨kernel, mapped⟩ := v
  obtain ⟨next, mappedNext⟩ := w
  obtain ⟨⟨isBefore, legal, taken⟩, _, isMapped⟩ := step
  dsimp only at *
  subst isEvent isBefore
  have same : mappedNext = mapped := isMapped
  subst same
  have on : frame.On before := legal
  obtain ⟨result, ticks, isNext⟩ := Option.map_eq_some_iff.mp taken
  rcases Kernel.pitHandler_cases ticks with
    ⟨again, rfl⟩ | ⟨t, top, chosen, different, found, rfl⟩
  · cases isNext
    refine ⟨⟨a, tracks⟩, ?_⟩
    simp only [FollowsTerminals, again, true_or, iff_true]
    exact shows
  · cases isNext
    rcases tracks.represents.pit on locals with
      stays | ⟨_, after, first, rest, terminal, resumed, others, switches, stacked,
        waiting, _, _, _, isTerminal, changed⟩
    · rw [stays] at ticks
      cases ticks
    rw [switches] at ticks
    cases ticks
    have isNext : terminal = t := isTerminal.symm
    subst isNext
    have nonempty : a.stack terminal ≠ [] := by simp [waiting]
    have range := tracks.represents.numbered.terminal terminal nonempty
    have base : terminal ∈ a.stack terminal :=
      List.mem_of_getLast? (tracks.represents.numbered.base terminal nonempty)
    have isTop : top = pcbAddr resumed :=
      Option.some.inj (found.symm.trans
        (tracks.represents.getTopProcessPcb base waiting))
    subst isTop
    have named := tracks.represents.links.named resumed ⟨terminal, by simp [waiting]⟩
    have runs := @Represents.runningPid_eq _ _ changed resumed others waiting
    constructor
    · exact ⟨_, changed, tracks.live⟩
    · rw [Represents.showsOwnPage_iff changed]
      simp only [FollowsTerminals, chosen, Ne.symm different, false_or, found,
        Option.mem_some_iff, forall_eq', runs]
      rw [named]
      simp only [Kernel.switchTo, Function.update_self, tableFrame_videoPageEntry,
        Kernel.ownFrame, Kernel.pitVideoAddress]
      split
      case isTrue shown =>
        simp only [shown, true_or, iff_true]
        intro _
        rfl
      case isFalse hidden =>
        simp only [hidden, false_or]
        constructor
        · intro agrees isMapped
          exact pitFrame_ne range.1 range.2 (agrees isMapped)
        · intro unmapped isMapped
          exact (unmapped isMapped).elim

/-- An Alt+Fn switch keeps the running process's page, so it must not change
whether its terminal is displayed. -/
theorem Tracks.key {frame inner : Frame} {locals : Locals} {scanCode : Byte}
    {memory : Nat → Byte} (tracks : Tracks v a) (shows : ShowsOwnPage v)
    (step : VideoStep v record w)
    (isEvent : record.event = .key frame inner locals scanCode memory) :
    (∃ b, Tracks w b) ∧ (ShowsOwnPage w ↔ FollowsTerminals v record) := by
  obtain ⟨before, event, outcome⟩ := record
  obtain ⟨kernel, mapped⟩ := v
  obtain ⟨next, mappedNext⟩ := w
  obtain ⟨⟨isBefore, legal, taken⟩, _, isMapped⟩ := step
  dsimp only at *
  subst isEvent isBefore
  have same : mappedNext = mapped := isMapped
  subst same
  rcases tracks.represents.key legal.1 legal.2 locals scanCode memory with
    ⟨tty, handled, allBooted, shown, same⟩ |
    ⟨started, after, top, rest, t, boots, stacked, low, high, unused, selects, _, _, _,
      entered⟩
  · simp only [Kernel.step, handled, Option.map_some, Option.some.injEq,
      Prod.mk.injEq] at taken
    obtain ⟨_, rfl⟩ := taken
    refine ⟨⟨a, same, tracks.live⟩, ?_⟩
    have range := tracks.represents.terminal
    rw [← tracks.represents.current] at range
    have before_iff := (Represents.showsOwnPage_iff tracks.represents).mp shows
    rw [Represents.showsOwnPage_iff same]
    simp only [FollowsTerminals, Kernel.ownFrame, shown] at before_iff ⊢
    change (before.runningPid ∈ mappedNext → _) ↔ _
    cases selects : (before.tty.modifierKeys scanCode).selectedTerminal scanCode with
    | none =>
        simp only [Option.getD_none, Option.mem_def, reduceCtorEq, false_implies,
          implies_true, iff_true]
        exact before_iff
    | some t =>
        simp only [Option.getD_some, Option.mem_def, Option.some.injEq, forall_eq',
          allBooted t selects, true_implies]
        by_cases isMapped : before.runningPid ∈ mappedNext
        · simp only [isMapped, true_implies, not_true_eq_false, false_or]
          rw [before_iff isMapped]
          exact ownFrame_eq_iff range.1 range.2 _ _
        · simp only [isMapped, false_implies, not_false_eq_true, true_or]
  · simp only [Kernel.step, boots, Option.map_some, Option.some.injEq,
      Prod.mk.injEq] at taken
    obtain ⟨_, rfl⟩ := taken
    have fresh : ¬a.Live t := by
      rw [tracks.represents.numbered.live_base low high]
      exact fun nonempty => nonempty unused
    have unbooted : ¬before.table.booted t := by
      rw [tracks.represents.accounts.booted t low high]
      exact fun nonempty => nonempty unused
    have runs := @Represents.runningPid_eq _ _ entered t []
      (Sessions.enter_stack_self _ _ _ _ _)
    constructor
    · refine ⟨_, entered, ?_⟩
      intro p member
      exact (Sessions.live_enter unused p).mpr (.inr (tracks.live p member))
    · simp only [FollowsTerminals, selects, Option.mem_some_iff, forall_eq', unbooted,
        false_implies, iff_true]
      intro isMapped
      rw [runs] at isMapped
      exact (fresh (tracks.live t isMapped)).elim

theorem Tracks.step (tracks : Tracks v a) (shows : ShowsOwnPage v)
    (step : VideoStep v record w) :
    (∃ b, Tracks w b) ∧ (ShowsOwnPage w ↔ FollowsTerminals v record) := by
  cases isEvent : record.event with
  | vidmap frame locals screenStart =>
      obtain ⟨tracked, shown⟩ := tracks.vidmap shows step isEvent
      exact ⟨tracked, by simp [FollowsTerminals, isEvent, shown]⟩
  | pit frame locals => exact tracks.pit shows step isEvent
  | key frame inner locals scanCode memory => exact tracks.key shows step isEvent
  | _ =>
      have video := step.video
      rw [isEvent] at video
      exact video.elim

end Step

/-- What the steps that follow the terminals preserve. -/
def VideoInvariant (v : VideoState) : Prop :=
  (∃ a, Tracks v a) ∧ ShowsOwnPage v

theorem VideoInvariant.step {v w : VideoState} {record : Record}
    (holds : VideoInvariant v) (step : Guarded FollowsTerminals VideoStep v record w) :
    VideoInvariant w := by
  obtain ⟨follows, taken⟩ := step
  obtain ⟨⟨a, tracks⟩, shows⟩ := holds
  obtain ⟨tracked, shown⟩ := tracks.step shows taken
  exact ⟨tracked, shown.mpr follows⟩

theorem video_mapping {start s : Kernel} {earlier history : List Record}
    {v : VideoState} (booted : Booted start) (run : Run Step start earlier s)
    (follows : Run (Guarded FollowsTerminals VideoStep) ⟨s, []⟩ history v) :
    ShowsOwnPage v ∧
      ∀ record w, VideoStep v record w →
        (ShowsOwnPage w ↔ FollowsTerminals v record) := by
  obtain ⟨a, _, represents⟩ := booted.run run
  have initially : VideoInvariant ⟨s, []⟩ :=
    ⟨⟨a, represents, by simp⟩, by simp [ShowsOwnPage]⟩
  obtain ⟨⟨b, tracks⟩, shows⟩ :=
    follows.invariant (fun _ _ _ holds step => VideoInvariant.step holds step) initially
  exact ⟨shows, fun record w step => (tracks.step shows step).2⟩

theorem videoRun {allowed : VideoState → Record → Prop} {s final : Kernel}
    {history : List Record} (run : Run Step s history final)
    (video : ∀ record ∈ history, record.event.IsVideo)
    (permitted : ∀ record ∈ history, ∀ v, allowed v record) (mapped : List Int) :
    Run (Guarded allowed VideoStep) ⟨s, mapped⟩ history
      ⟨final, history.foldl mapAfter mapped⟩ := by
  induction run with
  | nil => exact .nil
  | @snoc events middle finish record _ step earlier =>
      rw [List.foldl_append]
      have before := earlier (fun other member => video other (by simp [member]))
        (fun other member => permitted other (by simp [member]))
      apply before.snoc
      exact ⟨permitted record (by simp) _, step, video record (by simp), rfl⟩

def sampleVidmap : Event := .vidmap (sampleFrame 1) sampleLocals 0x8000000#32

theorem follows_of_vidmaps {record : Record} (calls : record.vidmaps = true) :
    record.event.IsVideo ∧ ∀ v, FollowsTerminals v record := by
  obtain ⟨before, event, outcome⟩ := record
  cases event with
  | vidmap frame locals screenStart => exact ⟨trivial, fun _ => trivial⟩
  | _ => cases calls

/-- The first shell calls `vidmap` and sees the display. -/
theorem video_mapping_sampleVidmap :
    ∃ history v, Run (Guarded FollowsTerminals VideoStep) ⟨sampleStart, []⟩ history v ∧
      v.mapped = [1] ∧ ShowsOwnPage v ∧
      ∀ record w, VideoStep v record w →
        (ShowsOwnPage w ↔ FollowsTerminals v record) := by
  obtain ⟨history, final, run, isMapped, calls⟩ :=
    @Kernel.run_of_replay sampleStart [sampleVidmap]
      (fun history _ => history.foldl mapAfter [] = [1] ∧
        ∀ record ∈ history, record.vidmaps = true) _ (by decide +kernel)
  have follows := videoRun run
    (fun record member => (follows_of_vidmaps (calls record member)).1)
    (fun record member => (follows_of_vidmaps (calls record member)).2) []
  exact ⟨history, _, follows, isMapped,
    video_mapping sampleStart_booted .nil follows⟩

/-- The first shell maps its page, terminal 2 is booted, and the timer comes
back to the first shell. -/
def lostPageEvents : List Event :=
  [sampleVidmap, sampleKey 1 ScanCode.alt, sampleKey 1 ScanCode.f2,
    .pit (sampleFrame 2) sampleLocals]

theorem video_mapping_lost :
    ¬∀ start s earlier history v, Booted start → Run Step start earlier s →
      Run VideoStep ⟨s, []⟩ history v → ShowsOwnPage v := by
  intro shows
  obtain ⟨history, final, run, video, isMapped, wrong⟩ :=
    @Kernel.run_of_replay sampleStart lostPageEvents
      (fun history final => (∀ record ∈ history, record.event.IsVideo) ∧
        final.runningPid ∈ history.foldl mapAfter [] ∧
        tableFrame (final.ptVidmap 0) ≠ final.ownFrame) _ (by decide +kernel)
  have taken := @videoRun (fun _ _ => True) _ _ _ run video (fun _ _ _ => trivial) []
  have shown := shows sampleStart sampleStart [] history _ sampleStart_booted .nil
    taken.unguarded
  exact wrong (shown isMapped).1

end LightweightOs
