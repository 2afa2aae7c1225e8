import LightweightOs.Preemption
import LightweightOs.I8259

/-!
# Interrupt service

The kernel together with the interrupt controllers: a device requests a line,
the processor is given the vector of an open line between two steps of the
kernel, and the handler of the vector ends the interrupt before it returns or
gives the processor to another process.  So nothing is in service between two
steps, and a request waits for its own handler only.
-/

namespace LightweightOs

open Transition InterruptController

/-- The controllers when `entry` starts the first shell: its own masks, `i8259_init`,
`keyboard_init`, `RTC_init` and `pit_init`. -/
def I8259.entryPic (s : I8259) : I8259 :=
  let s := s.outb 0xFF master8259DataPort
  let s := s.outb 0xFF slave8259DataPort
  let s := s.init
  let s := s.enableIrq 1
  let s := s.enableIrq 8
  s.enableIrq 0

/-- How the handler of an event ends its interrupt.  A key that boots a terminal ends it before
the shell starts, any other key at the end of the handler. -/
def Record.endsInterrupt (record : Record) (pic : I8259) : I8259 :=
  match record.event, record.outcome with
  | .pit _ _, _ => pic.sendEoi 0
  | .rtc, _ => pic.sendEoi 8
  | .key _ _ _ _ _, .starts _ => pic.sendEoi 1
  | .key _ _ _ _ _, _ => pic.outb 0x61 0x20
  | _, _ => pic

/-- The kernel and the controllers. -/
structure Serviced where
  kernel : Kernel
  pic : I8259

inductive ServiceEvent where
  | request (line : Nat)
  | kernel (record : Record)

/-- A device makes a request, a process makes a call, or the processor takes the interrupt that
the controllers give it. -/
inductive ServiceStep (s : Serviced) : ServiceEvent → Serviced → Prop where
  | request {line : Nat} (inside : line < 16) :
      ServiceStep s (.request line)
        { s with pic := { s.pic with pair := s.pic.pair.request line } }
  | call {record : Record} {next : Kernel} (quiet : record.event.vector = none)
      (step : Step s.kernel record next) :
      ServiceStep s (.kernel record) { s with kernel := next }
  | interrupt {record : Record} {next : Kernel} {vector : Byte} {pair : Pair}
      (handles : record.event.vector = some vector)
      (acknowledged : s.pic.pair.acknowledge slaveLine = some (vector, pair))
      (step : Step s.kernel record next) :
      ServiceStep s (.kernel record)
        ⟨next, record.endsInterrupt { s.pic with pair := pair }⟩

/-- The event is the handling of an interrupt of the line. -/
def ServiceEvent.Serves (event : ServiceEvent) (line : Nat) : Prop :=
  match event with
  | .request _ => False
  | .kernel record => record.event.vector = some (BitVec.ofNat 8 (0x20 + line))

/-- The lines of the timer, the keyboard and the clock. -/
def deviceLines : List Nat := [0, 1, 8]

namespace I8259

variable {s : I8259} {line other : Nat}

theorem request_requested (inside : line < 16) (otherInside : other < 16) :
    ({ s with pair := s.pair.request other } : I8259).requested line =
      (s.requested line || decide (line = other)) := by
  simp only [requested, Pair.request]
  by_cases low : line < 8 <;> by_cases otherLow : other < 8
  · simp only [if_pos low, if_pos otherLow, getLsbD_raise otherLow]
  · have different : line ≠ other := by omega
    simp [low, otherLow, different]
  · have different : line ≠ other := by omega
    simp [low, otherLow, different]
  · rw [if_neg low, if_neg low, if_neg otherLow, getLsbD_raise (by omega : other - 8 < 8)]
    simp only [line_eq_iff (Nat.le_of_not_lt otherLow) (Nat.le_of_not_lt low)]

/-- An acknowledgement takes the request of its line, and the other devices wait on. -/
theorem taken_requested (notSlave : line ≠ slaveLine) (otherInside : other < 16) :
    ({ s with pair := s.taken other } : I8259).requested line =
      (s.requested line && !decide (line = other)) := by
  have slave : slaveLine < 8 := by decide
  simp only [requested, taken]
  by_cases low : line < 8 <;> by_cases otherHigh : 8 ≤ other
  · have different : line ≠ other := by omega
    simp only [if_pos low, if_pos otherHigh, Chip.serve, getLsbD_clear slave,
      wired_requests notSlave, different, notSlave]
  · simp only [if_pos low, if_neg otherHigh, Chip.serve, wired_requests notSlave,
      getLsbD_clear (Nat.lt_of_not_le otherHigh)]
  · simp only [if_neg low, if_pos otherHigh, Chip.serve,
      getLsbD_clear (by omega : other - 8 < 8),
      line_eq_iff otherHigh (Nat.le_of_not_lt low)]
  · have different : line ≠ other := by omega
    simp [low, otherHigh, different]

theorem sendEoi_requested (otherInside : other < 16) :
    (s.sendEoi (BitVec.ofNat 32 other)).requested line = s.requested line := by
  rw [sendEoi_eq otherInside]
  split <;> rfl

end I8259

theorem outb_keyboardEnd (pic : I8259) : pic.outb 0x61 0x20 = pic.sendEoi (BitVec.ofNat 32 1) := rfl

theorem Record.endsInterrupt_eq {record : Record} {vector : Byte}
    (handles : record.event.vector = some vector) :
    ∃ line ∈ deviceLines, vector = BitVec.ofNat 8 (0x20 + line) ∧
      ∀ pic, record.endsInterrupt pic = pic.sendEoi (BitVec.ofNat 32 line) := by
  obtain ⟨before, event, outcome⟩ := record
  cases event <;> cases handles
  case pit => exact ⟨0, by decide, rfl, fun _ => rfl⟩
  case key =>
    refine ⟨1, by decide, rfl, ?_⟩
    intro pic
    cases outcome with
    | starts => rfl
    | continues | resumes | switches => exact outb_keyboardEnd pic
  case rtc => exact ⟨8, by decide, rfl, fun _ => rfl⟩

/-- Between two steps nothing is in service, and the lines of the devices are open. -/
structure I8259.Serving (s : I8259) : Prop where
  ready : s.Ready
  idle : s.Idle
  masked : ∀ line < 16, s.masked line = !decide (line ∈ deviceLines ∨ line = slaveLine)

namespace I8259

variable {s : I8259} {irq : Nat}

theorem Idle.remask (idle : s.Idle) (irq : Nat) (mask : Bool) : (s.remask irq mask).Idle := by
  rw [I8259.remask]
  split
  · exact ⟨idle.master, idle.slave⟩
  · exact ⟨idle.master, idle.slave⟩

theorem remask_requested (irq : Nat) (mask : Bool) (line : Nat) :
    (s.remask irq mask).requested line = s.requested line := by
  rw [remask]
  split <;> rfl

/-- The masks that the driver starts from stay when `entry` masks the chips itself. -/
theorem outb_masks (s : I8259) :
    ((s.outb 0xFF master8259DataPort).outb 0xFF slave8259DataPort).masterMask = s.masterMask ∧
      ((s.outb 0xFF master8259DataPort).outb 0xFF slave8259DataPort).slaveMask =
        s.slaveMask :=
  ⟨rfl, rfl⟩

theorem init_idle (s : I8259) : s.init.Idle := by
  rw [init_eq_remask]
  exact Idle.remask ⟨rfl, rfl⟩ 2 false

theorem init_requested (s : I8259) (line : Nat) : s.init.requested line = false := by
  rw [init_eq_remask, remask_requested, requested]
  split
  · exact BitVec.getLsbD_zero
  · exact BitVec.getLsbD_zero

theorem entryPic_eq (s : I8259) :
    s.entryPic = ((((s.outb 0xFF master8259DataPort).outb 0xFF slave8259DataPort).init.remask
      1 false).remask 8 false).remask 0 false := by
  have calls : s.entryPic = ((((s.outb 0xFF master8259DataPort).outb 0xFF
      slave8259DataPort).init.enableIrq (BitVec.ofNat 32 1)).enableIrq
        (BitVec.ofNat 32 8)).enableIrq (BitVec.ofNat 32 0) := rfl
  have ready := ((s.outb 0xFF master8259DataPort).outb 0xFF slave8259DataPort).init_ready
  rw [calls, enableIrq_eq (by decide) ready, enableIrq_eq (by decide) (ready.remask _ _),
    enableIrq_eq (by decide) ((ready.remask _ _).remask _ _)]

theorem entryPic_serving (initial : s.Initial) :
    s.entryPic.Serving ∧ ∀ line, s.entryPic.requested line = false := by
  rw [entryPic_eq]
  generalize isMasked : (s.outb 0xFF master8259DataPort).outb 0xFF slave8259DataPort = masked
  have closed : ∀ line < 16, masked.masked line = true := by
    intro line inside
    rw [I8259.masked, ← isMasked, s.outb_masks.1, s.outb_masks.2, initial.master, initial.slave]
    interval_cases line <;> decide
  refine ⟨⟨?_, ?_, ?_⟩, ?_⟩
  · exact ((masked.init_ready.remask 1 false).remask 8 false).remask 0 false
  · exact ((masked.init_idle.remask 1 false).remask 8 false).remask 0 false
  · intro line inside
    rw [remask_masked (by decide), remask_masked (by decide), remask_masked (by decide),
      init_masked, closed line inside]
    interval_cases line <;> decide
  · intro line
    rw [remask_requested, remask_requested, remask_requested, init_requested]

end I8259

/-- The handler of an interrupt that was taken leaves nothing in service. -/
theorem I8259.Serving.handled {s : I8259} (serving : s.Serving) {line : Nat}
    (inside : line < 16) :
    (({ s with pair := s.taken line } : I8259).sendEoi (BitVec.ofNat 32 line)).Serving where
  ready := (serving.ready.taken line).sendEoi inside
  idle := serving.idle.served serving.ready inside
  masked := by
    intro other otherInside
    rw [sendEoi_masked inside]
    exact serving.masked other otherInside

theorem I8259.Serving.request {s : I8259} (serving : s.Serving) (line : Nat) :
    ({ s with pair := s.pair.request line } : I8259).Serving := by
  obtain ⟨ready, idle, masked⟩ := serving
  rw [Pair.request]
  split
  · exact ⟨⟨ready.master.serving _ _, ready.slave⟩, ⟨idle.master, idle.slave⟩, masked⟩
  · exact ⟨⟨ready.master, ready.slave.serving _ _⟩, ⟨idle.master, idle.slave⟩, masked⟩

theorem I8259.Serving.acknowledged {s : I8259} (serving : s.Serving) {vector : Byte}
    {pair : Pair} (acknowledged : s.pair.acknowledge slaveLine = some (vector, pair)) :
    ∃ line ∈ deviceLines, vector = BitVec.ofNat 8 (0x20 + line) ∧ pair = s.taken line ∧
      s.requested line = true := by
  obtain ⟨line, inside, notSlave, isVector, requested, unmasked, isPair⟩ :=
    I8259.acknowledge_spec serving.ready acknowledged
  refine ⟨line, ?_, isVector, isPair, requested⟩
  rw [serving.masked line inside, Bool.not_eq_false', decide_eq_true_eq] at unmasked
  exact unmasked.resolve_right notSlave

theorem I8259.Serving.waits {s : I8259} (serving : s.Serving) {line : Nat}
    (member : line ∈ deviceLines) (requested : s.requested line = true) : s.Waits line := by
  have facts : ∀ line ∈ deviceLines, line < 16 ∧ line ≠ slaveLine := by decide
  obtain ⟨inside, notSlave⟩ := facts line member
  have isOpen := serving.masked line inside
  have slaveOpen := serving.masked slaveLine (by decide)
  rw [decide_eq_true (.inl member)] at isOpen
  rw [decide_eq_true (.inr rfl)] at slaveOpen
  exact ⟨inside, notSlave, requested, isOpen, fun _ => slaveOpen⟩

/-- The device has requested its line since the handler of the line ran last. -/
def Awaits (history : List ServiceEvent) (line : Nat) : Prop :=
  LastWrite (fun event => event = .request line) (fun event => ¬event.Serves line) history

theorem vector_inj {line other : Nat} (inside : line < 16) (otherInside : other < 16)
    (same : BitVec.ofNat 8 (0x20 + line) = BitVec.ofNat 8 (0x20 + other)) : line = other := by
  have values := congrArg BitVec.toNat same
  rw [BitVec.toNat_ofNat, BitVec.toNat_ofNat] at values
  omega

/-- The controllers agree with the history of requests and handlers. -/
structure FollowsRequests (s : Serviced) (history : List ServiceEvent) : Prop where
  serving : s.pic.Serving
  awaits : ∀ line ∈ deviceLines, s.pic.requested line = true ↔ Awaits history line

theorem FollowsRequests.step {s next : Serviced} {history : List ServiceEvent}
    {event : ServiceEvent} (follows : FollowsRequests s history)
    (step : ServiceStep s event next) : FollowsRequests next (history ++ [event]) := by
  obtain ⟨serving, awaits⟩ := follows
  have small : ∀ line ∈ deviceLines, line < 16 ∧ line ≠ slaveLine := by decide
  cases step with
  | @request asked inside =>
      refine ⟨serving.request asked, ?_⟩
      intro line member
      rw [I8259.request_requested (small line member).1 inside, Bool.or_eq_true,
        decide_eq_true_eq, awaits line member, Awaits, Awaits, lastWrite_concat_iff,
        ServiceEvent.request.injEq]
      constructor
      · rintro (earlier | here)
        · exact .inr ⟨earlier, not_false⟩
        · exact .inl here.symm
      · rintro (here | ⟨earlier, _⟩)
        · exact .inr here.symm
        · exact .inl earlier
  | @call record kernel quiet step =>
      refine ⟨serving, ?_⟩
      intro line member
      have silent : ¬(ServiceEvent.kernel record).Serves line := by
        rw [ServiceEvent.Serves, quiet]
        exact nofun
      rw [awaits line member, Awaits, Awaits, lastWrite_concat_iff]
      constructor
      · intro earlier
        exact .inr ⟨earlier, silent⟩
      · rintro (isRequest | ⟨earlier, _⟩)
        · cases isRequest
        · exact earlier
  | @interrupt record kernel vector pair handles acknowledged step =>
      obtain ⟨served, servedMember, isVector, isPair, _⟩ := serving.acknowledged acknowledged
      obtain ⟨ended, endedMember, sameVector, ends⟩ := record.endsInterrupt_eq handles
      have same : ended = served :=
        vector_inj (small ended endedMember).1 (small served servedMember).1
          (sameVector.symm.trans isVector)
      subst same
      have inside := (small ended servedMember).1
      rw [ends, isPair]
      refine ⟨serving.handled inside, ?_⟩
      intro line member
      obtain ⟨lineInside, notSlave⟩ := small line member
      have serves : (ServiceEvent.kernel record).Serves line ↔ line = ended := by
        rw [ServiceEvent.Serves, handles, isVector, Option.some.injEq]
        constructor
        · intro same
          exact (vector_inj inside lineInside same).symm
        · rintro rfl
          rfl
      rw [I8259.sendEoi_requested inside, I8259.taken_requested notSlave inside,
        Bool.and_eq_true, awaits line member, Awaits, Awaits, lastWrite_concat_iff, serves]
      constructor
      · rintro ⟨earlier, different⟩
        refine .inr ⟨earlier, ?_⟩
        simpa using different
      · rintro (isRequest | ⟨earlier, different⟩)
        · cases isRequest
        · exact ⟨earlier, by simpa using different⟩

theorem FollowsRequests.run {s t : Serviced} {pic : I8259} {history : List ServiceEvent}
    (initial : pic.Initial) (entered : s.pic = pic.entryPic)
    (run : Run ServiceStep s history t) : FollowsRequests t history := by
  induction run with
  | nil =>
      obtain ⟨serving, silent⟩ := I8259.entryPic_serving initial
      rw [← entered] at serving silent
      refine ⟨serving, ?_⟩
      intro line _
      rw [silent line]
      constructor
      · intro absent
        cases absent
      · rintro ⟨earlier, _, later, isHistory, _⟩
        exact (List.append_ne_nil_of_right_ne_nil earlier (List.cons_ne_nil _ later)
          isHistory.symm).elim
  | snoc _ step earlier => exact earlier.step step

/-- What the devices can rely on. -/
structure ServesDevices (s : Serviced) (history : List ServiceEvent) : Prop where
  idle : s.pic.Idle
  awaits : ∀ line ∈ deviceLines, s.pic.requested line = true ↔ Awaits history line
  delivers : ∀ line ∈ deviceLines, Awaits history line →
    ∃ vector pair, s.pic.pair.acknowledge slaveLine = some (vector, pair)
  handled : ∀ vector pair, s.pic.pair.acknowledge slaveLine = some (vector, pair) →
    (∃ line ∈ deviceLines, vector = BitVec.ofNat 8 (0x20 + line) ∧ Awaits history line) ∧
      ∃ label linkage device, linkageOf vector = some label ∧ label.intLinkage = some linkage ∧
        excHandlerDevice linkage.vector = some device

/-- No request is lost and none is handled twice: in every order of requests, calls and
interrupts, a device waits exactly from a request to the next run of its handler, an interrupt
is delivered while one waits, and every vector delivered has its handler. -/
theorem interrupt_service {s t : Serviced} {pic : I8259} {history : List ServiceEvent}
    (initial : pic.Initial) (entered : s.pic = pic.entryPic)
    (run : Run ServiceStep s history t) : ServesDevices t history := by
  obtain ⟨serving, awaits⟩ := FollowsRequests.run initial entered run
  refine ⟨serving.idle, awaits, ?_, ?_⟩
  · intro line member waits
    exact (serving.waits member ((awaits line member).mpr waits)).acknowledged serving.ready
      serving.idle
  · intro vector pair acknowledged
    obtain ⟨line, member, isVector, _, requested⟩ := serving.acknowledged acknowledged
    refine ⟨⟨line, member, isVector, (awaits line member).mp requested⟩, ?_⟩
    have gates : ∀ line ∈ deviceLines, ∃ label ∈ linkageOf (BitVec.ofNat 8 (0x20 + line)),
        ∃ linkage ∈ label.intLinkage, (excHandlerDevice linkage.vector).isSome := by
      decide
    obtain ⟨label, isLabel, linkage, isLinkage, calls⟩ := gates line member
    rw [← isVector] at isLabel
    obtain ⟨device, isDevice⟩ := Option.isSome_iff_exists.mp calls
    exact ⟨label, linkage, device, isLabel, isLinkage, isDevice⟩

/-- The clock and the keyboard request their lines; the keyboard's handler runs, and the
clock waits on. -/
theorem interrupt_service_samplePic :
    ∃ record t, record.event.vector = some 0x21 ∧
      Run ServiceStep ⟨sampleStart, samplePic.entryPic⟩
        [.request 8, .request 1, .kernel record] t ∧
      ServesDevices t [.request 8, .request 1, .kernel record] := by
  obtain ⟨records, final, run, isKey⟩ :=
    @Kernel.run_of_replay sampleStart [sampleKey 1 ScanCode.alt]
      (fun records _ => records.map (·.event.vector) = [some 0x21]) _ (by decide +kernel)
  obtain ⟨record, rfl⟩ : ∃ record, records = [record] := by
    apply List.length_eq_one_iff.mp
    rw [← List.length_map, isKey]
    rfl
  have handles : record.event.vector = some 0x21 := by
    rw [List.map_singleton, List.singleton_inj] at isKey
    exact isKey
  have first : Run ServiceStep ⟨sampleStart, samplePic.entryPic⟩ [.request 8] _ :=
    @Run.snoc _ _ _ _ [] _ _ _ .nil (.request (by decide))
  have second := first.snoc (.request (by decide : 1 < 16))
  have served := second.snoc (.interrupt handles rfl run.singleton)
  exact ⟨record, _, handles, served, @interrupt_service _ _ samplePic _ ⟨rfl, rfl⟩ rfl served⟩

end LightweightOs
