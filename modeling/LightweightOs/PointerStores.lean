import LightweightOs.Arguments
import LightweightOs.DescriptorTable
import LightweightOs.Executables
import LightweightOs.UserStores

/-!
# Stores through the programs' pointers

`read` and `getargs` compare the address of their buffer with NULL and with
nothing else, and the bytes are stored with the rights of the kernel.  A buffer
in the kernel's own page therefore changes the kernel.  Followed are the words
of a process control block that the storing call has no more use for; what a
store elsewhere in that page does is left open, and one to an address that is
not mapped raises a page fault, as does a store of `execute` or `vidmap` that
leaves the user page.
-/

namespace LightweightOs

open Transition BitField

/-- The page at 4MB, which holds the kernel, its stacks and the blocks at their bottom. -/
def InKernel (address : Word) : Prop :=
  0x400000 ≤ address.toNat ∧ address.toNat < 0x800000

/-- The display and the screens behind it, at their own addresses. -/
def InTextPages (address : Word) : Prop :=
  0xB8000 ≤ address.toNat ∧ address.toNat < 0xBC000

/-- The page of `vidmap`. -/
def InVideoPage (address : Word) : Prop :=
  0x8800000 ≤ address.toNat ∧ address.toNat < 0x8801000

instance (address : Word) : Decidable (InKernel address) :=
  inferInstanceAs (Decidable (_ ∧ _))

instance (address : Word) : Decidable (InTextPages address) :=
  inferInstanceAs (Decidable (_ ∧ _))

instance (address : Word) : Decidable (InVideoPage address) :=
  inferInstanceAs (Decidable (_ ∧ _))

/-- A byte stored at an offset in a descriptor.  The operations are pointers, and the
position may still be advanced by the call that stores. -/
def FileDescriptor.storeByte (file : FileDescriptor) (offset : Nat) (byte : Byte) :
    Option FileDescriptor :=
  if 16 ≤ offset ∧ offset < 20 then
    some { file with inode := setField file.inode (8 * (offset - 16)) byte }
  else if 24 ≤ offset ∧ offset < 28 then
    some { file with flags := setField file.flags (8 * (offset - 24)) byte }
  else none

/-- A byte stored at an offset in a block, whose descriptors are at offset 8. -/
def ProcessControlBlock.storeByte (block : ProcessControlBlock) (offset : Nat)
    (byte : Byte) : Option ProcessControlBlock :=
  if 8 ≤ offset ∧ offset < 232 then
    let fd := (offset - 8) / 28
    ((block.files fd).storeByte ((offset - 8) % 28) byte).map fun file =>
      { block with files := assign block.files fd file }
  else none

namespace Kernel

def withVram (s : Kernel) (vram : Int → Byte) : Kernel :=
  { s with tty := { s.tty with vram := vram } }

/-- A byte stored in kernel mode; `none` for a page fault, and for the parts of the kernel
that are not followed. -/
def storeByte (s : Kernel) (address : Word) (byte : Byte) : Option Kernel :=
  if InTextPages address then
    some (s.withVram (assign s.tty.vram address.toNat byte))
  else if InKernel address then
    let block := currentPcb address
    if block ∈ ([1, 2, 3, 4, 5, 6] : List Int).map pcbAddr then
      ((s.pcb block).storeByte (address.toNat % 0x2000) byte).map fun stored =>
        { s with pcb := assign s.pcb block stored }
    else none
  else if OnUserPage address then some s
  else if InVideoPage address ∧ present (s.pdt vidPdtIdx) = 1 then
    let page : Int := (tableFrame (s.ptVidmap 0)).toNat * 0x1000
    some (s.withVram (assign s.tty.vram (page + (address.toNat - 0x8800000)) byte))
  else none

/-- The bytes of a call, in the order in which it stores them. -/
def store (s : Kernel) (buf : Word) : List Byte → Option Kernel
  | [] => some s
  | byte :: rest => (s.storeByte buf byte).bind fun next => next.store (buf + 1) rest

variable {s next : Kernel} {buf address : Word} {bytes : List Byte} {byte : Byte}

theorem storeByte_isSome (outside : ¬InKernel address) (byte : Byte) :
    (s.storeByte address byte).isSome ↔ InTextPages address ∨ OnUserPage address ∨
      InVideoPage address ∧ present (s.pdt vidPdtIdx) = 1 := by
  rw [storeByte, if_neg outside]
  split_ifs <;> simp_all

/-- Outside its own page the kernel has only the display. -/
theorem storeByte_outside (outside : ¬InKernel address)
    (stores : s.storeByte address byte = some next) : ∃ vram, next = s.withVram vram := by
  simp only [storeByte, if_neg outside] at stores
  split at stores
  · cases stores
    exact ⟨_, rfl⟩
  · split at stores
    · cases stores
      exact ⟨s.tty.vram, rfl⟩
    · split at stores
      · cases stores
        exact ⟨_, rfl⟩
      · cases stores

theorem store_outside (outside : ∀ address ∈ storeAddresses buf bytes, ¬InKernel address)
    (stores : s.store buf bytes = some next) : ∃ vram, next = s.withVram vram := by
  induction bytes generalizing s buf with
  | nil =>
      cases stores
      exact ⟨next.tty.vram, rfl⟩
  | cons byte rest induction =>
      obtain ⟨middle, first, later⟩ := Option.bind_eq_some_iff.mp stores
      obtain ⟨_, rfl⟩ := storeByte_outside (outside buf List.mem_cons_self) first
      obtain ⟨vram, rfl⟩ := induction
        (fun address member => outside address (List.mem_cons_of_mem buf member)) later
      exact ⟨vram, rfl⟩

theorem store_onUserPage (on : ∀ address ∈ storeAddresses buf bytes, OnUserPage address) :
    s.store buf bytes = some s := by
  induction bytes generalizing buf with
  | nil => rfl
  | cons byte rest induction =>
      have here : OnUserPage buf := on buf List.mem_cons_self
      have first : s.storeByte buf byte = some s := by
        obtain ⟨low, high⟩ := here
        have notText : ¬InTextPages buf := fun inText => by
          have := inText.2
          omega
        have notKernel : ¬InKernel buf := fun inKernel => by
          have := inKernel.2
          omega
        rw [storeByte, if_neg notText, if_neg notKernel, if_pos ⟨low, high⟩]
      rw [store, first, Option.bind_some]
      exact induction fun address member => on address (List.mem_cons_of_mem buf member)

end Kernel

/-- An action, with the buffer of the read whose line it is if it reads one, or a call of
`getargs`. -/
inductive MemoryAction where
  | act (action : Action) (lineBuf : Word)
  | getargs (frame : Frame) (buf nbytes : Word)

namespace Kernel

/-- The bytes that an action stores, and the address of the first: the results of reads and
of `getargs`, the pointer of `vidmap` and the image of a program. -/
def stored (s : Kernel) (action : MemoryAction) (reply : Reply) : Word × List Byte :=
  match action, reply with
  | .act (.event (.readLine bytes)) lineBuf, _ =>
      (lineBuf, (s.tty.terminalReadLine bytes).2.1)
  | .act (.event (.vidmap frame locals screenStart)) _, _ =>
      match s.vidmap frame locals screenStart with
      | some (_, _, some store) => (store.address, wordBytes store.value)
      | _ => (screenStart, [])
  | .act (.call _ (.read _ buf _ _)) _, .returned _ bytes => (buf, bytes)
  | .getargs _ buf _, .returned _ bytes => (buf, bytes)
  | .act _ _, .event (.starts started) => (programStart, started.image)
  | .act _ lineBuf, _ => (lineBuf, [])
  | .getargs _ buf _, _ => (buf, [])

def perform (s : Kernel) : MemoryAction → Option (Reply × Kernel)
  | .act action _ => s.act action
  | .getargs frame buf nbytes =>
      let (value, stored) := s.getargs (currentPcb frame.esp) buf nbytes
      some (.returned value stored, s)

/-- An action and its store. -/
def actInMemory (s : Kernel) (action : MemoryAction) : Option (Reply × Kernel) :=
  (s.perform action).bind fun (reply, next) =>
    (next.store (s.stored action reply).1 (s.stored action reply).2).map fun next =>
      (reply, next)

def PermitsInMemory (s : Kernel) : MemoryAction → Prop
  | .act action _ => s.Permits action
  | .getargs frame _ _ => frame.On s

instance (s : Kernel) (action : MemoryAction) : Decidable (s.PermitsInMemory action) :=
  match action with
  | .act action _ => inferInstanceAs (Decidable (s.Permits action))
  | .getargs frame _ _ => inferInstanceAs (Decidable (frame.On s))

end Kernel

structure MemoryEntry where
  before : Kernel
  action : MemoryAction
  reply : Reply

structure ActsInMemory (s : Kernel) (entry : MemoryEntry) (next : Kernel) : Prop where
  before : entry.before = s
  permitted : s.PermitsInMemory entry.action
  taken : s.actInMemory entry.action = some (entry.reply, next)

namespace MemoryEntry

/-- Where the action stores its bytes. -/
def addresses (entry : MemoryEntry) : List Word :=
  storeAddresses (entry.before.stored entry.action entry.reply).1
    (entry.before.stored entry.action entry.reply).2

/-- No byte goes to the kernel's page. -/
def OutsideKernel (entry : MemoryEntry) : Prop :=
  ∀ address ∈ entry.addresses, ¬InKernel address

instance (entry : MemoryEntry) : Decidable entry.OutsideKernel :=
  List.decidableBAll _ entry.addresses

/-- The entry without its store. -/
def entry? (entry : MemoryEntry) : Option Entry :=
  match entry.action with
  | .act action _ => some ⟨entry.before, action, entry.reply⟩
  | .getargs _ _ _ => none

def Opens (entry : MemoryEntry) (p : Int) (fd : Nat) : Prop :=
  ∃ inner ∈ entry.entry?, inner.Opens p fd

def Closes (entry : MemoryEntry) (p : Int) (fd : Nat) : Prop :=
  ∃ inner ∈ entry.entry?, inner.Closes p fd

def Ends (entry : MemoryEntry) (p : Int) : Prop :=
  ∃ inner ∈ entry.entry?, inner.Ends p

end MemoryEntry

/-- A step whose bytes all go to the user page is the one without its store. -/
theorem Acts.inMemory {s next : Kernel} {entry : Entry} (acts : Acts s entry next)
    (lineBuf : Word)
    (on : ∀ address ∈ MemoryEntry.addresses ⟨s, .act entry.action lineBuf, entry.reply⟩,
      OnUserPage address) :
    ActsInMemory s ⟨s, .act entry.action lineBuf, entry.reply⟩ next := by
  refine ⟨rfl, acts.permitted, ?_⟩
  have performs : s.perform (.act entry.action lineBuf) = some (entry.reply, next) := acts.taken
  have stores := @Kernel.store_onUserPage next _ _ on
  rw [Kernel.actInMemory, performs, Option.bind_some]
  exact congrArg (Option.map fun last => (entry.reply, last)) stores

/-- The steps whose stores leave the kernel's page alone. -/
def ActsOutside : Kernel → MemoryEntry → Kernel → Prop :=
  Guarded (fun _ entry => entry.OutsideKernel) ActsInMemory

section Steps

variable {s next : Kernel} {entry : MemoryEntry} {a : Session}

theorem ActsOutside.inner (step : ActsOutside s entry next) :
    ∃ after vram, next = after.withVram vram ∧
      ((∃ inner, entry.entry? = some inner ∧ Acts s inner after) ∨
        entry.entry? = none ∧ after = s) := by
  obtain ⟨before, action, reply⟩ := entry
  obtain ⟨outside, rfl, permitted, taken⟩ := step
  obtain ⟨⟨same, after⟩, performs, stored⟩ := Option.bind_eq_some_iff.mp taken
  obtain ⟨_, stores, isNext⟩ := Option.map_eq_some_iff.mp stored
  simp only [Prod.mk.injEq] at isNext
  obtain ⟨rfl, rfl⟩ := isNext
  obtain ⟨vram, isVram⟩ := Kernel.store_outside outside stores
  refine ⟨after, vram, isVram, ?_⟩
  cases action with
  | act action lineBuf => exact .inl ⟨_, rfl, rfl, permitted, performs⟩
  | getargs frame buf nbytes =>
      obtain ⟨_, isAfter⟩ := Prod.mk.inj (Option.some.inj performs)
      exact .inr ⟨rfl, isAfter.symm⟩

/-- Such a step is one of the kernel, or a call that changes only descriptors, the display
and the clock. -/
theorem ActsOutside.cases (step : ActsOutside s entry next) :
    ∃ after vram, next = after.withVram vram ∧
      ((∃ event lineBuf outcome, entry.action = .act (.event event) lineBuf ∧
          entry.reply = .event outcome ∧ Step s ⟨s, event, outcome⟩ after) ∨
        (∀ event lineBuf, entry.action ≠ .act (.event event) lineBuf) ∧
          s.CallKeeps after (currentPcb s.esp)) := by
  obtain ⟨after, vram, isNext, ⟨inner, isInner, acts⟩ | ⟨isNone, rfl⟩⟩ := step.inner
  · refine ⟨after, vram, isNext, ?_⟩
    obtain ⟨before, action, reply⟩ := entry
    cases action with
    | getargs => cases isInner
    | act action lineBuf =>
        cases isInner
        by_cases isEvent : ∃ event, action = .event event
        · obtain ⟨event, rfl⟩ := isEvent
          obtain ⟨outcome, isReply, taken⟩ := acts.of_event rfl
          exact .inl ⟨event, lineBuf, outcome, rfl, isReply, taken⟩
        · refine .inr ⟨?_, (acts.of_call fun event same => isEvent ⟨event, same⟩).1⟩
          intro event other same
          cases same
          exact isEvent ⟨event, rfl⟩
  · refine ⟨after, vram, isNext, .inr ⟨?_, .of_pcb after.tty after.rtc rfl⟩⟩
    intro event lineBuf isEvent
    rw [MemoryEntry.entry?, isEvent] at isNone
    cases isNone

theorem Represents.withVram (represents : Represents s a) (vram : Int → Byte) :
    Represents (s.withVram vram) a := by
  have keeps : s.CallKeeps (s.withVram vram) (currentPcb s.esp) := .of_pcb _ s.rtc rfl
  exact represents.call keeps

theorem Tidy.outside (tidy : Tidy s a) (represents : Represents s a)
    (step : ActsOutside s entry next) : ∃ b, Represents next b ∧ Tidy next b := by
  obtain ⟨after, vram, rfl, inner | ⟨_, rfl⟩⟩ := step.inner
  · obtain ⟨_, _, acts⟩ := inner
    obtain ⟨b, represents, tidy⟩ := tidy.step represents acts
    exact ⟨b, represents.withVram vram, tidy.live, tidy.dead⟩
  · exact ⟨a, represents.withVram vram, tidy.live, tidy.dead⟩

theorem BlankBooted.outside {start : Kernel} {history : List MemoryEntry}
    (booted : BlankBooted start) (run : Run ActsOutside start history s) :
    ∃ a, Represents s a ∧ Tidy s a := by
  have preserved : ∀ state entry next, (∃ a, Represents state a ∧ Tidy state a) →
      ActsOutside state entry next → ∃ b, Represents next b ∧ Tidy next b :=
    fun _ _ _ ⟨_, represents, tidy⟩ step => tidy.outside represents step
  exact run.invariant preserved ⟨_, booted.booted.represents, booted.tidy⟩

theorem Holds.withVram {p : Int} {fd : Nat} (holds : Holds s p fd) (vram : Int → Byte) :
    Holds (s.withVram vram) p fd := by
  obtain ⟨⟨a, represents, live⟩, used⟩ := holds
  exact ⟨⟨a, represents.withVram vram, live⟩, used⟩

theorem Holds.outside {p : Int} {fd : Nat} (holds : Holds s p fd)
    (step : ActsOutside s entry next) :
    (entry.Closes p fd ∨ entry.Ends p) ∨ Holds next p fd := by
  obtain ⟨after, vram, rfl, ⟨inner, isInner, acts⟩ | ⟨_, rfl⟩⟩ := step.inner
  · rcases holds.step acts with (closes | ends) | still
    · exact .inl (.inl ⟨inner, isInner, closes⟩)
    · exact .inl (.inr ⟨inner, isInner, ends⟩)
    · exact .inr (still.withVram vram)
  · exact .inr (holds.withVram vram)

theorem ActsOutside.opens {p : Int} {fd : Nat} (represents : Represents s a)
    (step : ActsOutside s entry next) (opens : entry.Opens p fd) :
    ((s.pcb (pcbAddr p)).files fd).flags = 0 ∧ Holds next p fd := by
  obtain ⟨opening, isOpening, opens⟩ := opens
  obtain ⟨after, vram, rfl, ⟨inner, isInner, acts⟩ | ⟨notInner, _⟩⟩ := step.inner
  · cases isInner.symm.trans isOpening
    obtain ⟨unused, holds⟩ := acts.opens represents opens
    exact ⟨unused, holds.withVram vram⟩
  · cases notInner.symm.trans isOpening

end Steps

/-- A descriptor is not returned again before it is closed or its process ends. -/
theorem opens_once {start s : Kernel} {earlier between later : List MemoryEntry}
    {first second : MemoryEntry} {p : Int} {fd : Nat} (booted : BlankBooted start)
    (run : Run ActsOutside start (earlier ++ first :: (between ++ second :: later)) s)
    (opensFirst : first.Opens p fd) (opensSecond : second.Opens p fd) :
    ∃ entry ∈ between, entry.Closes p fd ∨ entry.Ends p := by
  obtain ⟨before, toFirst, rest⟩ := run.split
  obtain ⟨opened, actsFirst, rest⟩ := rest.head
  obtain ⟨after, kept, rest⟩ := rest.split
  obtain ⟨_, actsSecond, _⟩ := rest.head
  obtain ⟨a, represents, _⟩ := booted.outside toFirst
  have holds := (actsFirst.opens represents opensFirst).2
  have step : ∀ state entry next, Holds state p fd → ActsOutside state entry next →
      (entry.Closes p fd ∨ entry.Ends p) ∨ Holds next p fd :=
    fun _ _ _ holds step => holds.outside step
  rcases kept.unless step holds with broken | ⟨⟨b, represents', _⟩, used⟩
  · exact broken
  · exact (used (actsSecond.opens represents' opensSecond).1).elim

/-- Each live process has stdin and stdout, every call keeps its contract, and `open` has
never returned a descriptor twice without a close in between. -/
structure KeepsDescriptors (history : List MemoryEntry) (s : Kernel) : Prop where
  standard : ∀ p, 1 ≤ p → p ≤ 6 → s.table.live p →
    (s.pcb (pcbAddr p)).files 0 = { stdinFd with flags := 1 } ∧
      (s.pcb (pcbAddr p)).files 1 = { stdoutFd with flags := 1 }
  contract : DescriptorContract s
  opensOnce : ∀ earlier first between second later p fd,
    history = earlier ++ first :: (between ++ second :: later) →
    first.Opens p fd → second.Opens p fd →
    ∃ entry ∈ between, entry.Closes p fd ∨ entry.Ends p

/-- Descriptors are kept in every run that starts on memory without open entries and whose
stores leave the kernel's page alone. -/
theorem descriptor_table {start s : Kernel} {history : List MemoryEntry}
    (booted : BlankBooted start) (run : Run ActsOutside start history s) :
    KeepsDescriptors history s := by
  obtain ⟨a, represents, tidy⟩ := booted.outside run
  constructor
  case standard =>
    intro p low high live
    have standard := tidy.live p ((represents.accounts.slots p low high).mp live)
    exact ⟨standard.stdin, standard.stdout⟩
  case contract => exact tidy.contract represents
  case opensOnce =>
    intro earlier first between second later p fd isHistory opensFirst opensSecond
    rw [isHistory] at run
    exact opens_once booted run opensFirst opensSecond

/-- The machine whose memory holds open entries when it is booted. -/
def stalePre : Kernel :=
  { samplePre with
    pcb := fun _ => { samplePcb with files := fun _ => { stdinFd with flags := 1 } } }

/-- The first shell finds them open: its write to the third one has no operation. -/
theorem descriptorContract_stale : ¬∀ start, Booted start → DescriptorContract start := by
  intro contract
  have preBoot : PreBoot stalePre :=
    { samplePre_preBoot with tty := samplePre_preBoot.tty }
  obtain ⟨started, _, executes⟩ := preBoot.executes (sampleFrame 0) sampleLocals fun _ => 0
  have on : (sampleFrame 0).On stalePre :=
    ⟨sampleFrame_onStack.1, sampleFrame_onStack.2⟩
  have dispatches := (contract _ ⟨_, _, _, _, started, preBoot, on, executes⟩).dispatches
    (sampleFrame 1) (.write 2 0x8000000 1 fun _ => 0)
  exact dispatches _ (by decide) rfl

/-- Take the step an action asks for, if it is permitted. -/
def Kernel.advanceInMemory (s : Kernel) (action : MemoryAction) :
    Option (MemoryEntry × Kernel) :=
  if s.PermitsInMemory action then
    (s.actInMemory action).map fun (reply, next) => (⟨s, action, reply⟩, next)
  else none

theorem Kernel.advanceInMemory_acts (s : Kernel) (action : MemoryAction)
    (entry : MemoryEntry) (next : Kernel)
    (advances : s.advanceInMemory action = some (entry, next)) :
    ActsInMemory s entry next := by
  rw [Kernel.advanceInMemory] at advances
  split at advances
  case isTrue permitted =>
    obtain ⟨⟨reply, after⟩, taken, isNext⟩ := Option.map_eq_some_iff.mp advances
    cases isNext
    exact ⟨rfl, permitted, taken⟩
  case isFalse => cases advances

def sampleOpen : MemoryAction := .act (.call (sampleFrame 1) (.openFile (some shellName))) 0

/-- Read four bytes from the file that has just been opened. -/
def sampleRead (buf : Word) : MemoryAction :=
  .act (.call (sampleFrame 1) (.read 2 buf 4 fun _ => 0)) 0

/-- The first shell opens its own file twice, reads from it into its page, closes the first
descriptor and opens the file again. -/
def sampleCalls : List MemoryAction :=
  [sampleOpen, sampleRead 0x8000000, sampleOpen,
    .act (.call (sampleFrame 1) (.close 2)) 0, sampleOpen]

theorem descriptor_table_sampleCalls :
    ∃ history final, Run ActsOutside sampleStart history final ∧
      history.map (·.reply.result) =
        [some (2, []), some (4, elfMagic), some (3, []), some (0, []), some (2, [])] ∧
      KeepsDescriptors history final := by
  obtain ⟨history, final, run, results, outside⟩ :=
    @exists_run_of_replay _ _ _ _ _ Kernel.advanceInMemory_acts sampleStart sampleCalls
      (fun history _ => history.map (·.reply.result) =
          [some (2, []), some (4, elfMagic), some (3, []), some (0, []), some (2, [])] ∧
        ∀ entry ∈ history, entry.OutsideKernel) _ (by decide +kernel)
  have guarded : Run ActsOutside sampleStart history final :=
    run.guarded fun entry member _ => outside entry member
  exact ⟨history, final, guarded, results, descriptor_table sampleStart_blank guarded⟩

/-- The address of `files[0].flags` in the block of the first shell. -/
def stdinFlags : Word := pcbAddr 1 + 32

/-- The first shell reads four zeros over the flags of its own stdin. -/
theorem descriptor_table_stdinFlags :
    ¬∀ start s history, Booted start → Run ActsInMemory start history s →
      KeepsDescriptors history s := by
  intro keeps
  obtain ⟨history, final, run, live, closed⟩ :=
    @exists_run_of_replay _ _ _ _ _ Kernel.advanceInMemory_acts sampleStart
      [sampleOpen, sampleRead 0x8000000, sampleRead stdinFlags]
      (fun _ final => final.table.activeProcesses 0 ≠ 0 ∧
        ((final.pcb (pcbAddr 1)).files 0).flags = 0) _ (by decide +kernel)
  have standard := (keeps _ _ _ sampleStart_booted run).standard 1 (by decide) (by decide) live
  rw [standard.1] at closed
  revert closed
  decide

end LightweightOs
