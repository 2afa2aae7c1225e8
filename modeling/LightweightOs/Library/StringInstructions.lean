import LightweightOs.Library.Blocks

/-!
# String instructions

The part of a 32-bit x86 machine that its string instructions work on, with flat
segments.  `rep` repeats an instruction as often as `ecx` says; an invariant that
counts the turns and does not look at `ecx` holds after as many of them.
-/

namespace X86

open Blocks

/-- The memory, the registers, the direction flag, and the addresses that have been
read and written so far. -/
structure Machine where
  memory : BitVec 32 → BitVec 8
  eax : BitVec 32
  ecx : BitVec 32
  edx : BitVec 32
  esi : BitVec 32
  edi : BitVec 32
  df : Bool
  reads : List (BitVec 32)
  writes : List (BitVec 32)

namespace Machine

def al (m : Machine) : BitVec 8 := m.eax.extractLsb' 0 8

/-- What a string instruction adds to its pointers. -/
def stride (m : Machine) (width : Nat) : BitVec 32 :=
  if m.df then -BitVec.ofNat 32 width else BitVec.ofNat 32 width

/-- `movb (%esi), %al` -/
def loadByte (m : Machine) : Machine :=
  { m with
    eax := m.eax.extractLsb' 8 24 ++ m.memory m.esi
    reads := m.esi :: m.reads }

/-- `movb %al, (%edi)` -/
def storeByte (m : Machine) : Machine :=
  { m with
    memory := store m.memory m.edi [m.al]
    writes := m.edi :: m.writes }

/-- `movsb` and `movsl` -/
def movs (width : Nat) (m : Machine) : Machine :=
  { m with
    memory := store m.memory m.edi (load m.memory m.esi width)
    esi := m.esi + m.stride width
    edi := m.edi + m.stride width
    reads := addresses m.esi width ++ m.reads
    writes := addresses m.edi width ++ m.writes }

/-- The lowest bytes of a word, the lowest one first. -/
def littleEndian (width : Nat) (value : BitVec 32) : List (BitVec 8) :=
  (List.range width).map fun i => value.extractLsb' (8 * i) 8

/-- `stosb` and `stosl` -/
def stos (width : Nat) (m : Machine) : Machine :=
  { m with
    memory := store m.memory m.edi (littleEndian width m.eax)
    edi := m.edi + m.stride width
    writes := addresses m.edi width ++ m.writes }

end Machine

/-- Instructions that leave the counters and the direction flag as they are. -/
structure Move where
  run : Machine → Machine
  ecx : ∀ m, (run m).ecx = m.ecx
  edx : ∀ m, (run m).edx = m.edx
  df : ∀ m, (run m).df = m.df

def movsb : Move := ⟨Machine.movs 1, fun _ => rfl, fun _ => rfl, fun _ => rfl⟩

def movsl : Move := ⟨Machine.movs 4, fun _ => rfl, fun _ => rfl, fun _ => rfl⟩

def stosl : Move := ⟨Machine.stos 4, fun _ => rfl, fun _ => rfl, fun _ => rfl⟩

theorem toNat_sub_one {counter : BitVec 32} (more : counter ≠ 0) :
    (counter - 1).toNat + 1 = counter.toNat := by
  have positive := BitVec.toNat_pos_of_ne_zero more
  have one : (1 : BitVec 32).toNat = 1 := rfl
  have size := counter.isLt
  rw [BitVec.toNat_sub, one]
  omega

/-- A loop that has done `k` of `n` turns ends when its counter does. -/
theorem counter_ended {counter : BitVec 32} {k n : Nat} (ended : counter = 0)
    (left : k + counter.toNat = n) : k = n := by
  rw [ended] at left
  exact left

/-- Otherwise there is a turn to do, and the counter goes down with it. -/
theorem counter_turn {counter : BitVec 32} {k n : Nat} (more : counter ≠ 0)
    (left : k + counter.toNat = n) : k < n ∧ k + 1 + (counter - 1).toNat = n := by
  have less := toNat_sub_one more
  omega

/-- The prefix `rep`. -/
def rep (move : Move) (m : Machine) : Machine :=
  if m.ecx = 0 then m
  else rep move { move.run m with ecx := (move.run m).ecx - 1 }
termination_by m.ecx.toNat
decreasing_by
  rename_i left
  have less := toNat_sub_one left
  simp only [move.ecx]
  omega

/-- The rule of `rep`: what each turn keeps holds after as many turns as `ecx` says. -/
theorem rep_rule {move : Move} {inv : Nat → Machine → Prop} {n : Nat}
    (free : ∀ k m ecx, inv k m → inv k { m with ecx })
    (turn : ∀ k m, k < n → inv k m → inv (k + 1) (move.run m)) {k : Nat} {m : Machine}
    (left : k + m.ecx.toNat = n) (holds : inv k m) : inv n (rep move m) := by
  induction m using rep.induct move generalizing k with
  | case1 m ended =>
      rw [rep, if_pos ended, ← counter_ended ended left]
      exact holds
  | case2 m more induction =>
      obtain ⟨below, later⟩ := counter_turn more left
      rw [rep, if_neg more]
      apply @induction (k + 1)
      · change k + 1 + ((move.run m).ecx - 1).toNat = n
        rw [move.ecx m]
        exact later
      · exact free _ _ _ (turn k m below holds)

theorem rep_df (move : Move) (m : Machine) : (rep move m).df = m.df := by
  apply @rep_rule move (fun _ now => now.df = m.df) m.ecx.toNat _ _ 0 m (Nat.zero_add _) rfl
  · exact fun _ _ _ same => same
  · exact fun _ now _ same => (move.df now).trans same

theorem Machine.stride_forward {m : Machine} (forward : m.df = false) (width : Nat) :
    m.stride width = BitVec.ofNat 32 width := by
  simp [stride, forward]

theorem load_one (memory : BitVec 32 → BitVec 8) (base : BitVec 32) :
    load memory base 1 = [memory base] := by
  simp [load, addresses, place_zero]

theorem addresses_one (base : BitVec 32) : addresses base 1 = [base] := by
  simp [addresses, place_zero]

theorem Machine.al_loadByte (m : Machine) : m.loadByte.al = m.memory m.esi :=
  BitVec.extractLsb'_append_eq_right

/-- The first `k` places of the block at `dest` hold the text, and `edi` is behind
them. -/
structure Filled (start : Machine) (dest : BitVec 32) (text : Nat → BitVec 8) (k : Nat)
    (m : Machine) : Prop where
  memory : m.memory = overlay start.memory dest text 0 k
  edi : m.edi = place dest k
  writes : ∀ address ∈ m.writes, address ∈ start.writes ∨ Inside dest k address

variable {start m after : Machine} {dest src value : BitVec 32} {text : Nat → BitVec 8}
  {k n width : Nat}

theorem accesses_shift {base : BitVec 32} {before now earlier : List (BitVec 32)}
    (made : ∀ address ∈ before, address ∈ earlier ∨ Inside base k address)
    (more : now = addresses (place base k) width ++ before) :
    ∀ address ∈ now, address ∈ earlier ∨ Inside base (k + width) address := by
  intro address member
  rw [more, List.mem_append, mem_addresses] at member
  rcases member with inside | old
  · exact .inr (inside.shift (Nat.le_refl _))
  · apply (made address old).imp_right
    exact Inside.mono (Nat.le_add_right k width)

theorem Filled.begin (memory : m.memory = start.memory) (edi : m.edi = dest)
    (writes : m.writes = start.writes) : Filled start dest text 0 m where
  memory := by rw [memory, overlay_empty]
  edi := by rw [edi, place_zero]
  writes := by
    intro address member
    rw [writes] at member
    exact .inl member

theorem Filled.store {contents : List (BitVec 8)} (filled : Filled start dest text k m)
    (length : contents.length = width) (small : k + width ≤ 2 ^ 32)
    (continues : ∀ (i : Nat) (inside : i < contents.length), contents[i] = text (k + i))
    (memory : after.memory = Blocks.store m.memory m.edi contents)
    (edi : after.edi = place m.edi width)
    (writes : after.writes = addresses m.edi width ++ m.writes) :
    Filled start dest text (k + width) after where
  memory := by
    subst length
    rw [memory, filled.memory, filled.edi]
    exact store_overlay (Nat.zero_le k) small continues
  edi := by rw [edi, filled.edi, place_add]
  writes := accesses_shift filled.writes (filled.edi ▸ writes)

theorem Filled.stored (filled : Filled start dest text k m) (small : k ≤ 2 ^ 32) {i : Nat}
    (inside : i < k) : m.memory (place dest i) = text i := by
  rw [filled.memory]
  exact overlay_place (Nat.zero_le i) inside (Nat.lt_of_lt_of_le inside small)

theorem Filled.kept (filled : Filled start dest text k m) {address : BitVec 32}
    (outside : ¬ Inside dest k address) : m.memory address = start.memory address := by
  rw [filled.memory]
  apply overlay_outside
  intro i _ inside isPlace
  exact outside ⟨i, inside, isPlace⟩

/-- The block at `dest` is filled with what the block at `src` held at the start. -/
structure Copied (start : Machine) (dest src : BitVec 32) (k : Nat) (m : Machine) : Prop
    extends Filled start dest (fun i => start.memory (place src i)) k m where
  esi : m.esi = place src k
  reads : ∀ address ∈ m.reads, address ∈ start.reads ∨ Inside src k address

theorem Copied.begin (memory : m.memory = start.memory) (edi : m.edi = dest)
    (esi : m.esi = src) (reads : m.reads = start.reads) (writes : m.writes = start.writes) :
    Copied start dest src 0 m where
  toFilled := .begin memory edi writes
  esi := by rw [esi, place_zero]
  reads := by
    intro address member
    rw [reads] at member
    exact .inl member

theorem Copied.move (copied : Copied start dest src k m) (ahead : Ahead dest src n)
    (fits : k + width ≤ n) (small : n ≤ 2 ^ 32)
    (memory : after.memory = Blocks.store m.memory m.edi (load m.memory m.esi width))
    (esi : after.esi = place m.esi width) (edi : after.edi = place m.edi width)
    (reads : after.reads = addresses m.esi width ++ m.reads)
    (writes : after.writes = addresses m.edi width ++ m.writes) :
    Copied start dest src (k + width) after := by
  have length := length_load m.memory m.esi width
  constructor
  case toFilled =>
    apply copied.toFilled.store length (by omega) _ memory edi writes
    intro i inside
    rw [getElem_load, copied.memory, copied.esi, place_add]
    exact ahead.unread (Nat.le_add_right k i) (by omega)
  case esi => rw [esi, copied.esi, place_add]
  case reads => exact accesses_shift copied.reads (copied.esi ▸ reads)

theorem Copied.movs (copied : Copied start dest src k m) (ahead : Ahead dest src n)
    (fits : k + width ≤ n) (small : n ≤ 2 ^ 32) (forward : m.df = false) :
    Copied start dest src (k + width) (m.movs width) := by
  have stride := Machine.stride_forward forward width
  apply copied.move ahead fits small rfl _ _ rfl rfl
  · rw [Machine.movs, stride, place]
  · rw [Machine.movs, stride, place]

/-- The block at `dest` is filled with the lowest byte of `eax`. -/
structure Spread (start : Machine) (dest value : BitVec 32) (k : Nat) (m : Machine) : Prop
    extends Filled start dest (fun _ => value.extractLsb' 0 8) k m where
  eax : m.eax = value
  reads : m.reads = start.reads

theorem Spread.stos (spread : Spread start dest value k m)
    (uniform : Machine.littleEndian width value =
      List.replicate width (value.extractLsb' 0 8))
    (small : k + width ≤ 2 ^ 32) (forward : m.df = false) :
    Spread start dest value (k + width) (m.stos width) := by
  have stride := Machine.stride_forward forward width
  have length : (Machine.littleEndian width m.eax).length = width := by
    simp [Machine.littleEndian]
  constructor
  case toFilled =>
    apply spread.toFilled.store length small _ rfl _ rfl
    · intro i inside
      simp only [spread.eax, uniform, List.getElem_replicate]
    · rw [Machine.stos, stride, place]
  case eax => exact spread.eax
  case reads => exact spread.reads

theorem place_succ_sub_one (base : BitVec 32) (k : Nat) :
    place base (k + 1) - 1 = place base k := by
  have one : place (place base k) 1 = place base k + 1 := rfl
  rw [← place_add, one, BitVec.add_sub_cancel]

/-- The places of the block at `dest` from `k` up to `n` hold what those of the block
at `src` held at the start, and the pointers are in front of them. -/
structure CopiedDown (start : Machine) (dest src : BitVec 32) (n k : Nat) (m : Machine) :
    Prop where
  memory : m.memory = overlay start.memory dest (fun i => start.memory (place src i)) k n
  edi : m.edi = place dest k - 1
  esi : m.esi = place src k - 1

theorem CopiedDown.movsb (copied : CopiedDown start dest src n (k + 1) m)
    (behind : Behind dest src n) (below : k < n) (small : n ≤ 2 ^ 32)
    (backward : m.df = true) : CopiedDown start dest src n k (movsb.run m) := by
  have stride : m.stride 1 = -1 := by
    rw [Machine.stride, if_pos backward]
    rfl
  have edi : m.edi = place dest k := by rw [copied.edi, place_succ_sub_one]
  have esi : m.esi = place src k := by rw [copied.esi, place_succ_sub_one]
  constructor
  case memory =>
    have unread := @Behind.unread _ _ start.memory dest src
      (fun i => start.memory (place src i)) n behind (k + 1) k (Nat.lt_succ_self k)
    change Blocks.store m.memory m.edi (load m.memory m.esi 1) = _
    rw [load_one, edi, esi, copied.memory, unread]
    exact update_overlay_low below (Nat.lt_of_lt_of_le below small)
  case edi =>
    change m.edi + m.stride 1 = _
    rw [stride, edi, BitVec.sub_eq_add_neg]
  case esi =>
    change m.esi + m.stride 1 = _
    rw [stride, esi, BitVec.sub_eq_add_neg]

/-- With the direction flag set, `rep movsb` copies from the last place to the first. -/
theorem CopiedDown.rep_movsb (copied : CopiedDown start dest src n n m)
    (behind : Behind dest src n) (small : n ≤ 2 ^ 32) (backward : m.df = true)
    (count : m.ecx.toNat = n) : CopiedDown start dest src n 0 (rep X86.movsb m) := by
  have repeated := @rep_rule X86.movsb
    (fun turns now => now.df = true ∧ CopiedDown start dest src n (n - turns) now) n
    (fun _ _ _ kept => ⟨kept.1, kept.2.memory, kept.2.edi, kept.2.esi⟩)
    (by
      rintro turns now below ⟨set, kept⟩
      have next : n - turns = n - (turns + 1) + 1 := by omega
      rw [next] at kept
      exact ⟨(X86.movsb.df now).trans set, kept.movsb behind (by omega) small set⟩)
    0 m ((Nat.zero_add _).trans count) ⟨backward, copied⟩
  rw [Nat.sub_self] at repeated
  exact repeated.2

/-- With the direction flag clear, `rep movsb` copies from the first place to the last. -/
theorem Copied.rep_movsb (copied : Copied start dest src 0 m) (ahead : Ahead dest src n)
    (small : n ≤ 2 ^ 32) (forward : m.df = false) (count : m.ecx.toNat = n) :
    Copied start dest src n (rep X86.movsb m) := by
  have repeated := @rep_rule X86.movsb
    (fun turns now => now.df = false ∧ Copied start dest src turns now) n
    (fun _ now _ kept =>
      ⟨kept.1, ⟨kept.2.memory, kept.2.edi, kept.2.writes⟩, kept.2.esi, kept.2.reads⟩)
    (by
      rintro turns now below ⟨clear, kept⟩
      exact ⟨(X86.movsb.df now).trans clear, kept.movs ahead below small clear⟩)
    0 m ((Nat.zero_add _).trans count) ⟨forward, copied⟩
  exact repeated.2

end X86
