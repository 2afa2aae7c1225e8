import LightweightOs.Library.StringInstructions
import LightweightOs.Console

/-!
# The memory loops

`memset` and `memcpy` write bytes until the destination is aligned, doublewords
with a string instruction, and then the bytes that are left.  The segments are
flat, so that copying `ds` to `es` for the string instruction leaves its addresses
as they are.
-/

namespace LightweightOs

namespace Lib

open Blocks X86

/-- `movb %al, (%edi); addl $1, %edi` -/
def setByte : Move where
  run := fun m =>
    let m := m.storeByte
    { m with edi := m.edi + 1 }
  ecx := fun _ => rfl
  edx := fun _ => rfl
  df := fun _ => rfl

/-- `movb (%esi), %al; movb %al, (%edi); addl $1, %edi; addl $1, %esi` -/
def copyByte : Move where
  run := fun m =>
    let m := m.loadByte
    let m := m.storeByte
    let m := { m with edi := m.edi + 1 }
    { m with esi := m.esi + 1 }
  ecx := fun _ => rfl
  edx := fun _ => rfl
  df := fun _ => rfl

/-- The loop at `.memset_bottom` and `.memcpy_bottom`. -/
def bottomLoop (byte : Move) (m : Machine) : Machine :=
  if m.edx = 0 then m
  else bottomLoop byte { byte.run m with edx := (byte.run m).edx - 1 }
termination_by m.edx.toNat
decreasing_by
  rename_i left
  have less := toNat_sub_one left
  simp only [byte.edx]
  omega

/-- What follows `.memset_aligned` and `.memcpy_aligned`. -/
def aligned (byte dword : Move) (m : Machine) : Machine :=
  let m := { m with edx := m.ecx }
  let m := { m with ecx := m.ecx >>> 2 }
  let m := { m with edx := m.edx &&& 3 }
  let m := { m with df := false }
  bottomLoop byte (rep dword m)

/-- The loop at `.memset_top` and `.memcpy_top`. -/
def topLoop (byte dword : Move) (m : Machine) : Machine :=
  if m.ecx = 0 then m
  else if m.edi &&& 3 = 0 then aligned byte dword m
  else topLoop byte dword { byte.run m with ecx := (byte.run m).ecx - 1 }
termination_by m.ecx.toNat
decreasing_by
  rename_i left _
  have less := toNat_sub_one left
  simp only [byte.ecx]
  omega

/-- What `memset` passes in `eax`, after `c &= 0xFF`. -/
def fillDword (c : Word) : Word :=
  let c := c &&& 0xFF
  c <<< 24 ||| c <<< 16 ||| c <<< 8 ||| c

/-- `memset`, which returns `s`. -/
def memset (m : Machine) (s c n : Word) : Machine :=
  topLoop setByte stosl
    { m with
      eax := fillDword c
      edi := s
      ecx := n }

/-- `memcpy`, which returns `dest`. -/
def memcpy (m : Machine) (dest src n : Word) : Machine :=
  topLoop copyByte movsl
    { m with
      esi := src
      edi := dest
      ecx := n }

/-- An invariant that counts the bytes done, which neither the counters nor the
direction flag matter to, and what a byte and a doubleword do to it. -/
structure Phases (byte dword : Move) (n : Nat) (inv : Nat → Machine → Prop) : Prop where
  free : ∀ k m ecx edx df, inv k m → inv k { m with ecx, edx, df }
  byte : ∀ k m, k < n → inv k m → inv (k + 1) (byte.run m)
  dword : ∀ k m, k + 4 ≤ n → m.df = false → inv k m → inv (k + 4) (dword.run m)

variable {byte dword : Move} {n k : Nat} {inv : Nat → Machine → Prop} {m : Machine}

theorem Phases.bottomLoop (phases : Phases byte dword n inv) (left : k + m.edx.toNat = n)
    (holds : inv k m) : inv n (bottomLoop byte m) := by
  induction m using bottomLoop.induct byte generalizing k with
  | case1 m ended =>
      rw [Lib.bottomLoop, if_pos ended, ← counter_ended ended left]
      exact holds
  | case2 m more induction =>
      obtain ⟨below, later⟩ := counter_turn more left
      rw [Lib.bottomLoop, if_neg more]
      apply @induction (k + 1)
      · change k + 1 + ((byte.run m).edx - 1).toNat = n
        rw [byte.edx m]
        exact later
      · apply phases.free _ _ _ _ _
        exact phases.byte k m below holds

theorem Phases.aligned (phases : Phases byte dword n inv) (left : k + m.ecx.toNat = n)
    (holds : inv k m) : inv n (aligned byte dword m) := by
  have quotient : (m.ecx >>> 2).toNat = m.ecx.toNat / 4 := by
    rw [BitVec.toNat_ushiftRight, Nat.shiftRight_eq_div_pow]
  have remainder : (m.ecx &&& 3).toNat = m.ecx.toNat % 4 := by
    rw [BitVec.toNat_and]
    exact Nat.and_two_pow_sub_one_eq_mod _ 2
  have repeated := @rep_rule dword
    (fun t now => (now.df = false ∧ now.edx = m.ecx &&& 3) ∧ inv (k + 4 * t) now)
    (m.ecx.toNat / 4)
    (fun _ _ _ kept => ⟨kept.1, phases.free _ _ _ _ _ kept.2⟩)
    (by
      rintro t now below ⟨⟨forward, rest⟩, kept⟩
      refine ⟨⟨(dword.df now).trans forward, (dword.edx now).trans rest⟩, ?_⟩
      exact phases.dword (k + 4 * t) now (by omega) forward kept)
    0 { m with edx := m.ecx &&& 3, ecx := m.ecx >>> 2, df := false }
    ((Nat.zero_add _).trans quotient) ⟨⟨rfl, rfl⟩, phases.free _ _ _ _ _ holds⟩
  apply phases.bottomLoop _ repeated.2
  rw [repeated.1.2, remainder]
  omega

theorem Phases.topLoop (phases : Phases byte dword n inv) (left : k + m.ecx.toNat = n)
    (holds : inv k m) : inv n (topLoop byte dword m) := by
  induction m using topLoop.induct byte generalizing k with
  | case1 m ended =>
      rw [Lib.topLoop, if_pos ended, ← counter_ended ended left]
      exact holds
  | case2 m more onBoundary =>
      rw [Lib.topLoop, if_neg more, if_pos onBoundary]
      exact phases.aligned left holds
  | case3 m more notAligned induction =>
      obtain ⟨below, later⟩ := counter_turn more left
      rw [Lib.topLoop, if_neg more, if_neg notAligned]
      apply @induction (k + 1)
      · change k + 1 + ((byte.run m).ecx - 1).toNat = n
        rw [byte.ecx m]
        exact later
      · apply phases.free _ _ _ _ _
        exact phases.byte k m below holds

theorem and_mask (c : Word) : c &&& 0xFF = (c.setWidth 8).setWidth 32 := by
  apply BitVec.eq_of_toNat_eq
  have less : c.toNat % 2 ^ 8 < 2 ^ 32 := by omega
  rw [BitVec.toNat_and, BitVec.toNat_setWidth, BitVec.toNat_setWidth, Nat.mod_eq_of_lt less]
  exact Nat.and_two_pow_sub_one_eq_mod _ 8

theorem littleEndian_fillDword (c : Word) :
    Machine.littleEndian 4 (fillDword c) = List.replicate 4 ((c &&& 0xFF).setWidth 8) := by
  have all : ∀ byte : Byte, Machine.littleEndian 4 (let c := byte.setWidth 32
      c <<< 24 ||| c <<< 16 ||| c <<< 8 ||| c) = List.replicate 4 byte := by decide +kernel
  rw [fillDword, and_mask, all]
  congr 1
  simp

theorem al_fillDword (c : Word) :
    (fillDword c).extractLsb' 0 8 = (c &&& 0xFF).setWidth 8 :=
  (List.cons.inj (littleEndian_fillDword c)).1

theorem spread_setByte {start now : Machine} {dest value : Word} {k : Nat}
    (spread : Spread start dest value k now) (small : k < 2 ^ 32) :
    Spread start dest value (k + 1) (setByte.run now) := by
  have stored : now.al = value.extractLsb' 0 8 := by
    rw [Machine.al, spread.eax]
  refine ⟨?_, spread.eax, spread.reads⟩
  apply @Filled.store start now (setByte.run now) dest _ k 1 [now.al] spread.toFilled rfl small
    _ rfl rfl
  · rw [addresses_one]
    rfl
  · intro i inside
    rw [List.getElem_singleton, stored]

theorem memset_spread (m : Machine) (s c n : Word) :
    Spread m s (fillDword c) n.toNat (memset m s c n) := by
  have size := n.isLt
  rw [memset]
  apply @Phases.topLoop setByte stosl n.toNat 0 (Spread m s (fillDword c))
  · constructor
    case free =>
      intro k now ecx edx df spread
      exact ⟨⟨spread.memory, spread.edi, spread.writes⟩, spread.eax, spread.reads⟩
    case byte =>
      intro k now below spread
      exact spread_setByte spread (Nat.lt_trans below size)
    case dword =>
      intro k now fits forward spread
      apply spread.stos _ (by omega) forward
      rw [littleEndian_fillDword, al_fillDword]
  · exact Nat.zero_add _
  · exact ⟨.begin rfl rfl rfl, rfl, rfl⟩

theorem copied_copyByte {start now : Machine} {dest src : Word} {k n : Nat}
    (copied : Copied start dest src k now) (ahead : Ahead dest src n) (below : k < n)
    (small : n ≤ 2 ^ 32) : Copied start dest src (k + 1) (copyByte.run now) := by
  apply copied.move ahead below small _ rfl rfl
  · rw [addresses_one]
    rfl
  · rw [addresses_one]
    rfl
  · rw [load_one, ← Machine.al_loadByte]
    rfl

theorem memcpy_copied (m : Machine) {dest src n : Word} (ahead : Ahead dest src n.toNat) :
    Copied m dest src n.toNat (memcpy m dest src n) := by
  have size := n.isLt
  rw [memcpy]
  apply @Phases.topLoop copyByte movsl n.toNat 0 (Copied m dest src)
  · constructor
    case free =>
      intro k now ecx edx df copied
      exact ⟨⟨copied.memory, copied.edi, copied.writes⟩, copied.esi, copied.reads⟩
    case byte =>
      intro k now below copied
      exact copied_copyByte copied ahead below size.le
    case dword =>
      intro k now fits forward copied
      exact copied.movs ahead fits size.le forward
  · exact Nat.zero_add _
  · exact .begin rfl rfl rfl rfl rfl

/-- `for (i = 0; i < n; i++) dest[i] = src[i];` -/
def copyBytes (memory : Word → Byte) (dest src : Word) : Nat → Word → Byte
  | 0 => memory
  | n + 1 =>
      let memory := copyBytes memory dest src n
      assign memory (place dest n) (memory (place src n))

/-- `for (i = 0; i < n; i++) s[i] = c;` -/
def setBytes (memory : Word → Byte) (s : Word) (c : Byte) : Nat → Word → Byte
  | 0 => memory
  | n + 1 => assign (setBytes memory s c n) (place s n) c

theorem copyBytes_eq (memory : Word → Byte) {dest src : Word} {n : Nat}
    (ahead : Ahead dest src n) (small : n ≤ 2 ^ 32) :
    copyBytes memory dest src n = overlay memory dest (fun i => memory (place src i)) 0 n := by
  induction n with
  | zero => exact (overlay_empty _ _ _ _).symm
  | succ n induction =>
      have earlier := induction (ahead.mono (Nat.le_succ n)) (Nat.le_of_succ_le small)
      rw [copyBytes, earlier, ahead.unread (Nat.le_refl n) (Nat.lt_succ_self n)]
      exact update_overlay_high (Nat.zero_le n) small

theorem setBytes_eq (memory : Word → Byte) (s : Word) (c : Byte) {n : Nat}
    (small : n ≤ 2 ^ 32) : setBytes memory s c n = overlay memory s (fun _ => c) 0 n := by
  induction n with
  | zero => exact (overlay_empty _ _ _ _).symm
  | succ n induction =>
      rw [setBytes, induction (Nat.le_of_succ_le small)]
      exact @update_overlay_high _ _ memory s (fun _ => c) 0 n (Nat.zero_le n) small

/-- The memory loops leave what the plain byte loops leave.  `memcpy` reads the
source and writes the destination; `memset` reads nothing. -/
theorem memory_loops_agree (m : Machine) (dest n : Word) :
    (∀ src, Apart dest src n.toNat →
      let after := memcpy m dest src n
      (∀ i, i < n.toNat → after.memory (place dest i) = m.memory (place src i)) ∧
        (∀ address, ¬ Inside dest n.toNat address → after.memory address = m.memory address) ∧
        after.memory = copyBytes m.memory dest src n.toNat ∧
        (∀ address ∈ after.reads, address ∈ m.reads ∨ Inside src n.toNat address) ∧
        ∀ address ∈ after.writes, address ∈ m.writes ∨ Inside dest n.toNat address) ∧
    ∀ c,
      let after := memset m dest c n
      (∀ i, i < n.toNat → after.memory (place dest i) = (c &&& 0xFF).setWidth 8) ∧
        (∀ address, ¬ Inside dest n.toNat address → after.memory address = m.memory address) ∧
        after.memory = setBytes m.memory dest ((c &&& 0xFF).setWidth 8) n.toNat ∧
        after.reads = m.reads ∧
        ∀ address ∈ after.writes, address ∈ m.writes ∨ Inside dest n.toNat address := by
  have small := n.isLt.le
  constructor
  · intro src apart
    have copied := memcpy_copied m apart.ahead
    refine ⟨fun i inside => copied.stored small inside,
      fun address outside => copied.kept outside, ?_, copied.reads, copied.writes⟩
    rw [copied.memory, copyBytes_eq m.memory apart.ahead small]
  · intro c
    have spread := memset_spread m dest c n
    rw [← al_fillDword]
    refine ⟨fun i inside => spread.stored small inside,
      fun address outside => spread.kept outside, ?_, spread.reads, spread.writes⟩
    rw [spread.memory, setBytes_eq m.memory dest _ small]

theorem memory_loops_agree_unaligned :
    (memcpy ⟨fun address => address.setWidth 8, 0, 0, 0, 0, 0, true, [], []⟩
      0x2001#32 0x1000#32 7#32).memory 0x2007#32 = 6#8 := by
  have apart : Apart 0x2001#32 0x1000#32 (7#32 : Word).toNat :=
    apart_of_le (.inl (by decide)) (by decide) (by decide)
  have copied := (memory_loops_agree
    ⟨fun address => address.setWidth 8, 0, 0, 0, 0, 0, true, [], []⟩ 0x2001#32 7#32).1
    0x1000#32 apart
  exact copied.1 6 (by decide)

theorem bottomLoop_df (byte : Move) (m : Machine) : (bottomLoop byte m).df = m.df := by
  induction m using bottomLoop.induct byte with
  | case1 m ended => rw [bottomLoop, if_pos ended]
  | case2 m more induction =>
      rw [bottomLoop, if_neg more, induction]
      exact byte.df m

theorem topLoop_clear (byte dword : Move) {m : Machine} (clear : m.df = false) :
    (topLoop byte dword m).df = false := by
  induction m using topLoop.induct byte with
  | case1 m ended =>
      rw [topLoop, if_pos ended]
      exact clear
  | case2 m more onBoundary =>
      rw [topLoop, if_neg more, if_pos onBoundary, aligned, bottomLoop_df, rep_df]
  | case3 m more notAligned induction =>
      rw [topLoop, if_neg more, if_neg notAligned]
      apply induction
      exact (byte.df m).trans clear

theorem memory_loops_clear {m : Machine} (clear : m.df = false) (dest n : Word) :
    (∀ c, (memset m dest c n).df = false) ∧ ∀ src, (memcpy m dest src n).df = false :=
  ⟨fun _ => topLoop_clear setByte stosl clear, fun _ => topLoop_clear copyByte movsl clear⟩

/-- The memory of the console is that of the machine. -/
def Views (memory : Word → Byte) (vram : Int → Byte) : Prop :=
  ∀ address, memory address = vram address.toNat

/-- Between ranges that neither overlap nor wrap around, the copy of the console is
what `memcpy` computes. -/
theorem memcpy_views {m : Machine} {vram : Int → Byte} (views : Views m.memory vram)
    {dest src n : Word} (fits : dest.toNat + n.toNat ≤ 2 ^ 32)
    (fits' : src.toNat + n.toNat ≤ 2 ^ 32)
    (order : src.toNat + n.toNat ≤ dest.toNat ∨ dest.toNat + n.toNat ≤ src.toNat) :
    Views (memcpy m dest src n).memory
      (LightweightOs.memcpy vram dest.toNat src.toNat n.toNat) := by
  intro address
  have copied := memcpy_copied m (apart_of_le order fits fits').ahead
  have range := address.isLt
  rw [copied.memory, overlay, LightweightOs.memcpy, BitVec.toNat_sub]
  by_cases inside : dest.toNat ≤ address.toNat ∧ address.toNat < dest.toNat + n.toNat
  · have offset : (2 ^ 32 - dest.toNat + address.toNat) % 2 ^ 32 =
        address.toNat - dest.toNat := by omega
    rw [offset, if_pos (by omega), if_pos (by omega), views, place_toNat (by omega)]
    congr 1
    omega
  · rw [if_neg (by omega), if_neg (by omega)]
    exact views address

/-- The two calls of `memcpy` at an Alt+Fn switch exchange the pages of the console. -/
theorem swapPages_runs {m : Machine} {con : Console} (views : Views m.memory con.vram)
    {curTerminal selectedTerminal : Int} (current : 1 ≤ curTerminal ∧ curTerminal ≤ 3)
    (selected : 1 ≤ selectedTerminal ∧ selectedTerminal ≤ 3) :
    let display := BitVec.ofInt 32 video
    let size := BitVec.ofInt 32 fourKb
    let saved := memcpy m (BitVec.ofInt 32 (Console.videomemBuffer curTerminal)) display size
    Views (memcpy saved display (BitVec.ofInt 32 (Console.videomemBuffer selectedTerminal))
      size).memory (con.swapPages curTerminal selectedTerminal).vram := by
  have display : (BitVec.ofInt 32 video).toNat = 0xB8000 := by decide
  have size : (BitVec.ofInt 32 fourKb).toNat = 4096 := by decide
  have page : ∀ terminal : Int, 1 ≤ terminal → terminal ≤ 3 →
      ((BitVec.ofInt 32 (Console.videomemBuffer terminal)).toNat : Int) =
        0xB8000 + terminal * 4096 := by
    intro terminal low high
    rw [BitVec.toNat_ofInt, Console.videomemBuffer, video, fourKb]
    omega
  have saved := page curTerminal current.1 current.2
  have shown := page selectedTerminal selected.1 selected.2
  have first := @memcpy_views m con.vram views
    (BitVec.ofInt 32 (Console.videomemBuffer curTerminal)) (BitVec.ofInt 32 video)
    (BitVec.ofInt 32 fourKb) (by omega) (by omega) (by omega)
  have second := @memcpy_views _ _ first (BitVec.ofInt 32 video)
    (BitVec.ofInt 32 (Console.videomemBuffer selectedTerminal))
    (BitVec.ofInt 32 fourKb) (by omega) (by omega) (by omega)
  rw [saved, shown, display, size] at second
  exact second

end Lib

end LightweightOs
