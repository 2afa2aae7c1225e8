import LightweightOs.Execute
import LightweightOs.Vidmap

/-!
# Stores into the user page

`execute` loads a file from `PROGRAM_START` on and `vidmap` stores a pointer
where its caller says.  Neither of them compares the end of the store with the
end of the page at 128MB.  No entry of the page directory is ever set for the
addresses behind it, so a store that reaches them raises a page fault, whose
handler does not come back.
-/

namespace LightweightOs

/-- `PROGRAM_START` -/
def programStart : Word := 0x08048000#32

/-- The copies of `read_data` to `buf + bytes_read`, one byte at a time. -/
def storeBytes (memory : Word → Byte) (buf : Word) : List Byte → Word → Byte
  | [] => memory
  | byte :: rest => storeBytes (assign memory buf byte) (buf + 1) rest

/-- The addresses those copies write. -/
def storeAddresses (buf : Word) : List Byte → List Word
  | [] => []
  | _ :: rest => buf :: storeAddresses (buf + 1) rest

/-- The page at 128MB. -/
def OnUserPage (address : Word) : Prop :=
  0x08000000 ≤ address.toNat ∧ address.toNat ≤ 0x083FFFFF

instance (address : Word) : Decidable (OnUserPage address) :=
  inferInstanceAs (Decidable (_ ∧ _))

/-- The address at which the store leaves the user page, if it does. -/
def faultAddress (buf : Word) (bytes : List Byte) : Option Word :=
  (storeAddresses buf bytes).find? fun address => ¬OnUserPage address

section Store

variable {buf address : Word} {bytes : List Byte}

theorem mem_storeAddresses :
    address ∈ storeAddresses buf bytes ↔
      ∃ i < bytes.length, address = buf + BitVec.ofNat 32 i := by
  induction bytes generalizing buf with
  | nil => simp [storeAddresses]
  | cons byte rest induction =>
      rw [storeAddresses, List.mem_cons, induction]
      constructor
      · rintro (rfl | ⟨i, inside, rfl⟩)
        · exact ⟨0, by simp, by simp⟩
        · exact ⟨i + 1, by simpa using inside, add_one_add_ofNat buf i⟩
      · rintro ⟨i, inside, rfl⟩
        cases i with
        | zero => exact .inl (by simp)
        | succ i => exact .inr ⟨i, by simpa using inside, (add_one_add_ofNat buf i).symm⟩

theorem storeBytes_of_not_mem {memory : Word → Byte}
    (outside : address ∉ storeAddresses buf bytes) :
    storeBytes memory buf bytes address = memory address := by
  induction bytes generalizing buf memory with
  | nil => rfl
  | cons byte rest induction =>
      rw [storeAddresses, List.mem_cons, not_or] at outside
      obtain ⟨notFirst, notLater⟩ := outside
      rw [storeBytes, induction notLater, assign_of_ne notFirst]

/-- As long as the addresses do not wrap around to the first, each byte stays. -/
theorem storeBytes_getElem {memory : Word → Byte} (room : bytes.length ≤ 2 ^ 32) {i : Nat}
    (inside : i < bytes.length) :
    storeBytes memory buf bytes (buf + BitVec.ofNat 32 i) = bytes[i] := by
  induction bytes generalizing buf memory i with
  | nil => cases inside
  | cons byte rest induction =>
      rw [List.length_cons] at room inside
      cases i with
      | zero =>
          have first : buf + BitVec.ofNat 32 0 = buf := by simp
          have notLater : buf ∉ storeAddresses (buf + 1) rest := by
            rw [mem_storeAddresses]
            rintro ⟨i, within, isLater⟩
            have value := congrArg BitVec.toNat isLater
            have one : (1 : Word).toNat = 1 := rfl
            have bound := buf.isLt
            rw [BitVec.toNat_add, BitVec.toNat_add, BitVec.toNat_ofNat, one] at value
            omega
          rw [first, storeBytes, storeBytes_of_not_mem notLater, assign_self]
          rfl
      | succ i =>
          rw [← add_one_add_ofNat, storeBytes, induction (by omega) (by omega)]
          rfl

theorem faultAddress_eq_none :
    faultAddress buf bytes = none ↔ ∀ address ∈ storeAddresses buf bytes, OnUserPage address := by
  simp [faultAddress]

theorem faultAddress_of_onUserPage (on : OnUserPage buf) :
    faultAddress buf bytes =
      if buf.toNat + bytes.length ≤ 0x08400000 then none else some 0x08400000#32 := by
  induction bytes generalizing buf with
  | nil =>
      obtain ⟨_, high⟩ := on
      rw [List.length_nil, if_pos (by omega)]
      rfl
  | cons byte rest induction =>
      obtain ⟨low, high⟩ := on
      have first : faultAddress buf (byte :: rest) = faultAddress (buf + 1) rest := by
        rw [faultAddress, storeAddresses, List.find?_cons_of_neg (by simp [OnUserPage, low, high])]
        rfl
      have next : (buf + 1).toNat = buf.toNat + 1 := toNat_add_one (by omega)
      rw [first, List.length_cons]
      by_cases still : buf.toNat < 0x083FFFFF
      · have on : OnUserPage (buf + 1) := ⟨by omega, by omega⟩
        rw [induction on, next]
        apply if_congr _ rfl rfl
        omega
      · -- the first byte is the last one of the page
        have behind : buf + 1 = 0x08400000#32 := by
          apply BitVec.eq_of_toNat_eq
          rw [next]
          change buf.toNat + 1 = 0x08400000
          omega
        cases rest with
        | nil =>
            rw [if_pos (by simp; omega)]
            rfl
        | cons other rest =>
            rw [if_neg (by simp; omega), behind, faultAddress, storeAddresses]
            exact List.find?_cons_of_pos (by decide)

theorem faultAddress_programStart (bytes : List Byte) :
    faultAddress programStart bytes =
      if bytes.length ≤ 0x3B8000 then none else some 0x08400000#32 := by
  have start : programStart.toNat = 0x08048000 := rfl
  rw [faultAddress_of_onUserPage (by decide), start]
  apply if_congr _ rfl rfl
  omega

end Store

/-- How control goes on after `execute`. -/
inductive ExecuteEnding where
  | returns (value : Int) (next : Kernel)
  | starts (started : Started) (next : Kernel)
  | pageFault (address : Word)

/-- How control goes on after `vidmap`. -/
inductive VidmapEnding where
  | returns (value : Int) (next : Kernel) (store : Option UserStore)
  | pageFault (address : Word)

/-- The bytes of a word in memory. -/
def wordBytes (word : Word) : List Byte :=
  [word.extractLsb' 0 8, word.extractLsb' 8 8, word.extractLsb' 16 8, word.extractLsb' 24 8]

namespace Kernel

/-- `execute` with the load of the program: the file is copied before the process is
entered. -/
def executeEnding (s : Kernel) (frame : Frame) (locals : Locals)
    (commandUser : Nat → Byte) : Option ExecuteEnding :=
  (s.execute frame locals commandUser).map fun
    | .returns value next => .returns value next
    | .starts started next =>
        match faultAddress programStart started.image with
        | none => .starts started next
        | some address => .pageFault address

/-- `vidmap` with its store, which is its last statement. -/
def vidmapEnding (s : Kernel) (frame : Frame) (locals : Locals) (screenStart : Word) :
    Option VidmapEnding :=
  (s.vidmap frame locals screenStart).map fun (next, value, store) =>
    match store.bind fun store => faultAddress store.address (wordBytes store.value) with
    | none => .returns value next store
    | some address => .pageFault address

variable {s next : Kernel} {frame : Frame} {locals : Locals} {commandUser : Nat → Byte}
  {started : Started}

theorem executeEnding_eq_starts :
    s.executeEnding frame locals commandUser = some (.starts started next) ↔
      s.execute frame locals commandUser = some (.starts started next) ∧
        started.image.length ≤ 0x3B8000 := by
  rw [executeEnding, Option.map_eq_some_iff]
  constructor
  · rintro ⟨result, executes, ends⟩
    cases result with
    | returns value after => cases ends
    | starts other after =>
        simp only [faultAddress_programStart] at ends
        by_cases fits : other.image.length ≤ 0x3B8000
        · rw [if_pos fits] at ends
          cases ends
          exact ⟨executes, fits⟩
        · rw [if_neg fits] at ends
          cases ends
  · rintro ⟨executes, fits⟩
    refine ⟨_, executes, ?_⟩
    simp only [faultAddress_programStart, if_pos fits]

theorem executeEnding_eq_pageFault
    (executes : s.execute frame locals commandUser = some (.starts started next)) :
    s.executeEnding frame locals commandUser = some (.pageFault 0x08400000#32) ↔
      0x3B8000 < started.image.length := by
  rw [executeEnding, executes]
  simp only [Option.map_some, faultAddress_programStart]
  by_cases fits : started.image.length ≤ 0x3B8000
  · simp [fits]
  · simp [fits, Nat.not_le.mp fits]

end Kernel

end LightweightOs
