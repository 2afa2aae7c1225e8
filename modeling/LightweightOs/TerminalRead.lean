import LightweightOs.PendingLine

/-!
# The count of terminal_read

`terminal_read` copies up to and including the final `'\0'` and returns one less
than it copied.  A request that ends before the `'\0'` is counted one too low,
and a newline in the byte after the row, where the next terminal's line begins,
adds one.
-/

namespace LightweightOs

namespace Tty

/-- The displayed terminal's row holds a completed line. -/
structure Completed (t : Tty) (line : List Byte) : Prop where
  text : ∀ k : Nat, ∀ c, (line ++ [nul])[k]? = some c → t.line t.row k = c
  plain : nul ∉ line
  ended : line.getLast? = some newline
  length : line.length ≤ 126

/-- A request for `bytes` bytes is answered with the bytes of the line; the copied bytes
are stored in the caller's buffer from its first place on. -/
structure ReadsLine (t : Tty) (line : List Byte) (bytes : Int) : Prop where
  inside : (t.terminalReadLine bytes).2.1.length ≤ bytes
  count : (t.terminalReadLine bytes).2.2 = min bytes line.length
  copied : ∀ k : Nat, (k : Int) < (t.terminalReadLine bytes).2.2 →
    k < line.length ∧ (t.terminalReadLine bytes).2.1[k]? = (line)[k]?

section Copy

variable {t : Tty} {line : List Byte}

/-- The loop copies the line and its `'\0'`, or as much of them as is asked for. -/
theorem copyLine_take (t : Tty) (text : List Byte) (left start : Nat) (plain : nul ∉ text)
    (held : ∀ k : Nat, ∀ c, (text ++ [nul])[k]? = some c →
      t.line t.row (start + k : Nat) = c) :
    (t.copyLine start left).2 = (text ++ [nul]).take left := by
  induction left generalizing t text start with
  | zero => rfl
  | succ left induction =>
      cases text with
      | nil =>
          have isNul : t.load start = nul := held 0 nul rfl
          simp [copyLine, isNul]
      | cons c rest =>
          have isChar : t.load start = c := held 0 c rfl
          rw [List.mem_cons, not_or] at plain
          have notNul : c ≠ nul := Ne.symm plain.1
          have later := induction ((t.touch start).touch start) rest (start + 1) plain.2 (by
            intro k d found
            have here := held (k + 1) d found
            rw [show start + 1 + k = start + (k + 1) by omega]
            exact here)
          push_cast at later
          simp only [copyLine, isChar, if_neg notNul, List.cons_append, List.take_succ_cons]
          rw [later]

theorem terminalReadLine_output (t : Tty) (bytes : Int) :
    (t.terminalReadLine bytes).2.1 = (t.copyLine 0 bytes.toNat).2 ∧
      (t.terminalReadLine bytes).2.2 =
        if t.load 127 = newline then ((t.copyLine 0 bytes.toNat).2.length : Int)
        else ((t.copyLine 0 bytes.toNat).2.length : Int) - 1 := by
  have sameLoad : ((t.copyLine 0 bytes.toNat).1.touch 127).load 127 = t.load 127 := by
    rw [copyLine_eq]
    rfl
  simp only [terminalReadLine, sameLoad]
  split
  · exact ⟨rfl, by simp⟩
  · exact ⟨rfl, rfl⟩

theorem Completed.output (completed : t.Completed line) (bytes : Int) :
    (t.copyLine 0 bytes.toNat).2 = (line ++ [nul]).take bytes.toNat := by
  apply copyLine_take t line bytes.toNat 0 completed.plain
  intro k c found
  rw [Nat.zero_add]
  exact completed.text k c found

end Copy

theorem terminal_read_count {t : Tty} {line : List Byte} (completed : t.Completed line)
    {bytes : Int} (positive : 1 ≤ bytes) :
    t.ReadsLine line bytes ↔ ((line.length : Int) < bytes ↔ t.load 127 ≠ newline) := by
  obtain ⟨output, value⟩ := t.terminalReadLine_output bytes
  rw [completed.output] at output value
  have size : ((line ++ [nul]).take bytes.toNat).length =
      min bytes.toNat (line.length + 1) := by
    rw [List.length_take, List.length_append, List.length_singleton]
  rw [size] at value
  constructor
  · intro reads
    have count := reads.count
    rw [value] at count
    split at count
    case isTrue marked =>
      simp only [marked, ne_eq, not_true_eq_false, iff_false]
      omega
    case isFalse unmarked =>
      simp only [unmarked, ne_eq, not_false_eq_true, iff_true]
      omega
  · intro fits
    have count : (t.terminalReadLine bytes).2.2 = min bytes line.length := by
      rw [value]
      split
      case isTrue marked =>
        have short := mt fits.mp (not_not.mpr marked)
        omega
      case isFalse unmarked =>
        have long := fits.mpr unmarked
        omega
    constructor
    case inside =>
      rw [output, size]
      omega
    case count => exact count
    case copied =>
      intro k below
      rw [count] at below
      have inLine : k < line.length := by omega
      refine ⟨inLine, ?_⟩
      rw [output, List.getElem?_take_of_lt (by omega), List.getElem?_append_left inLine]

/-- The user types a letter and Enter. -/
def sampleCompleted : Tty :=
  (sampleTty.keyboardInit.keyPress ⟨1, 1⟩ letterA).keyPress ⟨1, 1⟩ ScanCode.enter

theorem sampleCompleted_completed : sampleCompleted.Completed [0x61#8, newline] where
  text := by
    intro k c found
    have stored : ∀ j < 3, sampleCompleted.line sampleCompleted.row (j : Nat) =
        ([0x61#8, newline] ++ [nul]).getD j nul := by decide +kernel
    obtain ⟨bound, isChar⟩ := List.getElem?_eq_some_iff.mp found
    rw [stored k bound, List.getD_eq_getElem?_getD, found, Option.getD_some]
  plain := by decide
  ended := rfl
  length := by decide

theorem terminal_read_count_three : sampleCompleted.ReadsLine [0x61#8, newline] 3 :=
  (terminal_read_count sampleCompleted_completed (by decide)).mpr (by decide +kernel)

/-- A request for as many bytes as the line has is counted one too low. -/
theorem terminal_read_counts_less :
    ¬∀ (t : Tty) (line : List Byte) (bytes : Int), t.Completed line → 1 ≤ bytes →
      t.ReadsLine line bytes := by
  intro reads
  have count := (reads _ _ 2 sampleCompleted_completed (by decide)).count
  have less : (sampleCompleted.terminalReadLine 2).2.2 = 1 := by decide +kernel
  rw [less] at count
  exact absurd count (by decide)

end Tty

end LightweightOs
