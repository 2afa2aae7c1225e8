import Mathlib.Data.List.Basic
import Mathlib.Data.Nat.Find

/-!
# Texts in fields of memory

A field is a number of consecutive places in memory.  Its text is what stands
before the first terminator, or the whole field when it holds none, as in a
record with a fixed-width name.
-/

namespace Terminated

variable {α : Type*} [DecidableEq α] {stop : α} {memory : Nat → α} {start width : Nat}

/-- The text of the field of `width` places from `start` on. -/
def text (stop : α) (memory : Nat → α) (start : Nat) : Nat → List α
  | 0 => []
  | width + 1 =>
      if memory start = stop then []
      else memory start :: text stop memory (start + 1) width

/-- The field holds these elements, and a terminator after them if there is room. -/
structure Holds (stop : α) (memory : Nat → α) (start width : Nat) (elements : List α) :
    Prop where
  plain : stop ∉ elements
  fits : elements.length ≤ width
  stored : ∀ i (inside : i < elements.length), memory (start + i) = elements[i]
  ends : elements.length < width → memory (start + elements.length) = stop

theorem text_holds (stop : α) (memory : Nat → α) (start width : Nat) :
    Holds stop memory start width (text stop memory start width) := by
  induction width generalizing start with
  | zero => exact ⟨by simp [text], by simp [text], by simp [text], by simp [text]⟩
  | succ width induction =>
      rw [text]
      by_cases ended : memory start = stop
      · rw [if_pos ended]
        exact ⟨by simp, by simp, by simp, fun _ => ended⟩
      · rw [if_neg ended]
        obtain ⟨plain, fits, stored, ends⟩ := induction (start + 1)
        constructor
        case plain =>
          intro member
          rcases List.mem_cons.mp member with here | later
          · exact ended here.symm
          · exact plain later
        case fits =>
          rw [List.length_cons]
          omega
        case stored =>
          intro i inside
          cases i with
          | zero => rfl
          | succ i =>
              have later := stored i (by simpa using inside)
              rw [List.getElem_cons_succ]
              exact (congrArg memory (by omega)).trans later
        case ends =>
          intro room
          rw [List.length_cons] at room ⊢
          have later := ends (by omega)
          exact (congrArg memory (by omega)).trans later

theorem Holds.eq_text {elements : List α} (holds : Holds stop memory start width elements) :
    elements = text stop memory start width := by
  induction width generalizing start elements with
  | zero =>
      have empty := List.length_eq_zero_iff.mp (Nat.le_zero.mp holds.fits)
      rw [empty, text]
  | succ width induction =>
      obtain ⟨plain, fits, stored, ends⟩ := holds
      rw [text]
      cases elements with
      | nil =>
          have ended := ends (by simp)
          rw [if_pos (by simpa using ended)]
      | cons first rest =>
          have here : memory start = first := stored 0 (by simp)
          have goesOn : first ≠ stop := by
            rintro rfl
            exact plain List.mem_cons_self
          rw [here, if_neg goesOn]
          congr 1
          apply induction
          constructor
          case plain => exact fun member => plain (List.mem_cons_of_mem _ member)
          case fits => simpa using fits
          case stored =>
            intro i inside
            have later := stored (i + 1) (by simpa using inside)
            rw [List.getElem_cons_succ] at later
            exact (congrArg memory (by omega)).trans later
          case ends =>
            intro room
            have later := ends (by simpa using room)
            rw [List.length_cons] at later
            exact (congrArg memory (by omega)).trans later

theorem text_length_le : (text stop memory start width).length ≤ width :=
  (text_holds stop memory start width).fits

theorem text_take {narrow : Nat} (within : narrow ≤ width) :
    text stop memory start narrow = (text stop memory start width).take narrow := by
  have holds := text_holds stop memory start width
  symm
  apply Holds.eq_text
  constructor
  case plain => exact fun member => holds.plain (List.mem_of_mem_take member)
  case fits =>
    rw [List.length_take]
    omega
  case stored =>
    intro i inside
    rw [List.getElem_take]
    apply holds.stored
  case ends =>
    intro room
    rw [List.length_take] at room ⊢
    have short : (text stop memory start width).length < narrow := by omega
    rw [Nat.min_eq_right (by omega)]
    exact holds.ends (by omega)

theorem text_of_short {wide : Nat} (within : width ≤ wide)
    (short : (text stop memory start width).length < width) :
    text stop memory start wide = text stop memory start width := by
  have holds := text_holds stop memory start width
  symm
  apply Holds.eq_text
  exact ⟨holds.plain, by omega, holds.stored, fun _ => holds.ends short⟩

theorem text_congr {other : Nat → α}
    (same : ∀ i < width, other (start + i) = memory (start + i)) :
    text stop other start width = text stop memory start width := by
  have holds := text_holds stop memory start width
  symm
  apply Holds.eq_text
  constructor
  case plain => exact holds.plain
  case fits => exact holds.fits
  case stored =>
    intro i inside
    rw [same i (by have := holds.fits; omega)]
    exact holds.stored i inside
  case ends =>
    intro room
    rw [same _ room]
    exact holds.ends room

section Scan

variable {β : Type*} {goesOn : β → Bool} {cells : Nat → β} {first last fuel : Nat}

/-- The places that a loop looks at which starts at `first` and goes on while the cell lets
it, in at most `fuel` turns. -/
def scan (goesOn : β → Bool) (cells : Nat → β) (first : Nat) : Nat → List Nat
  | 0 => []
  | fuel + 1 =>
      first :: if goesOn (cells first) then scan goesOn cells (first + 1) fuel else []

/-- The place where the loop leaves; `none` while it is still going on. -/
def scanEnd (goesOn : β → Bool) (cells : Nat → β) (first : Nat) : Nat → Option Nat
  | 0 => none
  | fuel + 1 =>
      if goesOn (cells first) then scanEnd goesOn cells (first + 1) fuel else some first

/-- The cells from `first` on let the loop go on up to `last`, where it leaves. -/
structure Stops (goesOn : β → Bool) (cells : Nat → β) (first last : Nat) : Prop where
  ordered : first ≤ last
  leaves : goesOn (cells last) = false
  before : ∀ place, first ≤ place → place < last → goesOn (cells place) = true

theorem Stops.tail (stops : Stops goesOn cells first last)
    (onward : goesOn (cells first) = true) : Stops goesOn cells (first + 1) last := by
  constructor
  case ordered =>
    rcases Nat.eq_or_lt_of_le stops.ordered with rfl | less
    · rw [stops.leaves] at onward
      cases onward
    · exact less
  case leaves => exact stops.leaves
  case before =>
    intro place atLeast less
    exact stops.before place (by omega) less

theorem Stops.eq_of_leaves (stops : Stops goesOn cells first last)
    (leaves : goesOn (cells first) = false) : last = first := by
  rcases Nat.eq_or_lt_of_le stops.ordered with same | less
  · exact same.symm
  · rw [stops.before first (Nat.le_refl _) less] at leaves
    cases leaves

theorem Stops.mem_scan (stops : Stops goesOn cells first last) {place : Nat}
    (member : place ∈ scan goesOn cells first fuel) : first ≤ place ∧ place ≤ last := by
  induction fuel generalizing first with
  | zero => cases member
  | succ fuel induction =>
      rw [scan] at member
      rcases List.mem_cons.mp member with rfl | later
      · exact ⟨Nat.le_refl _, stops.ordered⟩
      · split at later
        case isTrue onward =>
          obtain ⟨atLeast, atMost⟩ := induction (stops.tail onward) later
          exact ⟨by omega, atMost⟩
        case isFalse => cases later

theorem Stops.scanEnd_eq (stops : Stops goesOn cells first last) {place : Nat}
    (ended : scanEnd goesOn cells first fuel = some place) : place = last := by
  induction fuel generalizing first with
  | zero => cases ended
  | succ fuel induction =>
      rw [scanEnd] at ended
      split at ended
      case isTrue onward => exact induction (stops.tail onward) ended
      case isFalse leaves =>
        cases ended
        exact (stops.eq_of_leaves (by simpa using leaves)).symm

theorem Stops.scanEnd_some (stops : Stops goesOn cells first last)
    (enough : last < first + fuel) : scanEnd goesOn cells first fuel = some last := by
  induction fuel generalizing first with
  | zero =>
      have ordered := stops.ordered
      omega
  | succ fuel induction =>
      rw [scanEnd]
      by_cases onward : goesOn (cells first) = true
      · rw [if_pos onward]
        exact induction (stops.tail onward) (by omega)
      · rw [if_neg onward, stops.eq_of_leaves (by simpa using onward)]

theorem mem_scan_of_onward {place : Nat} (ordered : first ≤ place)
    (onward : ∀ earlier, first ≤ earlier → earlier < place → goesOn (cells earlier) = true)
    (enough : place < first + fuel) : place ∈ scan goesOn cells first fuel := by
  induction fuel generalizing first with
  | zero => omega
  | succ fuel induction =>
      rw [scan]
      rcases Nat.eq_or_lt_of_le ordered with rfl | less
      · exact List.mem_cons_self
      · rw [if_pos (onward first (Nat.le_refl _) less)]
        apply List.mem_cons_of_mem
        apply induction less
        · intro earlier atLeast before
          exact onward earlier (by omega) before
        · omega

/-- A cell that does not let the loop go on makes it leave there or before. -/
theorem exists_stops {place : Nat} (ordered : first ≤ place)
    (leaves : goesOn (cells place) = false) :
    ∃ last ≤ place, Stops goesOn cells first last := by
  have some : ∃ last, first ≤ last ∧ goesOn (cells last) = false := ⟨place, ordered, leaves⟩
  obtain ⟨atLeast, ends⟩ := Nat.find_spec some
  refine ⟨Nat.find some, Nat.find_min' some ⟨ordered, leaves⟩, atLeast, ends, ?_⟩
  intro earlier fromFirst before
  have minimal := Nat.find_min some before
  by_contra stopped
  exact minimal ⟨fromFirst, by simpa using stopped⟩

end Scan

end Terminated
