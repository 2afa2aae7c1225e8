import Mathlib.Data.List.Basic
import Mathlib.Logic.Function.Basic
import Mathlib.Data.Int.Order.Basic

/-!
# Terminated strings in memory

A string is stored from a place on, with a terminator behind it.  Reading one
from its first place to the terminator follows the list constructors, and a
string is reversed in place by mirroring the places between its ends.
-/

namespace Strings

variable {α : Type*} {stop : α} {memory other : Int → α} {start : Int} {text : List α}

/-- The memory holds the text from `start` on, and the terminator behind it. -/
structure Spells (stop : α) (memory : Int → α) (start : Int) (text : List α) : Prop where
  plain : stop ∉ text
  stored : ∀ (i : Nat) (inside : i < text.length), memory (start + i) = text[i]
  ends : memory (start + text.length) = stop

theorem spells_nil : Spells stop memory start [] ↔ memory start = stop := by
  constructor
  · intro spells
    simpa using spells.ends
  · intro ended
    exact ⟨by simp, fun i inside => by simp at inside, by simpa using ended⟩

theorem spells_cons {c : α} {rest : List α} :
    Spells stop memory start (c :: rest) ↔
      c ≠ stop ∧ memory start = c ∧ Spells stop memory (start + 1) rest := by
  have place : ∀ i : Nat, start + 1 + (i : Int) = start + ((i + 1 : Nat) : Int) := by
    intro i
    push_cast
    omega
  constructor
  · rintro ⟨plain, stored, ends⟩
    rw [List.mem_cons, not_or] at plain
    have first := stored 0 (by simp)
    refine ⟨Ne.symm plain.1, by simpa using first, plain.2, ?_, ?_⟩
    · intro i inside
      rw [place]
      exact stored (i + 1) (by simpa using inside)
    · rw [place]
      exact ends
  · rintro ⟨notStop, first, plain, stored, ends⟩
    constructor
    case plain =>
      rw [List.mem_cons, not_or]
      exact ⟨Ne.symm notStop, plain⟩
    case stored =>
      intro i inside
      cases i with
      | zero => simpa using first
      | succ i =>
          rw [← place]
          exact stored i (by simpa using inside)
    case ends =>
      rw [List.length_cons, ← place]
      exact ends

theorem Spells.unique {found : List α} (spells : Spells stop memory start text)
    (finds : Spells stop memory start found) : found = text := by
  induction text generalizing start found with
  | nil =>
      have ended := spells_nil.mp spells
      cases found with
      | nil => rfl
      | cons c rest =>
          obtain ⟨notStop, here, _⟩ := spells_cons.mp finds
          exact absurd (here.symm.trans ended) notStop
  | cons c rest induction =>
      obtain ⟨notStop, here, later⟩ := spells_cons.mp spells
      cases found with
      | nil => exact absurd (here.symm.trans (spells_nil.mp finds)) notStop
      | cons c' rest' =>
          obtain ⟨_, here', later'⟩ := spells_cons.mp finds
          rw [induction later later', ← here, ← here']

theorem Spells.congr (spells : Spells stop memory start text)
    (same : ∀ place, start ≤ place → place ≤ start + text.length →
      other place = memory place) : Spells stop other start text where
  plain := spells.plain
  stored := by
    intro i inside
    rw [same _ (by omega) (by omega)]
    exact spells.stored i inside
  ends := by
    rw [same _ (by omega) le_rfl]
    exact spells.ends

theorem Spells.append {pre post : List α} (plain : stop ∉ pre)
    (stored : ∀ (i : Nat) (inside : i < pre.length), memory (start + i) = pre[i])
    (spells : Spells stop memory (start + pre.length) post) :
    Spells stop memory start (pre ++ post) := by
  induction pre generalizing start with
  | nil => simpa using spells
  | cons c rest induction =>
      rw [List.mem_cons, not_or] at plain
      have first := stored 0 (by simp)
      rw [List.cons_append, spells_cons]
      refine ⟨Ne.symm plain.1, by simpa using first, induction plain.2 ?_ ?_⟩
      · intro i inside
        have later := stored (i + 1) (by simpa using inside)
        rw [List.getElem_cons_succ] at later
        rw [← later]
        congr 1
        push_cast
        omega
      · have place : start + 1 + (rest.length : Int) = start + ((c :: rest).length : Int) := by
          rw [List.length_cons]
          push_cast
          omega
        rw [place]
        exact spells

/-- The text has been stored from `start` on, and nothing else has changed. -/
structure Stores (memory after : Int → α) (start : Int) (text : List α) : Prop where
  stored : ∀ (i : Nat) (inside : i < text.length), after (start + i) = text[i]
  kept : ∀ place, place < start ∨ start + text.length ≤ place → after place = memory place

theorem Stores.nil (memory : Int → α) (start : Int) : Stores memory memory start [] where
  stored := by
    intro i inside
    simp at inside
  kept := fun _ _ => rfl

theorem Stores.cons {after : Int → α} {c : α} {rest : List α}
    (later : Stores (Function.update memory start c) after (start + 1) rest) :
    Stores memory after start (c :: rest) where
  stored := by
    intro i inside
    cases i with
    | zero =>
        have first := later.kept start (.inl (by omega))
        rw [Function.update_self] at first
        simpa using first
    | succ i =>
        have here := later.stored i (by simpa using inside)
        rw [List.getElem_cons_succ, ← here]
        congr 1
        push_cast
        omega
  kept := by
    intro place outside
    rw [List.length_cons] at outside
    push_cast at outside
    rw [later.kept place (by omega), Function.update_of_ne (by omega)]

theorem Stores.spells {after : Int → α} (stores : Stores memory after start text)
    (plain : stop ∉ text) :
    Spells stop (Function.update after (start + text.length) stop) start text where
  plain := plain
  stored := by
    intro i inside
    rw [Function.update_of_ne (by omega)]
    exact stores.stored i inside
  ends := by rw [Function.update_self]

/-- The places from `first` to `last` in the opposite order. -/
def mirror (memory : Int → α) (first last : Int) : Int → α := fun place =>
  if first ≤ place ∧ place ≤ last then memory (first + last - place) else memory place

theorem mirror_of_le {first last : Int} (short : last ≤ first) :
    mirror memory first last = memory := by
  funext place
  rw [mirror]
  split
  case isTrue inside =>
    congr 1
    omega
  case isFalse => rfl

theorem mirror_exchange {first last : Int} (long : first < last) :
    mirror (Function.update (Function.update memory last (memory first)) first
      (memory last)) (first + 1) (last - 1) = mirror memory first last := by
  funext place
  simp only [mirror, Function.update_apply]
  by_cases atFirst : place = first
  · subst atFirst
    rw [if_neg (by omega), if_pos rfl, if_pos (by omega)]
    congr 1
    omega
  by_cases atLast : place = last
  · subst atLast
    rw [if_neg (by omega), if_neg atFirst, if_pos rfl, if_pos (by omega)]
    congr 1
    omega
  by_cases inside : first + 1 ≤ place ∧ place ≤ last - 1
  · rw [if_pos inside, if_neg (by omega), if_neg (by omega), if_pos (by omega)]
    congr 1
    omega
  · rw [if_neg inside, if_neg atFirst, if_neg atLast, if_neg (by omega)]

theorem mirror_outside {first last place : Int} (outside : place < first ∨ last < place) :
    mirror memory first last place = memory place := by
  rw [mirror, if_neg (by omega)]

theorem Spells.mirror (spells : Spells stop memory start text) :
    Spells stop (mirror memory start (start + text.length - 1)) start text.reverse where
  plain := by
    rw [List.mem_reverse]
    exact spells.plain
  stored := by
    intro i inside
    rw [List.length_reverse] at inside
    have here : start ≤ start + (i : Int) ∧
        start + (i : Int) ≤ start + text.length - 1 := by omega
    have place : start + (start + text.length - 1) - (start + (i : Int)) =
        start + ((text.length - 1 - i : Nat) : Int) := by omega
    rw [Strings.mirror, if_pos here, place, spells.stored _ (by omega),
      List.getElem_reverse]
  ends := by
    rw [List.length_reverse, Strings.mirror, if_neg (by omega)]
    exact spells.ends

end Strings
