import Mathlib.Data.List.Basic

/-!
# Reading a sequence through a cursor

A read takes the next items behind the cursor and moves it past them; a read at
the end finds nothing and moves the cursor back to the start.  `Delivers` says
what a reader of the whole sequence may expect of any number of reads: each
piece continues exactly where the one before it stopped, and a new pass begins
after an empty read at the end.
-/

namespace Cursor

variable {α : Type*}

/-- One read of `size` items from `position`: the piece and the new position. -/
def read (contents : List α) (position size : Nat) : List α × Nat :=
  if contents.length ≤ position then ([], 0)
  else
    let piece := (contents.drop position).take size
    (piece, position + piece.length)

/-- `Delivers contents trace current` holds when the reads of the trace, oldest
first and each with its size, deliver the contents piece by piece, and `current`
is what the present pass has delivered so far. -/
inductive Delivers (contents : List α) : List (Nat × List α) → List α → Prop where
  | start : Delivers contents [] []
  | slice {trace : List (Nat × List α)} {current rest : List α} (size : Nat) :
      Delivers contents trace current →
      contents = current ++ rest →
      rest ≠ [] →
      Delivers contents (trace ++ [(size, rest.take size)]) (current ++ rest.take size)
  | restart {trace : List (Nat × List α)} (size : Nat) :
      Delivers contents trace contents →
      Delivers contents (trace ++ [(size, [])]) []

variable {contents current : List α} {trace : List (Nat × List α)}

theorem Delivers.isPrefix (delivers : Delivers contents trace current) :
    current <+: contents := by
  cases delivers with
  | start => exact List.nil_prefix
  | slice size earlier split _ =>
      rw [split, List.prefix_append_right_inj]
      exact List.take_prefix _ _
  | restart => exact List.nil_prefix

/-- Reading at the end of what has been delivered delivers the next piece. -/
theorem Delivers.read (delivers : Delivers contents trace current) (size : Nat) :
    ∃ later, Delivers contents
        (trace ++ [(size, (Cursor.read contents current.length size).1)]) later ∧
      (Cursor.read contents current.length size).2 = later.length := by
  obtain ⟨rest, split⟩ := delivers.isPrefix
  rw [Cursor.read]
  by_cases ended : contents.length ≤ current.length
  · rw [if_pos ended]
    have whole : current = contents :=
      (List.IsPrefix.eq_of_length_le ⟨rest, split⟩ ended)
    exact ⟨[], .restart size (whole ▸ delivers), rfl⟩
  · rw [if_neg ended]
    have more : rest ≠ [] := by
      rintro rfl
      exact ended (by simp [← split])
    have behind : contents.drop current.length = rest := by
      rw [← split, List.drop_left]
    simp only [behind]
    exact ⟨current ++ rest.take size, .slice size delivers split.symm more,
      by rw [List.length_append]⟩

end Cursor
