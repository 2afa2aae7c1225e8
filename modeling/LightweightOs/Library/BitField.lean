import Mathlib.Logic.Function.Basic
import Mathlib.Algebra.Group.Nat.Defs

/-!
# Packed bit fields of a word

`field` reads `len` bits from bit `start` on; `setField` stores a value there
and keeps every other bit, as an assignment to a member of a packed structure
does.  A stored field reads back, and storing one field leaves the disjoint
ones alone, so the contents of an assembled word follow by `simp`.
-/

namespace BitField

variable {width len len' : Nat}

def field (word : BitVec width) (start len : Nat) : BitVec len :=
  word.extractLsb' start len

def setField (word : BitVec width) (start : Nat) (value : BitVec len) :
    BitVec width :=
  (word &&& ~~~((BitVec.allOnes len).setWidth width <<< start)) |||
    (value.setWidth width <<< start)

theorem getLsbD_setField
    (word : BitVec width) (start : Nat) (value : BitVec len) (index : Nat)
    (inside : index < width) :
    (setField word start value).getLsbD index =
      if start ≤ index ∧ index < start + len
      then value.getLsbD (index - start)
      else word.getLsbD index := by
  by_cases low : start ≤ index
  · have notBelow : ¬index < start := by omega
    by_cases high : index < start + len
    · have inField : index - start < len := by omega
      simp [setField, inside, low, high, notBelow, inField]
    · have outside : ¬index - start < len := by omega
      have clear : value.getLsbD (index - start) = false :=
        BitVec.getLsbD_of_ge _ _ (by omega)
      simp [setField, inside, low, high, notBelow, outside, clear]
  · have below : index < start := by omega
    simp [setField, inside, low, below]

@[simp] theorem field_setField_self
    (word : BitVec width) (start : Nat) (value : BitVec len)
    (fits : start + len ≤ width) :
    field (setField word start value) start len = value := by
  apply BitVec.eq_of_getLsbD_eq
  intro index inside
  have inWord : start + index < width := by omega
  simp [field, getLsbD_setField _ _ _ _ inWord, inside]

theorem field_setField_of_disjoint
    (word : BitVec width) (start start' : Nat) (value : BitVec len)
    (disjoint : start' + len' ≤ start ∨ start + len ≤ start')
    (fits : start' + len' ≤ width) :
    field (setField word start value) start' len' = field word start' len' := by
  apply BitVec.eq_of_getLsbD_eq
  intro index inside
  have inWord : start' + index < width := by omega
  have outside : ¬(start ≤ start' + index ∧ start' + index < start + len) := by
    omega
  simp [field, getLsbD_setField _ _ _ _ inWord, inside, outside]

/-- A value for the member of `len` bits that begins at bit `start`. -/
structure Member where
  start : Nat
  len : Nat
  value : BitVec len

/-- Assign the members one after the other, to a word that holds something already. -/
def assemble (word : BitVec width) (members : List Member) : BitVec width :=
  members.foldl (fun word member => setField word member.start member.value) word

/-- The bit belongs to a member that is assigned. -/
def Covers (members : List Member) (index : Nat) : Prop :=
  ∃ member ∈ members, member.start ≤ index ∧ index < member.start + member.len

@[simp] theorem assemble_nil (word : BitVec width) : assemble word [] = word := rfl

@[simp] theorem assemble_cons (word : BitVec width) (member : Member)
    (rest : List Member) :
    assemble word (member :: rest) =
      assemble (setField word member.start member.value) rest := rfl

theorem covers_cons {member : Member} {rest : List Member} {index : Nat} :
    Covers (member :: rest) index ↔
      (member.start ≤ index ∧ index < member.start + member.len) ∨ Covers rest index := by
  simp [Covers]

theorem covers_iff_places {members : List Member} {index : Nat} :
    Covers members index ↔
      ∃ place ∈ members.map fun member => (member.start, member.len),
        place.1 ≤ index ∧ index < place.1 + place.2 := by
  simp [Covers]

theorem getLsbD_assemble_of_not_covers {members : List Member} {index : Nat}
    (inside : index < width) (outside : ¬Covers members index) (word : BitVec width) :
    (assemble word members).getLsbD index = word.getLsbD index := by
  induction members generalizing word with
  | nil => rfl
  | cons member rest induction =>
      rw [covers_cons, not_or] at outside
      rw [assemble_cons, induction outside.2, getLsbD_setField _ _ _ _ inside,
        if_neg outside.1]

theorem getLsbD_assemble_of_covers {members : List Member} {index : Nat}
    (inside : index < width) (covers : Covers members index) (word other : BitVec width) :
    (assemble word members).getLsbD index = (assemble other members).getLsbD index := by
  induction members generalizing word other with
  | nil =>
      obtain ⟨_, member, _⟩ := covers
      cases member
  | cons member rest induction =>
      rw [assemble_cons, assemble_cons]
      by_cases later : Covers rest index
      · exact induction later _ _
      · have here := (covers_cons.mp covers).resolve_right later
        rw [getLsbD_assemble_of_not_covers inside later,
          getLsbD_assemble_of_not_covers inside later, getLsbD_setField _ _ _ _ inside,
          getLsbD_setField _ _ _ _ inside, if_pos here, if_pos here]

/-- Two words come out the same exactly if they agree where nothing is assigned. -/
theorem assemble_eq_iff (word other : BitVec width) (members : List Member) :
    assemble word members = assemble other members ↔
      ∀ index < width, ¬Covers members index →
        word.getLsbD index = other.getLsbD index := by
  constructor
  · intro same index inside outside
    have bit := congrArg (fun result => result.getLsbD index) same
    rwa [getLsbD_assemble_of_not_covers inside outside,
      getLsbD_assemble_of_not_covers inside outside] at bit
  · intro agree
    apply BitVec.eq_of_getLsbD_eq
    intro index inside
    by_cases covers : Covers members index
    · exact getLsbD_assemble_of_covers inside covers word other
    · rw [getLsbD_assemble_of_not_covers inside covers,
        getLsbD_assemble_of_not_covers inside covers]
      exact agree index inside covers

/-- The highest bit of a word and of its predecessor differ only when the word
is a power of two. -/
theorem toNat_eq_twoPow_of_and_pred
    (word : BitVec width) {k : Nat} (low : 2 ^ k ≤ word.toNat)
    (high : word.toNat < 2 ^ (k + 1))
    (single : word &&& (word - BitVec.ofNat width 1) = BitVec.ofNat width 0) :
    word.toNat = 2 ^ k := by
  have bound := word.isLt
  have positive : 0 < 2 ^ k := Nat.two_pow_pos k
  have inWord : k < width := by
    apply (Nat.pow_lt_pow_iff_right (by decide : 1 < 2)).mp
    omega
  have double : 2 ^ (k + 1) = 2 * 2 ^ k := by rw [Nat.pow_succ, Nat.mul_comm]
  have one : (BitVec.ofNat width 1).toNat = 1 := by
    rw [BitVec.toNat_ofNat]
    exact Nat.mod_eq_of_lt (Nat.one_lt_two_pow (by omega))
  have pred : (word - BitVec.ofNat width 1).toNat = word.toNat - 1 := by
    rw [BitVec.toNat_sub_of_le, one]
    rw [BitVec.le_def, one]
    omega
  by_contra different
  have topBit : ∀ n, 2 ^ k ≤ n → n < 2 ^ (k + 1) → n.testBit k = true := by
    intro n atLeast below
    have quotient : n / 2 ^ k = 1 := by
      apply Nat.div_eq_of_lt_le <;> omega
    simp [Nat.testBit_eq_decide_div_mod_eq, quotient]
  have both : (word &&& (word - BitVec.ofNat width 1)).getLsbD k = true := by
    rw [BitVec.getLsbD_and, BitVec.getLsbD, BitVec.getLsbD, pred,
      topBit _ low high, topBit _ (by omega) (by omega), Bool.and_true]
  rw [single] at both
  simp at both

end BitField
