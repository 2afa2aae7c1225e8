import Mathlib.Logic.Function.Basic
import Mathlib.Algebra.Group.Nat.Defs

/-!
# Machine words and the constants of the kernel headers

Bytes and 32-bit words are bit vectors.  C `int` variables that stay small
(process identifiers, terminal numbers, cursors, buffer indices) are integers.
Arrays are functions of an integer index, so that an access outside an array is
representable.
-/

namespace LightweightOs

abbrev Byte := BitVec 8

abbrev Word := BitVec 32

/-- `array[index] = value` -/
abbrev assign {ι : Type} [DecidableEq ι] {α : Type} (array : ι → α) (index : ι)
    (value : α) : ι → α :=
  Function.update array index value

theorem assign_self {ι : Type} [DecidableEq ι] {α : Type} (array : ι → α) (index : ι)
    (value : α) : assign array index value index = value :=
  Function.update_self index value array

theorem assign_of_ne {ι : Type} [DecidableEq ι] {α : Type} {index other : ι}
    (different : other ≠ index) (array : ι → α) (value : α) :
    assign array index value other = array other :=
  Function.update_of_ne different value array

theorem toNat_add_one {word : Word} (notLast : word.toNat + 1 < 2 ^ 32) :
    (word + 1).toNat = word.toNat + 1 := by
  have one : (1 : Word).toNat = 1 := rfl
  rw [BitVec.toNat_add, one]
  exact Nat.mod_eq_of_lt notLast

theorem add_one_add_ofNat (word : Word) (i : Nat) :
    word + 1 + BitVec.ofNat 32 i = word + BitVec.ofNat 32 (i + 1) := by
  rw [BitVec.add_assoc, BitVec.ofNat_add, BitVec.add_comm (BitVec.ofNat 32 i)]
  rfl

def maxThreads : Int := 4

def baseMem : Word := 0x800000#32

def pcbMem : Word := 0x2000#32

def numTerminals : Int := 3

def bufferSize : Int := 127

def maxLine : Int := 73

def tabSpace : Int := 4

def fourKb : Int := 4096

def fOffset : Byte := 0x3A#8

def argsBufferSize : Nat := 1024

def vidMem : Word := 0x8800000#32

def userStack : Word := 0x8400000#32

def vidPdtIdx : Nat := 34

def vidMemPhysical : Word := 0xB8000#32

def kernelDs : BitVec 16 := 0x18#16

def nul : Byte := 0#8

def tab : Byte := 9#8

def newline : Byte := 10#8

def carriageReturn : Byte := 13#8

def space : Byte := 32#8

/-- The bytes of a C string literal. -/
def ascii (text : String) : List Byte := text.toList.map fun c => BitVec.ofNat 8 c.toNat

end LightweightOs
