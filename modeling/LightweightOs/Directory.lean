import LightweightOs.Library.Terminated
import LightweightOs.FileStreams
import Mathlib.Data.List.GetD
import Mathlib.Data.List.TakeWhile

/-!
# Names in the directory

A stored name fills its 32 bytes or ends with a NUL before.  Looking a name up
compares it with `strncmp` over the 32 bytes, after a test of its length, and
finds exactly the entries with that name.  `dir_read` copies a name to the
first NUL it meets, which for a name of 32 bytes lies behind the name.
-/

namespace LightweightOs

open Terminated

theorem strncmpFrom_eq_zero {s1 s2 : Nat → Byte} {index count : Nat} :
    strncmpFrom s1 s2 index count = 0 ↔ text nul s1 index count = text nul s2 index count := by
  induction count generalizing index with
  | zero => simp [strncmpFrom, text]
  | succ count induction =>
      rw [strncmpFrom, text, text]
      by_cases same : s1 index = s2 index
      · by_cases ended : s1 index = nul
        · rw [if_pos (.inr ended), if_pos ended, if_pos (same ▸ ended), same]
          simp
        · have goesOn : ¬(s1 index ≠ s2 index ∨ s1 index = nul) := by
            rintro (differ | last)
            · exact differ same
            · exact ended last
          have otherGoesOn : s2 index ≠ nul := same ▸ ended
          rw [if_neg goesOn, induction, if_neg ended, if_neg otherGoesOn, same,
            List.cons.injEq]
          simp
      · have nonzero : (s1 index).toInt - (s2 index).toInt ≠ 0 := by
          intro zero
          exact same (BitVec.toInt_inj.mp (by omega))
        rw [if_pos (.inl same)]
        constructor
        · intro zero
          exact (nonzero zero).elim
        · intro sameText
          split at sameText
          case isTrue first =>
            split at sameText
            case isTrue second => exact (same (first.trans second.symm)).elim
            case isFalse => cases sameText
          case isFalse =>
            split at sameText
            · cases sameText
            · exact (same (List.cons_eq_cons.mp sameText).1).elim

theorem cString_ends (string : List Byte) :
    cString string (string.takeWhile (· ≠ nul)).length = nul := by
  rw [cString]
  induction string with
  | nil => rfl
  | cons first rest induction =>
      by_cases ended : first = nul
      · rw [List.takeWhile_cons_of_neg (by simpa using ended)]
        exact ended
      · rw [List.takeWhile_cons_of_pos (by simpa using ended), List.length_cons,
          List.getD_cons_succ]
        exact induction

theorem text_cString {string : List Byte} {width : Nat}
    (fits : (string.takeWhile (· ≠ nul)).length ≤ width) :
    text nul (cString string) 0 width = string.takeWhile (· ≠ nul) := by
  have isPrefix := List.takeWhile_prefix (l := string) (· ≠ nul)
  symm
  apply Holds.eq_text
  constructor
  case plain =>
    intro member
    have plain := List.mem_takeWhile_imp member
    simp at plain
  case fits => exact fits
  case stored =>
    intro i inside
    have within := Nat.lt_of_lt_of_le inside isPrefix.length_le
    rw [Nat.zero_add, cString, List.getD_eq_getElem _ _ within]
    exact (isPrefix.getElem inside).symm
  case ends =>
    intro _
    rw [Nat.zero_add]
    exact cString_ends string

namespace FileSystem

/-- The name of the entry at `index`. -/
def storedName (fs : FileSystem) (index : Nat) : List Byte :=
  text nul
    (fun position => fs.image (dirEntryOffset (BitVec.ofNat 32 index) +
      BitVec.ofNat 32 position)) 0 maxFileName

/-- `read_dentry_by_name` with the entry it is given: its return value and `*dentry`. -/
def readDentryByNameInto (fs : FileSystem) (fname : Option (List Byte))
    (dentry : DirEntry) : Int × DirEntry :=
  match fs.readDentryByName fname with
  | none => (-1, dentry)
  | some (index, found) => (index.toInt, found)

/-- The entry at `index` has the name, and no entry before it. -/
def FirstNamed (fs : FileSystem) (name : List Byte) (index : Nat) : Prop :=
  index < fs.numDirEntries.toNat ∧ fs.storedName index = name ∧
    ∀ earlier < index, fs.storedName earlier ≠ name

/-- No entry can be found: the name is NULL, empty, too long, or no entry's. -/
def Nameless (fs : FileSystem) (fname : Option (List Byte)) : Prop :=
  ∀ string ∈ fname, string.takeWhile (· ≠ nul) = [] ∨
    maxFileName < (string.takeWhile (· ≠ nul)).length ∨
    ∀ index < fs.numDirEntries.toNat, fs.storedName index ≠ string.takeWhile (· ≠ nul)

variable {fs : FileSystem}

theorem searchDentry_first {string : List Byte} {start left : Nat}
    (fits : (string.takeWhile (· ≠ nul)).length ≤ maxFileName)
    (covers : start + left = fs.numDirEntries.toNat) :
    match fs.searchDentry string (BitVec.ofNat 32 start) left with
    | none => ∀ index, start ≤ index → index < fs.numDirEntries.toNat →
        fs.storedName index ≠ string.takeWhile (· ≠ nul)
    | some (found, dentry) => ∃ index, start ≤ index ∧ index < fs.numDirEntries.toNat ∧
        fs.storedName index = string.takeWhile (· ≠ nul) ∧
        (∀ earlier, start ≤ earlier → earlier < index →
          fs.storedName earlier ≠ string.takeWhile (· ≠ nul)) ∧
        found = BitVec.ofNat 32 index ∧ dentry = fs.dirEntry found := by
  induction left generalizing start with
  | zero =>
      rw [searchDentry]
      intro index atLeast inside
      omega
  | succ left induction =>
      have bound := fs.numDirEntries.isLt
      have isStart : (BitVec.ofNat 32 start).toNat = start := by
        rw [BitVec.toNat_ofNat]
        omega
      have next : BitVec.ofNat 32 start + 1 = BitVec.ofNat 32 (start + 1) := by
        rw [BitVec.ofNat_add]
        rfl
      have compares : strncmp (cString string)
          (fun position => fs.image (dirEntryOffset (BitVec.ofNat 32 start) +
            BitVec.ofNat 32 position)) maxFileName = 0 ↔
          fs.storedName start = string.takeWhile (· ≠ nul) := by
        rw [strncmp, strncmpFrom_eq_zero, text_cString fits, storedName]
        exact eq_comm
      rw [searchDentry]
      by_cases named : fs.storedName start = string.takeWhile (· ≠ nul)
      · have inside : ¬fs.numDirEntries ≤ BitVec.ofNat 32 start := by
          rw [BitVec.le_def, isStart]
          omega
        rw [if_pos (compares.mpr named), readDentryByIndex, if_neg inside]
        refine ⟨start, Nat.le_refl _, by omega, named, ?_, rfl, rfl⟩
        intro earlier atLeast before
        omega
      · rw [if_neg (mt compares.mp named), next]
        have later := @induction (start + 1) (by omega)
        split
        case h_1 none =>
          rw [none] at later
          intro index atLeast inside
          rcases Nat.eq_or_lt_of_le atLeast with rfl | after
          · exact named
          · exact later index after inside
        case h_2 found dentry some =>
          rw [some] at later
          obtain ⟨index, atLeast, inside, isName, first, isFound⟩ := later
          refine ⟨index, by omega, inside, isName, ?_, isFound⟩
          intro earlier fromStart before
          rcases Nat.eq_or_lt_of_le fromStart with rfl | after
          · exact named
          · exact first earlier after before

theorem strlen_eq (string : List Byte) :
    strlen string = (string.takeWhile (· ≠ nul)).length := rfl

end FileSystem

/-- A name is found at the first entry that has it, in a directory of at most 63 entries;
otherwise the call fails and leaves the entry it was given. -/
theorem name_lookup {fs : FileSystem} (few : fs.numDirEntries.toNat ≤ 63)
    (fname : Option (List Byte)) (dentry : DirEntry) :
    (fs.Nameless fname → fs.readDentryByNameInto fname dentry = (-1, dentry)) ∧
      (¬fs.Nameless fname → ∃ string index, fname = some string ∧
        fs.FirstNamed (string.takeWhile (· ≠ nul)) index ∧
        fs.readDentryByNameInto fname dentry =
          ((index : Int), fs.dirEntry (BitVec.ofNat 32 index))) := by
  cases fname with
  | none =>
      constructor
      · intro _
        rfl
      · intro named
        exact (named (by simp [FileSystem.Nameless])).elim
  | some string =>
      rw [FileSystem.readDentryByNameInto, FileSystem.readDentryByName]
      simp only [FileSystem.Nameless, Option.mem_def, Option.some.injEq, forall_eq']
      by_cases refused : strlen string < 1 ∨ strlen string > maxFileName
      · rw [if_pos refused]
        rw [FileSystem.strlen_eq] at refused
        constructor
        · intro _
          rfl
        · intro named
          rcases refused with empty | long
          · exact (named (.inl (List.length_eq_zero_iff.mp (by omega)))).elim
          · exact (named (.inr (.inl long))).elim
      · rw [if_neg refused]
        rw [FileSystem.strlen_eq] at refused
        have fits : (string.takeWhile (· ≠ nul)).length ≤ maxFileName := by omega
        have search := @FileSystem.searchDentry_first fs string 0
          fs.numDirEntries.toNat fits (by omega)
        have zero : BitVec.ofNat 32 0 = (0 : Word) := rfl
        rw [zero] at search
        split at search
        case h_1 =>
          constructor
          · intro _
            rfl
          · intro named
            exact (named (.inr (.inr fun index => search index (Nat.zero_le _)))).elim
        case h_2 found entry _ =>
          obtain ⟨index, _, inside, isName, first, rfl, rfl⟩ := search
          constructor
          · rintro (empty | long | none)
            · rw [empty] at refused
              simp at refused
            · omega
            · exact (none index inside isName).elim
          · intro _
            refine ⟨string, index, rfl, ⟨inside, isName, ?_⟩, ?_⟩
            · exact fun earlier before => first earlier (Nat.zero_le _) before
            · have small : (BitVec.ofNat 32 index).toNat = index := by
                rw [BitVec.toNat_ofNat]
                omega
              rw [BitVec.toInt_eq_toNat_of_lt (by omega), small]

theorem name_lookup_sampleFs :
    ∃ string index, some shellName = some string ∧
      sampleFs.FirstNamed (string.takeWhile (· ≠ nul)) index ∧
      sampleFs.readDentryByNameInto (some shellName) (sampleFs.dirEntry 5) =
        ((index : Int), sampleFs.dirEntry (BitVec.ofNat 32 index)) := by
  apply (name_lookup (by decide) (some shellName) (sampleFs.dirEntry 5)).2
  intro nameless
  rcases nameless shellName rfl with empty | long | none
  · revert empty
    decide
  · revert long
    decide
  · exact none 0 (by decide) (by decide)

/-- The offsets in its directory entry that the copy loop of `dir_read` looks at. -/
def DirEntry.nameOffsets (dentry : DirEntry) (stack : Nat → Byte) (i : Nat) : Nat → List Nat
  | 0 => []
  | left + 1 =>
      if dentry.byteAt stack i = nul then [i]
      else i :: dentry.nameOffsets stack (i + 1) left

namespace DirEntry

variable {dentry : DirEntry} {stack : Nat → Byte}

theorem copyName_eq (i left : Nat) :
    dentry.copyName stack i left = text nul (dentry.byteAt stack) i left := by
  induction left generalizing i with
  | zero => rfl
  | succ left induction => rw [copyName, text, induction]

/-- The loop stays inside the first `width` bytes when it has no more turns or meets a NUL
there. -/
theorem nameOffsets_inside {width i left : Nat} (within : i ≤ width) :
    (∀ offset ∈ dentry.nameOffsets stack i left, offset < width) ↔
      i + left ≤ width ∨ (text nul (dentry.byteAt stack) i (width - i)).length < width - i := by
  induction left generalizing i with
  | zero => simp [nameOffsets, within]
  | succ left induction =>
      rw [nameOffsets]
      rcases Nat.eq_or_lt_of_le within with rfl | before
      · rw [Nat.sub_self]
        constructor
        · intro inside
          have here : i < i := by
            apply inside
            split <;> simp
          exact (Nat.lt_irrefl i here).elim
        · rintro (fits | short) <;> omega
      · have more : width - i = (width - (i + 1)) + 1 := by omega
        rw [more, text]
        by_cases ended : dentry.byteAt stack i = nul
        · simp [ended, before]
        · rw [if_neg ended, if_neg ended]
          simp only [List.mem_cons, forall_eq_or_imp, before, true_and, List.length_cons]
          rw [induction (by omega)]
          omega

end DirEntry

namespace FileSystem

variable {fs : FileSystem}

/-- The offsets looked at in a call of `dir_read`. -/
def dirReadOffsets (fs : FileSystem) (file : FileDescriptor) (nbytes : Word)
    (stack : Nat → Byte) : List Nat :=
  match fs.readDentryByIndex file.filePosition with
  | none => []
  | some dentry => dentry.nameOffsets stack 0 nbytes.toNat

theorem text_byteAt (index : Nat) (stack : Nat → Byte) :
    text nul ((fs.dirEntry (BitVec.ofNat 32 index)).byteAt stack) 0 32 =
      fs.storedName index := by
  apply text_congr
  intro i inside
  rw [Nat.zero_add, DirEntry.byteAt, dif_pos inside]
  rfl

end FileSystem

/-- A call of `dir_read` on one descriptor. -/
structure DirCall where
  file : FileDescriptor
  nbytes : Word
  stack : Nat → Byte

namespace DirCall

def result (fs : FileSystem) (call : DirCall) : FileResult :=
  dirRead fs call.file call.nbytes call.stack

/-- The call lists the entry at `index`, or ends the listing behind the last one. -/
def Lists (fs : FileSystem) (index : Nat) (call : DirCall) : Prop :=
  if index < fs.numDirEntries.toNat then
    (call.result fs).value =
        (min call.nbytes.toNat (fs.storedName index).length : Nat) ∧
      (call.result fs).stored = (fs.storedName index).take call.nbytes.toNat ∧
      ∀ offset ∈ fs.dirReadOffsets call.file call.nbytes call.stack, offset < maxFileName
  else
    (call.result fs).value = 0 ∧ (call.result fs).stored = [] ∧
      fs.dirReadOffsets call.file call.nbytes call.stack = []

variable {fs : FileSystem} {call : DirCall}

/-- The position goes on to the next entry, and from the end back to the first. -/
theorem position (position : call.file.filePosition.toNat ≤ fs.numDirEntries.toNat) :
    (call.result fs).file.filePosition.toNat =
      (call.file.filePosition.toNat + 1) % (fs.numDirEntries.toNat + 1) := by
  have bound := fs.numDirEntries.isLt
  rw [result, dirRead]
  by_cases ended : fs.numDirEntries ≤ call.file.filePosition
  · rw [if_pos ended]
    rw [BitVec.le_def] at ended
    rw [show call.file.filePosition.toNat + 1 = fs.numDirEntries.toNat + 1 by omega,
      Nat.mod_self]
    rfl
  · have next : (call.file.filePosition + 1).toNat =
        (call.file.filePosition.toNat + 1) % (fs.numDirEntries.toNat + 1) := by
      rw [BitVec.le_def] at ended
      rw [Nat.mod_eq_of_lt (by omega)]
      exact toNat_add_one (by omega)
    rw [if_neg ended]
    dsimp only
    split <;> exact next

/-- The call lists an entry unless its name fills the field and more is asked for. -/
theorem lists_iff :
    call.Lists fs call.file.filePosition.toNat ↔
      (call.file.filePosition.toNat < fs.numDirEntries.toNat →
        (fs.storedName call.file.filePosition.toNat).length = maxFileName →
          call.nbytes.toNat ≤ maxFileName) := by
  have isIndex : BitVec.ofNat 32 call.file.filePosition.toNat = call.file.filePosition := by
    rw [BitVec.ofNat_toNat, BitVec.setWidth_eq]
  have isName := @FileSystem.text_byteAt fs call.file.filePosition.toNat call.stack
  rw [isIndex] at isName
  rw [Lists]
  by_cases inside : call.file.filePosition.toNat < fs.numDirEntries.toNat
  · have notEnded : ¬fs.numDirEntries ≤ call.file.filePosition := by
      rw [BitVec.le_def]
      omega
    have found : fs.readDentryByIndex call.file.filePosition =
        some (fs.dirEntry call.file.filePosition) := by
      rw [FileSystem.readDentryByIndex, if_neg notEnded]
    have value : call.result fs =
        ⟨(BitVec.ofNat 32 ((fs.dirEntry call.file.filePosition).copyName call.stack 0
            call.nbytes.toNat).length).toInt,
          (fs.dirEntry call.file.filePosition).copyName call.stack 0 call.nbytes.toNat,
          { call.file with filePosition := call.file.filePosition + 1 }⟩ := by
      rw [result, dirRead, if_neg notEnded]
      dsimp only
      rw [found]
    have atMost : (fs.storedName call.file.filePosition.toNat).length ≤ 32 := text_length_le
    have offsets : (∀ offset ∈ fs.dirReadOffsets call.file call.nbytes call.stack,
        offset < maxFileName) ↔ call.nbytes.toNat ≤ 32 ∨
          (fs.storedName call.file.filePosition.toNat).length < 32 := by
      rw [FileSystem.dirReadOffsets, found, ← isName]
      have inField := @DirEntry.nameOffsets_inside (fs.dirEntry call.file.filePosition)
        call.stack 32 0 call.nbytes.toNat (by omega)
      rwa [Nat.zero_add] at inField
    have copies : call.nbytes.toNat ≤ 32 ∨
        (fs.storedName call.file.filePosition.toNat).length < 32 →
          (fs.dirEntry call.file.filePosition).copyName call.stack 0 call.nbytes.toNat =
            (fs.storedName call.file.filePosition.toNat).take call.nbytes.toNat := by
      intro fits
      rw [DirEntry.copyName_eq, ← isName]
      rcases Nat.lt_or_ge 32 call.nbytes.toNat with wide | narrow
      · have short : (fs.storedName call.file.filePosition.toNat).length < 32 := by omega
        rw [← isName] at short
        rw [text_of_short (Nat.le_of_lt wide) short, List.take_of_length_le (by omega)]
      · exact text_take narrow
    rw [if_pos inside, value, offsets, maxFileName]
    constructor
    · rintro ⟨_, _, fits⟩ _ isFull
      omega
    · intro fits
      have within : call.nbytes.toNat ≤ 32 ∨
          (fs.storedName call.file.filePosition.toNat).length < 32 := by
        by_contra outside
        exact outside (.inl (fits inside (by omega)))
      have copied := copies within
      refine ⟨?_, copied, within⟩
      have small : (BitVec.ofNat 32 ((fs.storedName call.file.filePosition.toNat).take
          call.nbytes.toNat).length).toNat =
            min call.nbytes.toNat (fs.storedName call.file.filePosition.toNat).length := by
        rw [BitVec.toNat_ofNat, List.length_take]
        omega
      dsimp only
      rw [copied, BitVec.toInt_eq_toNat_of_lt (by omega), small]
  · have ended : fs.numDirEntries ≤ call.file.filePosition := by
      rw [BitVec.le_def]
      omega
    rw [if_neg inside, result, dirRead, if_pos ended, FileSystem.dirReadOffsets,
      FileSystem.readDentryByIndex, if_pos ended]
    simp [inside]

end DirCall

/-- The calls that a list of requests makes on one descriptor. -/
def dirCalls (fs : FileSystem) (file : FileDescriptor) :
    List (Word × (Nat → Byte)) → List DirCall
  | [] => []
  | (nbytes, stack) :: rest =>
      let call : DirCall := ⟨file, nbytes, stack⟩
      call :: dirCalls fs (call.result fs).file rest

theorem dirCalls_length {fs : FileSystem} {file : FileDescriptor}
    {requests : List (Word × (Nat → Byte))} :
    (dirCalls fs file requests).length = requests.length := by
  induction requests generalizing file with
  | nil => rfl
  | cons request rest induction => rw [dirCalls, List.length_cons, induction, List.length_cons]

/-- Every call finds the position that the number of calls before it gives. -/
theorem dirCalls_position {fs : FileSystem} {file : FileDescriptor}
    {requests : List (Word × (Nat → Byte))}
    (start : file.filePosition.toNat ≤ fs.numDirEntries.toNat) {k : Nat} {call : DirCall}
    (isCall : (dirCalls fs file requests)[k]? = some call) :
    call.file.filePosition.toNat =
        (file.filePosition.toNat + k) % (fs.numDirEntries.toNat + 1) ∧
      requests[k]? = some (call.nbytes, call.stack) := by
  induction requests generalizing file k with
  | nil => simp [dirCalls] at isCall
  | cons request rest induction =>
      rw [dirCalls] at isCall
      cases k with
      | zero =>
          rw [List.getElem?_cons_zero, Option.some.injEq] at isCall
          subst isCall
          rw [Nat.add_zero, Nat.mod_eq_of_lt (by omega)]
          exact ⟨rfl, rfl⟩
      | succ k =>
          have moved : (DirCall.result fs ⟨file, request.1, request.2⟩).file.filePosition.toNat =
              (file.filePosition.toNat + 1) % (fs.numDirEntries.toNat + 1) :=
            DirCall.position start
          have bound : (file.filePosition.toNat + 1) % (fs.numDirEntries.toNat + 1) <
              fs.numDirEntries.toNat + 1 := by
            apply Nat.mod_lt
            omega
          rw [List.getElem?_cons_succ] at isCall
          obtain ⟨isPosition, isRequest⟩ := induction (by rw [moved]; omega) isCall
          refine ⟨?_, isRequest⟩
          rw [isPosition, moved, Nat.mod_add_mod]
          congr 1
          omega

/-- A fresh descriptor lists the entries round and round, exactly when no request for a
name of 32 bytes is longer than the name. -/
theorem directory_listing (fs : FileSystem) {file : FileDescriptor}
    (fresh : file.filePosition = 0) (requests : List (Word × (Nat → Byte))) :
    (∀ (k : Nat) (call : DirCall), (dirCalls fs file requests)[k]? = some call →
        call.Lists fs (k % (fs.numDirEntries.toNat + 1))) ↔
      ∀ (k : Nat) (nbytes : Word) (stack : Nat → Byte),
        requests[k]? = some (nbytes, stack) →
        k % (fs.numDirEntries.toNat + 1) < fs.numDirEntries.toNat →
          (fs.storedName (k % (fs.numDirEntries.toNat + 1))).length = maxFileName →
            nbytes.toNat ≤ maxFileName := by
  have start : file.filePosition.toNat = 0 := by
    rw [fresh]
    rfl
  have positions : ∀ {k : Nat} {call : DirCall}, (dirCalls fs file requests)[k]? = some call →
      call.file.filePosition.toNat = k % (fs.numDirEntries.toNat + 1) ∧
        requests[k]? = some (call.nbytes, call.stack) := by
    intro k call isCall
    have position := dirCalls_position (by omega) isCall
    rwa [start, Nat.zero_add] at position
  constructor
  · intro lists k nbytes stack isRequest inside isFull
    have within : k < (dirCalls fs file requests).length := by
      rw [dirCalls_length]
      exact (List.getElem?_eq_some_iff.mp isRequest).1
    obtain ⟨call, isCall⟩ : ∃ call, (dirCalls fs file requests)[k]? = some call :=
      ⟨_, List.getElem?_eq_getElem within⟩
    obtain ⟨isPosition, same⟩ := positions isCall
    have isSame := same.symm.trans isRequest
    simp only [Option.some.injEq, Prod.mk.injEq] at isSame
    have listed := lists k call isCall
    rw [← isPosition] at listed inside isFull
    rw [← isSame.1]
    exact DirCall.lists_iff.mp listed inside isFull
  · intro fits k call isCall
    obtain ⟨isPosition, isRequest⟩ := positions isCall
    rw [← isPosition]
    apply DirCall.lists_iff.mpr
    intro inside isFull
    rw [isPosition] at inside isFull
    exact fits k call.nbytes call.stack isRequest inside isFull

instance (fs : FileSystem) (index : Nat) (call : DirCall) :
    Decidable (call.Lists fs index) := by
  unfold DirCall.Lists
  infer_instance

/-- Two requests on the directory of the sample: its entry, then the end. -/
def sampleRequests : List (Word × (Nat → Byte)) := [(100, fun _ => 1), (100, fun _ => 1)]

theorem directory_listing_sampleFs :
    ∃ first second, dirCalls sampleFs stdinFd sampleRequests = [first, second] ∧
      first.Lists sampleFs 0 ∧ second.Lists sampleFs 1 := by
  have lists := (@directory_listing sampleFs stdinFd rfl sampleRequests).mpr (by
    intro k nbytes stack _ inside isFull
    have first : k % (sampleFs.numDirEntries.toNat + 1) = 0 := Nat.lt_one_iff.mp inside
    have isShort : (sampleFs.storedName 0).length ≠ maxFileName := by decide
    rw [first] at isFull
    exact (isShort isFull).elim)
  exact ⟨_, _, rfl, lists 0 _ rfl, lists 1 _ rfl⟩

/-- One regular file whose name fills its field. -/
def longNameFs : FileSystem where
  image := fun offset =>
    if offset = 0 then 1 else if offset = 96 then 2
    else if 64 ≤ offset ∧ offset < 96 then 0x61 else 0

/-- A request of 33 bytes for a name of 32 also gets the type of the file. -/
theorem directory_listing_longName :
    ¬∀ (fs : FileSystem) (file : FileDescriptor) (requests : List (Word × (Nat → Byte))),
      fs.numDirEntries.toNat ≤ 63 →
      (∀ index < fs.numDirEntries.toNat, fs.storedName index ≠ []) →
      file.filePosition = 0 → (∀ request ∈ requests, 1 ≤ request.1.toInt) →
      ∀ (k : Nat) (call : DirCall), (dirCalls fs file requests)[k]? = some call →
        call.Lists fs (k % (fs.numDirEntries.toNat + 1)) := by
  intro lists
  have listed := lists longNameFs stdinFd [(33, fun _ => 0)] (by decide) (by decide) rfl
    (by decide) 0 _ rfl
  revert listed
  decide

end LightweightOs
