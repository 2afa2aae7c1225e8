import LightweightOs.Itoa
import LightweightOs.Library.Fuel

/-!
# printf

`printf` walks over its format with a pointer that it advances in three places:
at the end of its loop, behind a `%`, and behind a `#` on the way back to
`format_char_switch`.  The format is read here as a list of directives, each of
which prints a text and takes the arguments it is about.  The loop is in step
with that reading unless the terminator stands where a conversion character is
expected: the switch has no case for it, and the pointer moves past it.
-/

namespace LightweightOs

namespace Lib

open Strings Fuel

namespace Format

def percent : Byte := 0x25#8

def sharp : Byte := 0x23#8

def x : Byte := 0x78#8

def u : Byte := 0x75#8

def d : Byte := 0x64#8

def c : Byte := 0x63#8

def s : Byte := 0x73#8

def zero : Byte := 0x30#8

def minus : Byte := 0x2D#8

end Format

/-- The bytes `puts` prints, with `fuel` turns of its loop; it returns their
number. -/
def puts (memory : Int → Byte) (s : Int) : Nat → Option (List Byte)
  | 0 => none
  | fuel + 1 =>
      if memory s = nul then some []
      else (puts memory (s + 1) fuel).map (memory s :: ·)

/-- A call of `printf`: the memory the strings lie in, the format, the words on the
stack behind it, and what `conv_buf` holds before it is written. -/
structure PrintfCall where
  memory : Int → Byte
  format : Int
  stack : Nat → Word
  convBuf : Int → Byte

/-- The variables of `printf`, `esp` counted from the first word behind the format,
with the bytes it has printed and the places of the format it has read. -/
structure Printing where
  buf : Int
  esp : Nat
  output : List Byte
  reads : List Int
  deriving DecidableEq

/-- `*buf` -/
def Printing.read (p : Printing) : Printing := { p with reads := p.reads ++ [p.buf] }

/-- `buf++` -/
def Printing.advance (p : Printing) : Printing := { p with buf := p.buf + 1 }

def Printing.print (p : Printing) (text : List Byte) : Printing :=
  { p with output := p.output ++ text }

namespace PrintfCall

variable (call : PrintfCall)

/-- `%x` -/
def convertHex (alternate : Bool) (word : Word) (fuel : Nat) : Option (List Byte) :=
  if alternate = false then
    (itoa word call.convBuf 0 16).bind fun convBuf => puts convBuf 0 fuel
  else
    (itoa word call.convBuf 8 16).bind fun convBuf =>
      (strlen convBuf 8 fuel).bind fun startingIndex =>
        let padded := (List.range' startingIndex (8 - startingIndex)).foldl
          (fun convBuf (i : Nat) => assign convBuf (i : Int) Format.zero) convBuf
        puts padded startingIndex fuel

/-- `%u` -/
def convertUnsigned (word : Word) (fuel : Nat) : Option (List Byte) :=
  (itoa word call.convBuf 0 10).bind fun convBuf => puts convBuf 0 fuel

/-- `%d` -/
def convertSigned (value : Word) (fuel : Nat) : Option (List Byte) :=
  let converted :=
    if value.toInt < 0 then itoa (-value) (assign call.convBuf 0 Format.minus) 1 10
    else itoa value call.convBuf 0 10
  converted.bind fun convBuf => puts convBuf 0 fuel

/-- The cases of the inner switch that leave it: what is printed, and how many words
`esp` moves on. -/
def convert (alternate : Bool) (char : Byte) (esp : Nat) (fuel : Nat) :
    Option (List Byte × Nat) :=
  let word := call.stack esp
  if char = Format.percent then some ([Format.percent], 0)
  else if char = Format.x then (call.convertHex alternate word fuel).map (·, 1)
  else if char = Format.u then (call.convertUnsigned word fuel).map (·, 1)
  else if char = Format.d then (call.convertSigned word fuel).map (·, 1)
  else if char = Format.c then some ([word.setWidth 8], 1)
  else if char = Format.s then (puts call.memory word.toNat fuel).map (·, 1)
  else some ([], 0)

/-- The loop of `printf` with `fuel` turns, at the head of the `while` or, with
`alternate`, at `format_char_switch`. -/
def printfLoop : Option Bool → Printing → Nat → Option Printing
  | _, _, 0 => none
  | none, p, fuel + 1 =>
      let char := call.memory p.buf
      if char = nul then some p.read
      else if char = Format.percent then
        printfLoop (some false) p.read.advance fuel
      else printfLoop none (p.read.print [char]).advance fuel
  | some alternate, p, fuel + 1 =>
      let char := call.memory p.buf
      if char = Format.sharp then printfLoop (some true) p.read.advance fuel
      else
        (call.convert alternate char p.esp fuel).bind fun (text, words) =>
          printfLoop none { (p.read.print text).advance with esp := p.esp + words } fuel

def printf (fuel : Nat) : Option Printing :=
  call.printfLoop none ⟨call.format, 0, [], []⟩ fuel

end PrintfCall
inductive Directive where
  | literal (char : Byte)
  | hexadecimal
  | eightDigits
  | unsigned
  | signed
  | character
  | string
  | nothing

/-- The directive a conversion character ends, behind a `#` or not. -/
def Directive.of (alternate : Bool) (char : Byte) : Directive :=
  if char = Format.percent then .literal Format.percent
  else if char = Format.x then if alternate then .eightDigits else .hexadecimal
  else if char = Format.u then .unsigned
  else if char = Format.d then .signed
  else if char = Format.c then .character
  else if char = Format.s then .string
  else .nothing

/-- The conversions `x`, `u`, `d`, `c` and `s`. -/
def Directive.takesArgument : Directive → Bool
  | .literal _ => false
  | .nothing => false
  | _ => true

/-- The directives of a format, or of what is left of it behind a `%`. -/
def directives : Option Bool → List Byte → List Directive
  | _, [] => []
  | none, char :: rest =>
      if char = Format.percent then directives (some false) rest
      else .literal char :: directives none rest
  | some alternate, char :: rest =>
      if char = Format.sharp then directives (some true) rest
      else Directive.of alternate char :: directives none rest

/-- Whether a conversion character is expected behind a character of the format. -/
def modeAfter : Option Bool → Byte → Option Bool
  | none, char => if char = Format.percent then some false else none
  | some _, char => if char = Format.sharp then some true else none

/-- The format ends where a conversion character is expected: behind a `%`, or
behind the `#`s that follow one. -/
def endsOpen (mode : Option Bool) (format : List Byte) : Bool :=
  (format.foldl modeAfter mode).isSome

theorem endsOpen_sharps (mode : Option Bool) (format : List Byte) (sharps : Nat) :
    endsOpen mode format = true →
      endsOpen mode (format ++ List.replicate sharps Format.sharp) = true := by
  intro isOpen
  induction sharps with
  | zero => simpa using isOpen
  | succ sharps induction =>
      rw [List.replicate_succ', ← List.append_assoc, endsOpen, List.foldl_append]
      obtain ⟨alternate, reached⟩ := Option.isSome_iff_exists.mp induction
      rw [reached]
      rfl

/-- The conversion that is left open begins at a `%` outside the others and has only
`#`s behind it. -/
theorem endsOpen_iff (format : List Byte) :
    endsOpen none format = true ↔
      ∃ before sharps, endsOpen none before = false ∧
        format = before ++ [Format.percent] ++ List.replicate sharps Format.sharp := by
  constructor
  · intro isOpen
    induction format using List.reverseRecOn with
    | nil => cases isOpen
    | append_singleton rest char induction =>
        rw [endsOpen, List.foldl_append] at isOpen
        cases reached : rest.foldl modeAfter none with
        | none =>
            rw [reached, List.foldl_cons, modeAfter] at isOpen
            by_cases isPercent : char = Format.percent
            · refine ⟨rest, 0, ?_, ?_⟩
              · rw [endsOpen, reached]
                rfl
              · rw [isPercent, List.replicate_zero, List.append_nil]
            · rw [if_neg isPercent] at isOpen
              cases isOpen
        | some alternate =>
            rw [reached, List.foldl_cons, modeAfter] at isOpen
            by_cases isSharp : char = Format.sharp
            · have earlier : endsOpen none rest = true := by rw [endsOpen, reached]; rfl
              obtain ⟨before, sharps, closed, isRest⟩ := induction earlier
              refine ⟨before, sharps + 1, closed, ?_⟩
              rw [isRest, isSharp, List.replicate_succ', List.append_assoc _ _ [_]]
            · rw [if_neg isSharp] at isOpen
              cases isOpen
  · rintro ⟨before, sharps, closed, isFormat⟩
    rw [isFormat]
    apply endsOpen_sharps
    rw [endsOpen, Option.isSome_eq_false_iff, Option.isNone_iff_eq_none] at closed
    rw [endsOpen, List.foldl_append, closed]
    rfl

/-- The numeral of a word in hexadecimal, with zeros on the left up to eight
digits. -/
def eightDigits (word : Word) : List Byte :=
  ((Nat.digitsAppend 16 8 word.toNat).map digitChar).reverse

theorem eightDigits_length (word : Word) : (eightDigits word).length = 8 := by
  rw [eightDigits, List.length_reverse, List.length_map]
  exact Nat.length_digitsAppend (by decide) 8 word.isLt

/-- The decimal numeral of a signed number. -/
def signedNumeral (value : Int) : List Byte :=
  if value < 0 then Format.minus :: numeral 10 value.natAbs else numeral 10 value.natAbs

/-- The arguments a directive takes, and the text it prints. -/
inductive Directive.Prints (memory : Int → Byte) : Directive → List Word → List Byte → Prop
  | literal (char : Byte) : Prints memory (.literal char) [] [char]
  | hexadecimal (word : Word) : Prints memory .hexadecimal [word] (numeral 16 word.toNat)
  | eightDigits (word : Word) : Prints memory .eightDigits [word] (Lib.eightDigits word)
  | unsigned (word : Word) : Prints memory .unsigned [word] (numeral 10 word.toNat)
  | signed (word : Word) : Prints memory .signed [word] (signedNumeral word.toInt)
  | character (word : Word) : Prints memory .character [word] [word.setWidth 8]
  | string {word : Word} {text : List Byte} (spells : Spells nul memory word.toNat text) :
      Prints memory .string [word] text
  | nothing : Prints memory .nothing [] []

/-- The arguments match the directives, and the text is the concatenation of what
they print. -/
inductive Renders (memory : Int → Byte) : List Directive → List Word → List Byte → Prop
  | nil : Renders memory [] [] []
  | cons {first : Directive} {rest : List Directive} {args later : List Word}
      {text output : List Byte} (prints : first.Prints memory args text)
      (renders : Renders memory rest later output) :
      Renders memory (first :: rest) (args ++ later) (text ++ output)

theorem Directive.Prints.length {memory : Int → Byte} {directive : Directive}
    {args : List Word} {text : List Byte} (prints : directive.Prints memory args text) :
    args.length = if directive.takesArgument then 1 else 0 := by
  cases prints <;> rfl

theorem Renders.length {memory : Int → Byte} {list : List Directive} {args : List Word}
    {output : List Byte} (renders : Renders memory list args output) :
    args.length = list.countP Directive.takesArgument := by
  induction renders with
  | nil => rfl
  | cons prints _ induction =>
      rw [List.length_append, prints.length, induction, List.countP_cons, Nat.add_comm]

theorem puts_returns {memory : Int → Byte} {s : Int} {text : List Byte}
    (spells : Spells nul memory s text) : Returns (puts memory s) text := by
  induction text generalizing s with
  | nil =>
      rw [spells_nil] at spells
      apply Returns.spend _ (Returns.pure [])
      intro fuel
      rw [puts, if_pos spells]
  | cons char rest induction =>
      obtain ⟨notNul, first, later⟩ := spells_cons.mp spells
      apply Returns.spend _ ((induction later).map (char :: ·))
      intro fuel
      rw [puts, first, if_neg notNul]

theorem strlen_returns {memory : Int → Byte} {s : Int} {text : List Byte}
    (spells : Spells nul memory s text) : Returns (strlen memory s) text.length :=
  ⟨text.length + 1, fun _ enough => strlen_eq spells enough⟩

theorem padded_apply (convBuf : Int → Byte) (start count : Nat) (place : Int) :
    (List.range' start count).foldl
        (fun convBuf (i : Nat) => assign convBuf (i : Int) Format.zero) convBuf place =
      if start ≤ place ∧ place < start + count then Format.zero else convBuf place := by
  induction count with
  | zero => rw [List.range'_zero, List.foldl_nil, if_neg (by omega)]
  | succ count induction =>
      rw [List.range'_1_concat, List.foldl_append, List.foldl_cons, List.foldl_nil]
      by_cases last : place = ((start + count : Nat) : Int)
      · rw [last, assign_self, if_pos (by push_cast; omega)]
      · rw [assign_of_ne last, induction]
        push_cast at last ⊢
        split_ifs <;> first | rfl | (exfalso; omega)

/-- Eight digits are the numeral behind as many zeros as it is short of eight. -/
theorem eightDigits_eq (word : Word) :
    eightDigits word =
      List.replicate (8 - (numeral 16 word.toNat).length) Format.zero ++
        numeral 16 word.toNat := by
  by_cases isZero : word.toNat = 0
  · rw [eightDigits, numeral, if_pos isZero, isZero]
    rfl
  · rw [eightDigits, numeral, if_neg isZero, Nat.digitsAppend, List.map_append,
      List.reverse_append, List.map_replicate, List.reverse_replicate, List.length_reverse,
      List.length_map]
    rfl

theorem numeral_length_le (word : Word) : (numeral 16 word.toNat).length ≤ 8 := by
  have whole := congrArg List.length (eightDigits_eq word)
  rw [eightDigits_length, List.length_append, List.length_replicate] at whole
  omega

variable {call : PrintfCall}

theorem convertUnsigned_returns (word : Word) :
    Returns (call.convertUnsigned word) (numeral 10 word.toNat) := by
  obtain ⟨after, converted, spells, -⟩ :=
    @itoa_spells 10 (by decide) (by decide) word call.convBuf 0
  have afterwards : call.convertUnsigned word = puts after 0 := by
    funext fuel
    rw [PrintfCall.convertUnsigned, converted, Option.bind_some]
  rw [afterwards]
  exact puts_returns spells

theorem convertHex_returns (word : Word) :
    Returns (call.convertHex false word) (numeral 16 word.toNat) := by
  obtain ⟨after, converted, spells, -⟩ :=
    @itoa_spells 16 (by decide) (by decide) word call.convBuf 0
  have afterwards : call.convertHex false word = puts after 0 := by
    funext fuel
    rw [PrintfCall.convertHex, if_pos rfl, converted, Option.bind_some]
  rw [afterwards]
  exact puts_returns spells

/-- The zeros stand before the numeral, which begins at the eighth place. -/
theorem convertHex_alternate_returns (word : Word) :
    Returns (call.convertHex true word) (eightDigits word) := by
  obtain ⟨after, converted, spells, -⟩ :=
    @itoa_spells 16 (by decide) (by decide) word call.convBuf 8
  have short := numeral_length_le word
  have length := strlen_returns spells
  change Spells nul after 8 (numeral 16 word.toNat) at spells
  change Returns (strlen after 8) (numeral 16 word.toNat).length at length
  unfold PrintfCall.convertHex
  simp only [Bool.true_eq_false, if_false, converted, Option.bind_some]
  apply length.bind
  apply puts_returns
  rw [eightDigits_eq]
  apply Spells.append
  · intro member
    have isZero := List.eq_of_mem_replicate member
    exact absurd isZero (by decide)
  · intro i inside
    rw [List.length_replicate] at inside
    rw [padded_apply, if_pos (by omega), List.getElem_replicate]
  · have place : ((numeral 16 word.toNat).length : Int) +
        ((8 - (numeral 16 word.toNat).length : Nat) : Int) = 8 := by omega
    rw [List.length_replicate, place]
    apply spells.congr
    intro place low high
    rw [padded_apply, if_neg (by omega)]

theorem convertSigned_returns (word : Word) :
    Returns (call.convertSigned word) (signedNumeral word.toInt) := by
  by_cases negative : word.toInt < 0
  · obtain ⟨after, converted, spells, kept⟩ :=
      @itoa_spells 10 (by decide) (by decide) (-word) (assign call.convBuf 0 Format.minus) 1
    have magnitude : (-word).toNat = word.toInt.natAbs := by
      rw [BitVec.toInt_eq_toNat_cond] at negative ⊢
      rw [BitVec.toNat_neg]
      have small := word.isLt
      split at negative <;> omega
    have sign : after 0 = Format.minus := by
      rw [kept 0 (.inl (by decide)), assign_self]
    rw [magnitude] at spells
    have afterwards : call.convertSigned word = puts after 0 := by
      funext fuel
      rw [PrintfCall.convertSigned, if_pos negative, converted, Option.bind_some]
    rw [afterwards, signedNumeral, if_pos negative]
    apply puts_returns
    rw [spells_cons]
    exact ⟨by decide, sign, spells⟩
  · obtain ⟨after, converted, spells, -⟩ :=
      @itoa_spells 10 (by decide) (by decide) word call.convBuf 0
    have magnitude : word.toNat = word.toInt.natAbs := by
      rw [BitVec.toInt_eq_toNat_cond] at negative ⊢
      have small := word.isLt
      split at negative <;> omega
    rw [magnitude] at spells
    have afterwards : call.convertSigned word = puts after 0 := by
      funext fuel
      rw [PrintfCall.convertSigned, if_neg negative, converted, Option.bind_some]
    rw [afterwards, signedNumeral, if_neg negative]
    exact puts_returns spells

theorem convert_returns {alternate : Bool} {char : Byte} {esp : Nat} {args : List Word}
    {text : List Byte}
    (prints : (Directive.of alternate char).Prints call.memory args text)
    (arguments : ∀ (i : Nat) (inside : i < args.length), call.stack (esp + i) = args[i]) :
    Returns (call.convert alternate char esp) (text, args.length) := by
  unfold PrintfCall.convert
  unfold Directive.of at prints
  by_cases isPercent : char = Format.percent
  · simp only [isPercent, if_true] at prints ⊢
    cases prints with
    | literal => exact .pure _
  simp only [if_neg isPercent] at prints ⊢
  by_cases isX : char = Format.x
  · simp only [isX, if_true] at prints ⊢
    cases alternate with
    | false =>
        cases prints with
        | hexadecimal word =>
            rw [show call.stack esp = word from arguments 0 Nat.one_pos]
            exact (convertHex_returns word).map (·, 1)
    | true =>
        cases prints with
        | eightDigits word =>
            rw [show call.stack esp = word from arguments 0 Nat.one_pos]
            exact (convertHex_alternate_returns word).map (·, 1)
  simp only [if_neg isX] at prints ⊢
  by_cases isU : char = Format.u
  · simp only [isU, if_true] at prints ⊢
    cases prints with
    | unsigned word =>
        rw [show call.stack esp = word from arguments 0 Nat.one_pos]
        exact (convertUnsigned_returns word).map (·, 1)
  simp only [if_neg isU] at prints ⊢
  by_cases isD : char = Format.d
  · simp only [isD, if_true] at prints ⊢
    cases prints with
    | signed word =>
        rw [show call.stack esp = word from arguments 0 Nat.one_pos]
        exact (convertSigned_returns word).map (·, 1)
  simp only [if_neg isD] at prints ⊢
  by_cases isC : char = Format.c
  · simp only [isC, if_true] at prints ⊢
    cases prints with
    | character word =>
        rw [show call.stack esp = word from arguments 0 Nat.one_pos]
        exact .pure _
  simp only [if_neg isC] at prints ⊢
  by_cases isS : char = Format.s
  · simp only [isS, if_true] at prints ⊢
    cases prints with
    | @string word _ spells =>
        rw [show call.stack esp = word from arguments 0 Nat.one_pos]
        exact (puts_returns spells).map (·, 1)
  simp only [if_neg isS] at prints ⊢
  cases prints with
  | nothing => exact .pure _

/-- What has happened between two states of the loop: a part of the format has been
read and no more, and its directives have been carried out. -/
structure Advanced (p q : Printing) (length words : Nat) (output : List Byte) : Prop where
  buf : q.buf = p.buf + length
  esp : q.esp = p.esp + words
  output : q.output = p.output ++ output
  reads : ∀ place ∈ q.reads, place ∈ p.reads ∨ place ≤ p.buf + length

/-- The state of the loop behind a character that prints a text and takes words. -/
def Printing.after (p : Printing) (text : List Byte) (words : Nat) : Printing :=
  { (p.read.print text).advance with esp := p.esp + words }

theorem Advanced.step {p q : Printing} {length words later : Nat} {text output : List Byte}
    (rest : Advanced (p.after text words) q length later output) :
    Advanced p q (length + 1) (words + later) (text ++ output) where
  buf := by
    rw [rest.buf, Printing.after, Printing.advance]
    push_cast
    dsimp only [Printing.print, Printing.read]
    omega
  esp := by rw [rest.esp, Printing.after, Nat.add_assoc]
  output := by
    rw [rest.output, ← List.append_assoc]
    rfl
  reads := by
    intro place member
    rcases rest.reads place member with before | inside
    · change place ∈ p.reads ++ [p.buf] at before
      rw [List.mem_append, List.mem_singleton] at before
      rcases before with earlier | here
      · exact .inl earlier
      · right
        omega
    · change place ≤ p.buf + 1 + length at inside
      right
      push_cast
      omega

theorem Advanced.skip {p q : Printing} {length words : Nat} {output : List Byte}
    (rest : Advanced p.read.advance q length words output) :
    Advanced p q (length + 1) words output := by
  have same : p.after [] 0 = p.read.advance := by
    simp only [Printing.after, Printing.print, List.append_nil]
    rfl
  rw [← same] at rest
  simpa using rest.step

section Turns

variable {p q : Printing} {char : Byte}

theorem printfLoop_end (ends : call.memory p.buf = nul) :
    Returns (call.printfLoop none p) p.read ∧ Advanced p p.read 0 0 [] := by
  constructor
  · apply Returns.spend _ (Returns.pure p.read)
    intro fuel
    simp only [PrintfCall.printfLoop, ends, if_true]
  · constructor
    case buf => simp [Printing.read]
    case esp => simp [Printing.read]
    case output => simp [Printing.read]
    case reads =>
      intro place member
      rw [Printing.read, List.mem_append, List.mem_singleton] at member
      exact member.imp_right (by intro here; simp [here])

theorem printfLoop_percent (first : call.memory p.buf = Format.percent)
    (rest : Returns (call.printfLoop (some false) p.read.advance) q) :
    Returns (call.printfLoop none p) q := by
  apply Returns.spend _ rest
  intro fuel
  have notNul : Format.percent ≠ nul := by decide
  simp only [PrintfCall.printfLoop, first, if_neg notNul, if_true]

theorem printfLoop_char (first : call.memory p.buf = char) (notNul : char ≠ nul)
    (notPercent : char ≠ Format.percent)
    (rest : Returns (call.printfLoop none (p.after [char] 0)) q) :
    Returns (call.printfLoop none p) q := by
  apply Returns.spend _ rest
  intro fuel
  simp only [PrintfCall.printfLoop, first, if_neg notNul, if_neg notPercent]
  rfl

theorem printfLoop_sharp {alternate : Bool} (first : call.memory p.buf = Format.sharp)
    (rest : Returns (call.printfLoop (some true) p.read.advance) q) :
    Returns (call.printfLoop (some alternate) p) q := by
  apply Returns.spend _ rest
  intro fuel
  simp only [PrintfCall.printfLoop, first, if_true]

theorem printfLoop_convert {alternate : Bool} (first : call.memory p.buf = char)
    (notSharp : char ≠ Format.sharp) {text : List Byte} {words : Nat}
    (converted : Returns (call.convert alternate char p.esp) (text, words))
    (rest : Returns (call.printfLoop none (p.after text words)) q) :
    Returns (call.printfLoop (some alternate) p) q := by
  have goesOn := @Returns.bind _ _ _ _
    (fun result : List Byte × Nat => call.printfLoop none (p.after result.1 result.2)) q
    converted rest
  apply Returns.spend _ goesOn
  intro fuel
  simp only [PrintfCall.printfLoop, first, if_neg notSharp]
  rfl

theorem stack_append {esp : Nat} {taken args : List Word}
    (arguments : ∀ (i : Nat) (inside : i < (taken ++ args).length),
      call.stack (esp + i) = (taken ++ args)[i]) :
    (∀ (i : Nat) (inside : i < taken.length), call.stack (esp + i) = taken[i]) ∧
      ∀ (i : Nat) (inside : i < args.length),
        call.stack (esp + taken.length + i) = args[i] := by
  constructor
  · intro i inside
    have whole := arguments i (by rw [List.length_append]; omega)
    rw [List.getElem_append_left inside] at whole
    exact whole
  · intro i inside
    have whole := arguments (taken.length + i) (by rw [List.length_append]; omega)
    rw [List.getElem_append_right (by omega)] at whole
    simpa [Nat.add_assoc] using whole

end Turns

/-- A format that does not end inside a conversion is carried out to its end. -/
theorem printfLoop_returns {mode : Option Bool} {p : Printing} {text : List Byte}
    {args : List Word} {output : List Byte} (spells : Spells nul call.memory p.buf text)
    (closed : endsOpen mode text = false)
    (renders : Renders call.memory (directives mode text) args output)
    (arguments : ∀ (i : Nat) (inside : i < args.length), call.stack (p.esp + i) = args[i]) :
    ∃ q, Returns (call.printfLoop mode p) q ∧
      Advanced p q text.length args.length output := by
  induction text generalizing mode p args output with
  | nil =>
      cases mode with
      | some alternate => cases closed
      | none =>
          cases renders
          rw [spells_nil] at spells
          exact ⟨p.read, printfLoop_end spells⟩
  | cons char rest induction =>
      obtain ⟨notNul, first, later⟩ := spells_cons.mp spells
      cases mode with
      | none =>
          by_cases isPercent : char = Format.percent
          · rw [endsOpen, List.foldl_cons, modeAfter, if_pos isPercent] at closed
            rw [directives, if_pos isPercent] at renders
            obtain ⟨q, returns, advanced⟩ :=
              @induction (some false) p.read.advance args output later closed renders arguments
            exact ⟨q, printfLoop_percent (first.trans isPercent) returns, advanced.skip⟩
          · rw [endsOpen, List.foldl_cons, modeAfter, if_neg isPercent] at closed
            rw [directives, if_neg isPercent] at renders
            cases renders with
            | @cons _ _ _ args _ output prints renders =>
                cases prints
                obtain ⟨q, returns, advanced⟩ :=
                  @induction none (p.after [char] 0) args output later closed renders arguments
                refine ⟨q, printfLoop_char first notNul isPercent returns, ?_⟩
                simpa using advanced.step
      | some alternate =>
          by_cases isSharp : char = Format.sharp
          · rw [endsOpen, List.foldl_cons, modeAfter, if_pos isSharp] at closed
            rw [directives, if_pos isSharp] at renders
            obtain ⟨q, returns, advanced⟩ :=
              @induction (some true) p.read.advance args output later closed renders arguments
            exact ⟨q, printfLoop_sharp (first.trans isSharp) returns, advanced.skip⟩
          · rw [endsOpen, List.foldl_cons, modeAfter, if_neg isSharp] at closed
            rw [directives, if_neg isSharp] at renders
            cases renders with
            | @cons _ _ taken args text output prints renders =>
                obtain ⟨here, behind⟩ := stack_append arguments
                obtain ⟨q, returns, advanced⟩ :=
                  @induction none (p.after text taken.length) args output later closed
                    renders behind
                refine ⟨q, printfLoop_convert first isSharp (convert_returns prints here)
                  returns, ?_⟩
                rw [List.length_append]
                exact advanced.step

/-- A turn of the loop ends the call at the terminator, or goes on with the next
character. -/
theorem printfLoop_turn {mode : Option Bool} {p q : Printing} {fuel : Nat}
    (returned : call.printfLoop mode p fuel = some q) :
    mode = none ∧ call.memory p.buf = nul ∧ q = p.read ∨
      ∃ (m : Printing) (later : Nat), fuel = later + 1 ∧ m.buf = p.buf + 1 ∧
        m.reads = p.reads ++ [p.buf] ∧
        call.printfLoop (modeAfter mode (call.memory p.buf)) m later = some q := by
  cases fuel with
  | zero => simp only [PrintfCall.printfLoop, reduceCtorEq] at returned
  | succ fuel =>
      cases mode with
      | none =>
          simp only [PrintfCall.printfLoop] at returned
          by_cases atEnd : call.memory p.buf = nul
          · rw [if_pos atEnd] at returned
            exact .inl ⟨rfl, atEnd, (Option.some.inj returned).symm⟩
          · rw [if_neg atEnd] at returned
            right
            by_cases isPercent : call.memory p.buf = Format.percent
            · rw [if_pos isPercent] at returned
              rw [modeAfter, if_pos isPercent]
              exact ⟨_, fuel, rfl, rfl, rfl, returned⟩
            · rw [if_neg isPercent] at returned
              rw [modeAfter, if_neg isPercent]
              exact ⟨_, fuel, rfl, rfl, rfl, returned⟩
      | some alternate =>
          simp only [PrintfCall.printfLoop] at returned
          right
          by_cases isSharp : call.memory p.buf = Format.sharp
          · rw [if_pos isSharp] at returned
            rw [modeAfter, if_pos isSharp]
            exact ⟨_, fuel, rfl, rfl, rfl, returned⟩
          · rw [if_neg isSharp] at returned
            rw [modeAfter, if_neg isSharp]
            obtain ⟨result, _, goesOn⟩ := Option.bind_eq_some_iff.mp returned
            exact ⟨_, fuel, rfl, rfl, rfl, goesOn⟩

/-- The place the loop begins at is read, and what has been read stays so. -/
theorem printfLoop_reads {mode : Option Bool} {p q : Printing} {fuel : Nat}
    (returned : call.printfLoop mode p fuel = some q) :
    p.buf ∈ q.reads ∧ ∀ place ∈ p.reads, place ∈ q.reads := by
  induction fuel generalizing mode p with
  | zero => simp only [PrintfCall.printfLoop, reduceCtorEq] at returned
  | succ fuel induction =>
      rcases printfLoop_turn returned with ⟨_, _, isRead⟩ | ⟨m, later, spent, _, reads, goesOn⟩
      · rw [isRead, Printing.read]
        simp only [List.mem_append, List.mem_singleton, or_true, true_and]
        intro place member
        exact .inl member
      · cases spent
        have kept := (induction goesOn).2
        rw [reads] at kept
        refine ⟨kept _ (List.mem_append_right _ (List.mem_singleton_self _)), ?_⟩
        intro place member
        exact kept place (List.mem_append_left _ member)

/-- At the end of an open format the loop reads the place behind the terminator. -/
theorem printfLoop_open {mode : Option Bool} {p q : Printing} {text : List Byte} {fuel : Nat}
    (spells : Spells nul call.memory p.buf text) (isOpen : endsOpen mode text = true)
    (returned : call.printfLoop mode p fuel = some q) :
    p.buf + text.length + 1 ∈ q.reads := by
  induction text generalizing mode p fuel with
  | nil =>
      rw [spells_nil] at spells
      rcases printfLoop_turn returned with ⟨isNone, _, _⟩ | ⟨m, later, _, buf, _, goesOn⟩
      · rw [isNone] at isOpen
        cases isOpen
      · have read := (printfLoop_reads goesOn).1
        rw [buf] at read
        simpa using read
  | cons char rest induction =>
      obtain ⟨notNul, first, behind⟩ := spells_cons.mp spells
      rcases printfLoop_turn returned with ⟨_, isNul, _⟩ | ⟨m, later, _, buf, _, goesOn⟩
      · exact absurd (first.symm.trans isNul) notNul
      · rw [first] at goesOn
        rw [← buf] at behind
        have read := induction behind isOpen goesOn
        rw [buf] at read
        have place : p.buf + ((char :: rest).length : Int) + 1 =
            p.buf + 1 + (rest.length : Int) + 1 := by
          rw [List.length_cons]
          push_cast
          omega
        rw [place]
        exact read

/-- The call has rendered its format: it returns the format's length, it has read the
format no further than the terminator and one argument for each conversion, and it has
printed the text. -/
structure PrintfCall.Rendered (call : PrintfCall) (format output : List Byte)
    (p : Printing) : Prop where
  returned : p.buf - call.format = format.length
  stopped : ∀ place ∈ p.reads, place ≤ call.format + format.length
  consumed : p.esp = (directives none format).countP Directive.takesArgument
  printed : p.output = output

/-- `printf` renders its format and stops at its end, if and only if the format does
not end inside a conversion. -/
theorem printf_renders (call : PrintfCall) (format : List Byte) (args : List Word)
    (output : List Byte) (spells : Spells nul call.memory call.format format)
    (renders : Renders call.memory (directives none format) args output)
    (arguments : ∀ (i : Nat) (inside : i < args.length), call.stack i = args[i]) :
    (∃ p, Returns call.printf p ∧ call.Rendered format output p) ↔
      endsOpen none format = false := by
  constructor
  · rintro ⟨p, returns, rendered⟩
    by_contra isOpen
    rw [Bool.not_eq_false] at isOpen
    obtain ⟨fuel, returned⟩ := returns.exists_fuel
    have behind := printfLoop_open spells isOpen returned
    change call.format + format.length + 1 ∈ p.reads at behind
    have stopped := rendered.stopped _ behind
    omega
  · intro closed
    obtain ⟨p, returns, advanced⟩ :=
      @printfLoop_returns call none ⟨call.format, 0, [], []⟩ format args output spells closed
        renders (by simpa using arguments)
    refine ⟨p, returns, ?_⟩
    constructor
    case returned =>
      rw [advanced.buf]
      dsimp only
      omega
    case stopped =>
      intro place member
      rcases advanced.reads place member with before | inside
      · exact absurd before List.not_mem_nil
      · exact inside
    case consumed => rw [advanced.esp, renders.length, Nat.zero_add]
    case printed => rw [advanced.output, List.nil_append]

/-- A call with a format at address 0 and one word behind it on the stack. -/
def sampleCall (memory : List Byte) (word : Word) : PrintfCall where
  memory := fun place => memory.getD place.toNat nul
  format := 0
  stack := fun _ => word
  convBuf := fun _ => 0xCC#8

/-- The most negative number. -/
theorem printf_renders_lowest :
    ∃ p, Returns (sampleCall (ascii "%d") 0x80000000#32).printf p ∧
      (sampleCall (ascii "%d") 0x80000000#32).Rendered (ascii "%d") (ascii "-2147483648") p := by
  have spells : Spells nul (sampleCall (ascii "%d") 0x80000000#32).memory 0 (ascii "%d") := by
    rw [show ascii "%d" = [Format.percent, Format.d] from rfl]
    rw [spells_cons, spells_cons, spells_nil]
    decide
  have digits : signedNumeral (0x80000000#32).toInt = ascii "-2147483648" := by decide
  have renders : Renders (sampleCall (ascii "%d") 0x80000000#32).memory
      (directives none (ascii "%d")) [0x80000000#32] (ascii "-2147483648") := by
    have signed := @Directive.Prints.signed (sampleCall (ascii "%d") 0x80000000#32).memory
      0x80000000#32
    rw [digits] at signed
    exact .cons signed .nil
  apply (printf_renders _ (ascii "%d") [0x80000000#32] _ spells renders ?_).mpr rfl
  intro i inside
  rw [List.getElem_singleton]
  rfl

/-- The format `%`, in front of another byte. -/
theorem printf_reads_past :
    Spells nul (sampleCall [Format.percent, nul, 0x41#8] 0#32).memory 0 [Format.percent] ∧
      Renders (sampleCall [Format.percent, nul, 0x41#8] 0#32).memory
        (directives none [Format.percent]) [] [] ∧
      (sampleCall [Format.percent, nul, 0x41#8] 0#32).printf 9 =
        some ⟨3, 0, [0x41#8], [0, 1, 2, 3]⟩ ∧
      ¬∃ p, Returns (sampleCall [Format.percent, nul, 0x41#8] 0#32).printf p ∧
        (sampleCall [Format.percent, nul, 0x41#8] 0#32).Rendered [Format.percent] [] p := by
  have spells : Spells nul (sampleCall [Format.percent, nul, 0x41#8] 0#32).memory 0
      [Format.percent] := by
    rw [spells_cons, spells_nil]
    decide
  refine ⟨spells, .nil, by decide, ?_⟩
  rintro ⟨p, returns, rendered⟩
  obtain ⟨fuel, returned⟩ := returns.exists_fuel
  have behind := printfLoop_open spells rfl returned
  have stopped := rendered.stopped _ behind
  exact absurd stopped (by decide)

end Lib

end LightweightOs
