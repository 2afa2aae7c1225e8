import LightweightOs.KeyboardBounds
import LightweightOs.Screen

/-!
# Isolation of the terminals

A key that is no Tab, Backspace or Ctrl+L echoes characters on the displayed
terminal; a process writes to the terminal it was started from.  In a run of
such keys, writes and interrupts the screen of each terminal is what its own
output makes of it, on a machine that displays it all the time.
-/

namespace LightweightOs

open Transition

/-- One operation of a terminal: a call of `terminal_write` by one of its
processes, or the echo of a character. -/
inductive Output where
  | write (input : List Byte)
  | echo (c : Byte)

/-- The characters an operation prints. -/
def Output.text : Output → List Byte
  | .write input => input.map fun c => if c = tab then space else c
  | .echo c => [c]

/-- An operation of `terminal` while it is displayed. -/
def Console.display (terminal : Int) (con : Console) : Output → Console
  | .write input => con.terminalWrite terminal terminal input
  | .echo c => con.putc terminal terminal c true

namespace Tty

/-- The logical screens of the terminals. -/
def logical (t : Tty) : Int → Screen := t.toConsole.logical t.curTerminal

/-- The key has no editing function. -/
def Plain (t : Tty) (scanCode : Byte) : Prop :=
  scanCode ≠ ScanCode.tab ∧ scanCode ≠ ScanCode.backspace ∧
    ¬((t.modifierKeys scanCode).ctrlFlag ∧ scanCode = ScanCode.l)

instance (t : Tty) (scanCode : Byte) : Decidable (t.Plain scanCode) :=
  inferInstanceAs (Decidable (_ ∧ _ ∧ _))

/-- The newline of a line that has reached `MAX_LINE` characters. -/
def wraps (t : Tty) : Bool := t.index = maxLine ∧ t.index + 1 < bufferSize

/-- What the driver prints for a plain key. -/
def echoes (t : Tty) (scanCode : Byte) : List Byte :=
  let t := t.modifierKeys scanCode
  if scanCode = ScanCode.enter then [newline]
  else
    let wrapped := if t.wraps then t.setIndex (t.index + 1) else t
    (if t.wraps then [newline] else []) ++
      if wrapped.acceptsChar scanCode then [t.charOf scanCode] else []

section Echo

variable {t : Tty} (who : Interrupted) (scanCode : Byte)

/-- The text has been printed on the displayed terminal. -/
def Echoes (t u : Tty) (text : List Byte) : Prop :=
  Console.Prints t.toConsole u.toConsole (Console.pageOf t.curTerminal t.curTerminal)
    t.curTerminal text

theorem Echoes.trans {u v : Tty} {text more : List Byte} (first : Echoes t u text)
    (same : u.curTerminal = t.curTerminal) (second : Echoes u v more) :
    Echoes t v (text ++ more) := by
  simp only [Echoes, same] at second
  exact Console.Prints.trans first second

/-- The screen of the displayed terminal is in bounds. -/
def Displayed (t : Tty) : Prop := (t.logical t.curTerminal).InBounds

theorem Echoes.displayed {u : Tty} {text : List Byte} (echoes : Echoes t u text)
    (same : u.curTerminal = t.curTerminal) (bounds : t.Displayed) : u.Displayed := by
  simp only [Displayed, logical, same]
  exact echoes.printed.inBounds (Screen.InBounds.puts bounds text)

theorem echoes_putcKeyboard (c : Byte) (bounds : t.Displayed) :
    Echoes t (t.putcKeyboard who c) [c] :=
  t.toConsole.prints_putc t.curTerminal who.curProcessLocal c true rfl bounds

theorem echoes_enterKey (bounds : t.Displayed) :
    Echoes t (t.enterKey who scanCode) (if scanCode = ScanCode.enter then [newline] else []) := by
  unfold Tty.enterKey
  split
  · exact echoes_putcKeyboard who newline bounds
  · exact Console.Prints.nil rfl rfl rfl

theorem echoes_wrapLine (bounds : t.Displayed) :
    Echoes t (t.wrapLine who) (if t.wraps then [newline] else []) := by
  by_cases full : t.index = maxLine ∧ t.index + 1 < bufferSize
  · have wraps : t.wraps = true := decide_eq_true full
    rw [Tty.wrapLine, if_pos full, if_pos wraps]
    exact echoes_putcKeyboard who newline bounds
  · have fits : t.wraps = false := decide_eq_false full
    rw [Tty.wrapLine, if_neg full, fits]
    exact Console.Prints.nil rfl rfl rfl

theorem echoes_charKey (bounds : t.Displayed) :
    Echoes t (t.charKey who scanCode)
      (if t.acceptsChar scanCode then [t.charOf scanCode] else []) := by
  by_cases accepted : t.acceptsChar scanCode
  · rw [Tty.charKey, if_pos accepted, if_pos accepted]
    have loaded : (t.store t.index (t.charOf scanCode)).load
        (t.store t.index (t.charOf scanCode)).index = t.charOf scanCode :=
      store_line_self t t.index (t.charOf scanCode)
    dsimp only
    rw [loaded]
    exact echoes_putcKeyboard who (t.charOf scanCode) bounds
  · rw [Tty.charKey, if_neg accepted, if_neg accepted]
    exact Console.Prints.nil rfl rfl rfl

/-- The character of a key and whether it is accepted after a newline. -/
theorem wrapLine_accepts (t : Tty) :
    ((t.wrapLine who).acceptsChar scanCode ↔
      (if t.wraps then t.setIndex (t.index + 1) else t).acceptsChar scanCode) ∧
      (t.wrapLine who).charOf scanCode = t.charOf scanCode := by
  by_cases full : t.index = maxLine ∧ t.index + 1 < bufferSize
  · have wraps : t.wraps = true := decide_eq_true full
    rw [Tty.wrapLine, if_pos full, if_pos wraps]
    exact ⟨Iff.rfl, rfl⟩
  · have fits : t.wraps = false := decide_eq_false full
    rw [Tty.wrapLine, if_neg full, fits]
    exact ⟨Iff.rfl, rfl⟩

theorem keyBlocks_of_plain (plain : t.Plain scanCode) :
    t.keyBlocks who scanCode =
      ((((t.modifierKeys scanCode).enterKey who scanCode).wrapLine who).placeCursor).charKey
        who scanCode := by
  obtain ⟨notTab, notBackspace, notClear⟩ := plain
  have same := (SameControls.enterKey who scanCode (t.modifierKeys scanCode)).trans
    (SameControls.wrapLine who _)
  rw [← same.ctrlFlag] at notClear
  rw [Tty.keyBlocks, clearKey_of_not who notClear, tabKey_of_ne _ who notTab,
    backspaceKey_of_ne _ who notBackspace]

theorem enterKey_quiet (t : Tty) :
    (t.enterKey who ScanCode.enter).wraps = false ∧
      ∀ u : Tty, ¬u.acceptsChar ScanCode.enter := by
  constructor
  · have index : (t.enterKey who ScanCode.enter).index = 0 := by
      rw [Tty.enterKey, if_pos rfl, setIndex_index]
    simp [wraps, index, maxLine]
  · intro u accepted
    exact accepted.2.1 (by decide)

theorem echoes_typed (bounds : t.Displayed) :
    Echoes t (t.placeCursor.charKey who scanCode)
      (if t.acceptsChar scanCode then [t.charOf scanCode] else []) := by
  have placed : Echoes t t.placeCursor [] := Console.Prints.nil rfl rfl rfl
  exact placed.trans rfl (@echoes_charKey t.placeCursor who scanCode bounds)

theorem echoes_keyBlocks (plain : t.Plain scanCode) (bounds : t.Displayed) :
    Echoes t (t.keyBlocks who scanCode) (t.echoes scanCode) := by
  have modified : (t.modifierKeys scanCode).Displayed := bounds
  rw [keyBlocks_of_plain who scanCode plain]
  by_cases pressed : scanCode = ScanCode.enter
  · subst pressed
    obtain ⟨noWrap, noChar⟩ := enterKey_quiet who (t.modifierKeys ScanCode.enter)
    have sameEnter :=
      (SameControls.enterKey who ScanCode.enter (t.modifierKeys ScanCode.enter)).curTerminal
    have sameWrap := (SameControls.wrapLine who
      ((t.modifierKeys ScanCode.enter).enterKey who ScanCode.enter)).curTerminal
    have entered := echoes_enterKey who ScanCode.enter modified
    have afterEnter := entered.displayed sameEnter modified
    have wrapped := echoes_wrapLine who afterEnter
    have typed := echoes_typed who ScanCode.enter (wrapped.displayed sameWrap afterEnter)
    have all := (entered.trans sameEnter wrapped).trans (sameWrap.trans sameEnter) typed
    rw [if_pos rfl, noWrap, if_neg (noChar _)] at all
    rw [echoes, if_pos rfl]
    exact all
  · obtain ⟨accepts, char⟩ := wrapLine_accepts who scanCode (t.modifierKeys scanCode)
    have sameWrap := (SameControls.wrapLine who (t.modifierKeys scanCode)).curTerminal
    have wrapped := echoes_wrapLine who modified
    have typed := echoes_typed who scanCode (wrapped.displayed sameWrap modified)
    have all := wrapped.trans sameWrap typed
    simp only [accepts, char] at all
    rw [enterKey_of_ne _ who pressed, echoes, if_neg pressed]
    exact all

/-- A plain key prints its echoes on the displayed terminal; an Alt+Fn switch
leaves every screen as it is. -/
theorem prints_keyPress (low : 1 ≤ t.curTerminal) (plain : t.Plain scanCode)
    (bounds : t.Displayed) :
    Console.PrintsOn t.logical (t.keyPress who scanCode).logical t.curTerminal
      (t.echoes scanCode) := by
  have echoed : Console.PrintsOn t.logical (t.keyBlocks who scanCode).logical
      t.curTerminal (t.echoes scanCode) := by
    have prints := echoes_keyBlocks who scanCode plain bounds
    have on := Console.Prints.on prints low
    simp only [logical, keyBlocks_curTerminal t who scanCode]
    exact on
  rw [Tty.keyPress]
  cases selects : (t.keyBlocks who scanCode).selectedTerminal scanCode with
  | none => exact echoed
  | some selected =>
      have range := selectedTerminal_range selects
      have shown := keyBlocks_curTerminal t who scanCode
      have moved : ∀ terminal, 1 ≤ terminal →
          (((t.keyBlocks who scanCode).switchTerminal selected).logical terminal).Same
            ((t.keyBlocks who scanCode).logical terminal) := by
        intro terminal atLeast
        exact Console.logical_swapPages _ ⟨shown ▸ low, range.1, atLeast⟩
      constructor
      case own => exact (moved _ low).trans echoed.own
      case others =>
        intro other atLeast different
        exact (moved other atLeast).trans (echoed.others other atLeast different)

end Echo

end Tty

namespace Record

/-- The operations of `terminal` in a step. -/
def outputs (terminal : Int) (record : Record) : List Output :=
  match record.event with
  | .terminalWrite _ input =>
      if record.before.curProcess = terminal then [.write input] else []
  | .key _ _ _ scanCode _ =>
      if record.before.tty.curTerminal = terminal then
        (record.before.tty.echoes scanCode).map .echo
      else []
  | _ => []

end Record

/-- Calls of `terminal_write`, plain keys with Alt+Fn, and the events that print
nothing. -/
def PlainOutput (s : Kernel) (record : Record) : Prop :=
  match record.event with
  | .key _ _ _ scanCode _ => s.tty.Plain scanCode
  | .execute _ _ _ => False
  | .halt _ _ _ _ _ => False
  | _ => True

instance (s : Kernel) (record : Record) : Decidable (PlainOutput s record) :=
  match record with
  | ⟨_, .key _ _ _ scanCode _, _⟩ => inferInstanceAs (Decidable (s.tty.Plain scanCode))
  | ⟨_, .execute _ _ _, _⟩ => isFalse id
  | ⟨_, .halt _ _ _ _ _, _⟩ => isFalse id
  | ⟨_, .pit _ _, _⟩ => isTrue trivial
  | ⟨_, .vidmap _ _ _, _⟩ => isTrue trivial
  | ⟨_, .terminalWrite _ _, _⟩ => isTrue trivial
  | ⟨_, .readStart _, _⟩ => isTrue trivial
  | ⟨_, .readLine _, _⟩ => isTrue trivial
  | ⟨_, .rtcWrite _, _⟩ => isTrue trivial
  | ⟨_, .rtc, _⟩ => isTrue trivial

/-- The characters that operations print, one after the other. -/
def printed (outputs : List Output) : List Byte := outputs.flatMap Output.text

theorem printed_append (outputs more : List Output) :
    printed (outputs ++ more) = printed outputs ++ printed more :=
  List.flatMap_append

theorem printed_echo (text : List Byte) : printed (text.map .echo) = text := by
  induction text with
  | nil => rfl
  | cons c rest induction => exact congrArg (c :: ·) induction

/-- On a machine that displays a terminal, its operations print their
characters. -/
theorem logical_display {terminal : Int} (outputs : List Output) (con : Console)
    (bounds : (con.logical terminal terminal).InBounds) :
    ((outputs.foldl (Console.display terminal) con).logical terminal terminal).Same
      ((con.logical terminal terminal).puts (printed outputs)) := by
  induction outputs generalizing con with
  | nil => exact .refl _
  | cons output rest induction =>
      have first : Console.Prints con (con.display terminal output)
          (Console.pageOf terminal terminal) terminal output.text := by
        cases output with
        | write input => exact con.prints_terminalWrite input bounds
        | echo c => exact con.prints_putc terminal terminal c true rfl bounds
      have after := first.printed.inBounds (bounds.puts _)
      have later := induction _ after
      have expands : printed (output :: rest) = output.text ++ printed rest := rfl
      rw [List.foldl_cons, expands, Screen.puts_append]
      exact later.trans (Screen.Same.puts first.printed _)

theorem Tty.terminalReadLine_logical (t : Tty) (bytes : Int) :
    (t.terminalReadLine bytes).1.logical = t.logical := by
  have copied := copyLine_eq t 0 bytes.toNat
  simp only [terminalReadLine]
  split
  · simp only [store, touch, logical]
    rw [copied]
  · simp only [touch, logical]
    rw [copied]

/-- A step gives each terminal its own output and nothing else. -/
structure GivesOutput (s : Kernel) (record : Record) (next : Kernel) : Prop where
  screens : ∀ t, 1 ≤ t → (next.tty.logical t).Same
    ((s.tty.logical t).puts (printed (record.outputs t)))

theorem GivesOutput.quiet {s next : Kernel} {record : Record}
    (same : next.tty.logical = s.tty.logical) (silent : ∀ t, record.outputs t = []) :
    GivesOutput s record next := by
  constructor
  intro t _
  rw [silent t, same]
  exact .refl _

theorem GivesOutput.printsOn {s next : Kernel} {record : Record} {terminal : Int}
    {outputs : List Output}
    (prints : Console.PrintsOn s.tty.logical next.tty.logical terminal (printed outputs))
    (own : ∀ t, record.outputs t = if terminal = t then outputs else []) :
    GivesOutput s record next := by
  constructor
  intro t low
  rw [own t]
  by_cases here : terminal = t
  · rw [if_pos here, ← here]
    exact prints.own
  · rw [if_neg here]
    exact prints.others t low (Ne.symm here)

theorem Represents.givesOutput {s next : Kernel} {a : Session}
    (represents : Represents s a) {record : Record} (step : Step s record next)
    (plain : PlainOutput s record) (displayed : s.tty.RowsInvariant)
    (bounds : ∀ t, 1 ≤ t → t ≤ 3 → (s.tty.logical t).InBounds) :
    GivesOutput s record next := by
  obtain ⟨before, event, outcome⟩ := record
  obtain ⟨rfl, legal, taken⟩ := step
  dsimp only at taken legal
  cases event with
  | execute frame locals commandUser => exact plain.elim
  | halt frame inner locals status after => exact plain.elim
  | pit frame locals =>
      obtain ⟨result, ticks, isNext⟩ := Option.map_eq_some_iff.mp taken
      apply GivesOutput.quiet _ fun _ => rfl
      rcases Kernel.pitHandler_cases ticks with ⟨_, rfl⟩ | ⟨t, top, _, _, _, rfl⟩ <;>
        cases isNext <;> rfl
  | key frame inner locals scanCode after =>
      obtain ⟨result, handles, isNext⟩ := Option.map_eq_some_iff.mp taken
      obtain ⟨who, _, typed⟩ := Kernel.keyboardHandler_tty handles
      obtain ⟨low, high⟩ := displayed.displayed
      have pressed := Tty.prints_keyPress who scanCode low plain (bounds _ low high)
      have isTty : next.tty = before.tty.keyPress who scanCode := by
        cases result <;> cases isNext <;> exact typed
      rw [← isTty, ← printed_echo (before.tty.echoes scanCode)] at pressed
      exact .printsOn pressed fun t => rfl
  | vidmap frame locals screenStart =>
      obtain ⟨⟨mapped, value, store⟩, maps, isNext⟩ := Option.map_eq_some_iff.mp taken
      apply GivesOutput.quiet _ fun _ => rfl
      rcases Kernel.vidmap_cases maps with ⟨rfl, _⟩ | ⟨base, _, rfl, _⟩ <;>
        cases isNext <;> rfl
  | terminalWrite frame input =>
      simp only [Kernel.step, represents.terminalWrite legal.esp, Option.map_some,
        Option.some.injEq, Prod.mk.injEq] at taken
      obtain ⟨_, rfl⟩ := taken
      have range := represents.terminal
      rw [← represents.current] at range
      have prints := Console.prints_terminalWrite before.tty.toConsole input
        (bounds before.curProcess range.1 range.2)
      have text : printed [Output.write input] =
          input.map fun c => if c = tab then space else c :=
        List.append_nil _
      rw [← text] at prints
      exact .printsOn (prints.on range.1) fun t => rfl
  | readStart bytes =>
      apply GivesOutput.quiet _ fun _ => rfl
      simp only [Kernel.step] at taken
      split at taken <;> cases taken <;> rfl
  | readLine bytes =>
      cases taken
      exact .quiet (before.tty.terminalReadLine_logical bytes) fun _ => rfl
  | rtcWrite frequency =>
      cases taken
      exact .quiet rfl fun _ => rfl
  | rtc =>
      obtain ⟨ticked, _, isNext⟩ := Option.map_eq_some_iff.mp taken
      cases isNext
      exact .quiet rfl fun _ => rfl

theorem output_run {start s final : Kernel} {earlier history : List Record}
    (booted : Booted start) (run : Run Step start earlier s)
    (bounds : ∀ t, 1 ≤ t → t ≤ 3 → (s.tty.logical t).InBounds)
    (plain : Run (Guarded PlainOutput Step) s history final) :
    (∃ a, Represents final a) ∧ final.tty.RowsInvariant ∧
      ∀ t, 1 ≤ t → t ≤ 3 → (final.tty.logical t).Same
        ((s.tty.logical t).puts (printed (history.flatMap (Record.outputs t)))) := by
  induction plain with
  | nil =>
      obtain ⟨a, _, represents⟩ := booted.run run
      exact ⟨⟨a, represents⟩, booted.rows run, fun _ _ _ => .refl _⟩
  | @snoc events middle last record _ taken induction =>
      obtain ⟨isPlain, step⟩ := taken
      obtain ⟨⟨a, represents⟩, rows, screens⟩ := induction
      have inBounds : ∀ t, 1 ≤ t → t ≤ 3 → (middle.tty.logical t).InBounds := by
        intro t low high
        exact (screens t low high).inBounds ((bounds t low high).puts _)
      obtain ⟨b, _, _, next⟩ := represents.step step
      refine ⟨⟨b, next⟩, Step.rows rows step, ?_⟩
      intro t low high
      have given := (represents.givesOutput step isPlain rows inBounds).screens t low
      rw [List.flatMap_append, List.flatMap_singleton, printed_append,
        Screen.puts_append]
      exact given.trans ((screens t low high).puts _)

theorem terminal_isolation {start s final : Kernel} {earlier history : List Record}
    (booted : Booted start) (run : Run Step start earlier s)
    (bounds : ∀ t, 1 ≤ t → t ≤ 3 → (s.tty.logical t).InBounds)
    (plain : Run (Guarded PlainOutput Step) s history final) {t : Int} (low : 1 ≤ t)
    (high : t ≤ 3) :
    (∀ con : Console, (con.logical t t).Same (s.tty.logical t) →
      (final.tty.logical t).Same
        (((history.flatMap (Record.outputs t)).foldl (Console.display t) con).logical
          t t)) ∧
      ∀ record next, Step final record next → PlainOutput final record →
        record.outputs t = [] → (next.tty.logical t).Same (final.tty.logical t) := by
  obtain ⟨⟨a, represents⟩, rows, screens⟩ := output_run booted run bounds plain
  constructor
  · intro con same
    have shown := logical_display (history.flatMap (Record.outputs t)) con
      (same.inBounds (bounds t low high))
    exact (screens t low high).trans ((same.symm.puts _).trans shown.symm)
  · intro record next step isPlain silent
    have inBounds : ∀ t, 1 ≤ t → t ≤ 3 → (final.tty.logical t).InBounds := by
      intro t low high
      exact (screens t low high).inBounds ((bounds t low high).puts _)
    have given := (represents.givesOutput step isPlain rows inBounds).screens t low
    rwa [silent] at given

/-- Both shells write while terminal 2 is displayed, a letter is typed, and
terminal 1 is displayed again. -/
def sampleOutput : List Event :=
  [sampleKey 1 ScanCode.alt, sampleKey 1 ScanCode.f2,
    .terminalWrite (sampleFrame 2) [0x68#8, newline],
    .pit (sampleFrame 2) sampleLocals,
    .terminalWrite (sampleFrame 1) [0x69#8, tab],
    sampleKey 1 ScanCode.altRel, sampleKey 1 letterA, sampleKey 1 ScanCode.enter,
    sampleKey 1 ScanCode.alt, sampleKey 1 ScanCode.f1]

theorem terminal_isolation_sampleOutput :
    ∃ history final, Run (Guarded PlainOutput Step) sampleStart history final ∧
      history.length = 10 ∧
      (∀ con : Console, (con.logical 2 2).Same (sampleStart.tty.logical 2) →
        (final.tty.logical 2).Same
          (((history.flatMap (Record.outputs 2)).foldl (Console.display 2) con).logical
            2 2)) ∧
      ∀ record next, Step final record next → PlainOutput final record →
        record.outputs 2 = [] → (next.tty.logical 2).Same (final.tty.logical 2) := by
  obtain ⟨history, final, run, length, plain⟩ :=
    @Kernel.run_of_replay sampleStart sampleOutput
      (fun history _ => history.length = 10 ∧
        ∀ record ∈ history, PlainOutput record.before record) _ (by decide +kernel)
  have guarded := Step.guarded run plain
  have bounds : ∀ t, 1 ≤ t → t ≤ 3 → (sampleStart.tty.logical t).InBounds := by
    intro t _ _
    exact ⟨le_rfl, show (0 : Int) < 80 by decide, le_rfl, show (0 : Int) < 25 by decide⟩
  exact ⟨history, final, guarded, length,
    terminal_isolation sampleStart_booted .nil bounds guarded (by decide) (by decide)⟩

end LightweightOs
