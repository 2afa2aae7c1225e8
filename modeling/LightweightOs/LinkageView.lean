import LightweightOs.Linkage

/-!
# The stack of the linkage as a list

A view of the processor is its registers and a list of the words on its stack.
The straight-line code of the linkage acts on views by consing and uncons-ing,
and the processor keeps showing what the view says; the register file and the
frame that `iret` finds are then read off the list.
-/

namespace LightweightOs.Linkage

open DownStack

/-- The registers, with the stack pointer apart, and the words from there on. -/
structure View where
  registers : Register → Word
  sp : Word
  stack : List Word

namespace View

def get (view : View) (register : Register) : Word :=
  if register = .esp then view.sp else view.registers register

def set (view : View) (register : Register) (value : Word) : View :=
  { view with registers := assign view.registers register value }

/-- The bound keeps the stack from running around the address space. -/
def push (view : View) (value : Word) : Option View :=
  if view.stack.length < 256 then
    some { view with sp := view.sp - 4, stack := value :: view.stack }
  else none

def pop (view : View) : Option (Word × View) :=
  match view.stack with
  | [] => none
  | value :: rest => some (value, { view with sp := view.sp + 4, stack := rest })

/-- An instruction that leaves the stack where a list can follow it. -/
def step (view : View) : Instruction → Option View
  | .pushl source => view.push (view.get source)
  | .pushlValue value => view.push value
  | .popl dest =>
      if dest = .esp then none else view.pop.map fun (value, view) => view.set dest value
  | .popfl => view.pop.map Prod.snd
  | .movl source dest => if dest = .esp then none else some (view.set dest (view.get source))
  | .movlValue value dest => if dest = .esp then none else some (view.set dest value)
  | .cmpl _ _ => some view
  | .pushfl | .movlStack _ _ | .addl _ _ | .subl _ _ => none

def exec (view : View) : List Instruction → Option View
  | [] => some view
  | instruction :: rest => (view.step instruction).bind fun next => next.exec rest

end View

namespace Cpu

variable {flags : Cpu → Word} {cpu : Cpu} {view next : View}

structure Shows (cpu : Cpu) (view : View) : Prop where
  registers : ∀ register, register ≠ .esp →
    cpu.registers register = view.registers register
  sp : cpu.esp = view.sp
  stack : Stacked cpu.memory view.sp view.stack

theorem Shows.get (shows : cpu.Shows view) (register : Register) :
    cpu.get register = view.get register := by
  rw [View.get]
  split
  case isTrue isEsp =>
    rw [isEsp]
    exact shows.sp
  case isFalse notEsp => exact shows.registers register notEsp

theorem Shows.moves {value : Word} {stack : List Word} (shows : cpu.Shows view)
    (stacked : Stacked cpu.memory value stack) :
    (cpu.set .esp value).Shows { view with sp := value, stack := stack } := by
  constructor
  · intro register notEsp
    exact (assign_of_ne notEsp _ _).trans (shows.registers register notEsp)
  · exact assign_self cpu.registers .esp value
  · exact stacked

theorem Shows.push {value : Word} (shows : cpu.Shows view)
    (pushes : view.push value = some next) : (cpu.push value).Shows next := by
  rw [View.push] at pushes
  split at pushes
  case isFalse => cases pushes
  case isTrue short =>
    cases pushes
    rw [Cpu.push, shows.sp]
    constructor
    · intro register notEsp
      exact (assign_of_ne notEsp _ _).trans (shows.registers register notEsp)
    · exact assign_self cpu.registers .esp _
    · exact shows.stack.push value (by omega)

theorem Shows.pop {value : Word} (shows : cpu.Shows view)
    (pops : view.pop = some (value, next)) : cpu.pop.1 = value ∧ cpu.pop.2.Shows next := by
  rw [View.pop] at pops
  split at pops
  case h_1 => cases pops
  case h_2 isStack =>
    cases pops
    have stack := shows.stack
    rw [isStack] at stack
    obtain ⟨isValue, rest⟩ := stack
    rw [Cpu.pop, shows.sp]
    exact ⟨isValue, shows.moves rest⟩

theorem Shows.set {register : Register} {value : Word} (shows : cpu.Shows view)
    (notEsp : register ≠ .esp) : (cpu.set register value).Shows (view.set register value) := by
  constructor
  · intro other otherNotEsp
    by_cases same : other = register
    · subst same
      exact (assign_self _ _ _).trans (assign_self _ _ _).symm
    · exact (assign_of_ne same _ _).trans
        ((shows.registers other otherNotEsp).trans (assign_of_ne same _ _).symm)
  · exact (assign_of_ne notEsp.symm _ _).trans shows.sp
  · exact shows.stack

theorem Shows.step {instruction : Instruction} (shows : cpu.Shows view)
    (steps : view.step instruction = some next) : (cpu.step flags instruction).Shows next := by
  cases instruction with
  | pushl source =>
      rw [Cpu.step, shows.get]
      exact shows.push steps
  | pushlValue value => exact shows.push steps
  | popl dest =>
      rw [View.step] at steps
      split at steps
      case isTrue => cases steps
      case isFalse notEsp =>
        obtain ⟨⟨value, rest⟩, pops, rfl⟩ := Option.map_eq_some_iff.mp steps
        obtain ⟨isValue, after⟩ := shows.pop pops
        rw [Cpu.step, isValue]
        exact after.set notEsp
  | popfl =>
      obtain ⟨⟨value, rest⟩, pops, rfl⟩ := Option.map_eq_some_iff.mp steps
      obtain ⟨_, after⟩ := shows.pop pops
      exact ⟨after.registers, after.sp, after.stack⟩
  | movl source dest =>
      rw [View.step] at steps
      split at steps
      case isTrue => cases steps
      case isFalse notEsp =>
        cases steps
        rw [Cpu.step, shows.get]
        exact shows.set notEsp
  | movlValue value dest =>
      rw [View.step] at steps
      split at steps
      case isTrue => cases steps
      case isFalse notEsp =>
        cases steps
        exact shows.set notEsp
  | cmpl value operand =>
      cases steps
      exact ⟨shows.registers, shows.sp, shows.stack⟩
  | pushfl | movlStack | addl | subl => cases steps

theorem Shows.exec {code : List Instruction} (shows : cpu.Shows view)
    (runs : view.exec code = some next) : (cpu.exec flags code).Shows next := by
  induction code generalizing cpu view with
  | nil =>
      cases runs
      exact shows
  | cons instruction rest induction =>
      obtain ⟨middle, steps, later⟩ := Option.bind_eq_some_iff.mp runs
      exact induction (shows.step steps) later

theorem exec_cons (flags : Cpu → Word) (cpu : Cpu) (instruction : Instruction)
    (rest : List Instruction) :
    cpu.exec flags (instruction :: rest) = (cpu.step flags instruction).exec flags rest := rfl

theorem push_ss (cpu : Cpu) (value : Word) : (cpu.push value).ss = cpu.ss := rfl

theorem exec_ss (flags : Cpu → Word) (cpu : Cpu) (code : List Instruction) :
    (cpu.exec flags code).ss = cpu.ss := by
  induction code generalizing cpu with
  | nil => rfl
  | cons instruction rest induction =>
      have step : (cpu.step flags instruction).ss = cpu.ss := by
        cases instruction <;> rfl
      exact (induction _).trans step

end Cpu

end LightweightOs.Linkage
