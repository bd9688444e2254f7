import Mathlib.Computability.StateTransition
import TinkaCompiler.Proofs.Layout

/-! A machine that runs instructions.

Registers and cells hold naturals that do not wrap, and `xx` holds the number of the
line that is run next. What constants stand for, how the comparison words compare and
what directly written instructions do is left open. -/

set_option autoImplicit false

namespace TinkaCompiler

structure Machine where
  registers : Register → Nat
  memory : Nat → Nat
  flag : Bool

structure Target where
  literal : String → Nat
  relation : Comparison → Nat → Nat → Bool
  perform : Mnemonic → List Place → Machine → Machine

def Program.entry? (program : List Instruction) (label : Label) : Option Nat :=
  program.findIdx? (· == .define label)

def Instruction.isPlain : Instruction → Bool
  | .jump _ | .jumpIf _ | .jumpBack | .call _ => false
  | _ => true

namespace Machine

def set (machine : Machine) (held : Register) (value : Nat) : Machine :=
  { machine with registers := Function.update machine.registers held value }

def setCell (machine : Machine) (address value : Nat) : Machine :=
  { machine with memory := Function.update machine.memory address value }

@[simp]
theorem set_memory (machine : Machine) (held : Register) (value : Nat) :
    (machine.set held value).memory = machine.memory :=
  rfl

@[simp]
theorem set_registers (machine : Machine) (held : Register) (value : Nat) :
    (machine.set held value).registers = Function.update machine.registers held value :=
  rfl

@[simp]
theorem setCell_registers (machine : Machine) (address value : Nat) :
    (machine.setCell address value).registers = machine.registers :=
  rfl

@[simp]
theorem setCell_memory (machine : Machine) (address value : Nat) :
    (machine.setCell address value).memory = Function.update machine.memory address value :=
  rfl

def address? (machine : Machine) : Place → Option Nat
  | .literal _ | .register _ => none
  | .top => some (machine.registers .f5)
  | .cell offset => some (machine.registers .f5 + offset)
  | .indexed held => some (machine.registers .f5 + machine.registers held)

def read (target : Target) (machine : Machine) : Place → Nat
  | .literal text => target.literal text
  | .register held => machine.registers held
  | .top => machine.memory (machine.registers .f5)
  | .cell offset => machine.memory (machine.registers .f5 + offset)
  | .indexed held => machine.memory (machine.registers .f5 + machine.registers held)

/-- A constant cannot be written. -/
def write (machine : Machine) (value : Nat) : Place → Machine
  | .literal _ => machine
  | .register held => machine.set held value
  | .top => machine.setCell (machine.registers .f5) value
  | .cell offset => machine.setCell (machine.registers .f5 + offset) value
  | .indexed held => machine.setCell (machine.registers .f5 + machine.registers held) value

theorem read_of_address (target : Target) {machine : Machine} {place : Place} {address : Nat}
    (found : machine.address? place = some address) :
    machine.read target place = machine.memory address := by
  cases place <;> cases found <;> rfl

theorem write_of_address {machine : Machine} {place : Place} {address : Nat}
    (found : machine.address? place = some address) (value : Nat) :
    machine.write value place = machine.setCell address value := by
  cases place <;> cases found <;> rfl

def put (cell : Option Nat) (value : Nat) (memory : Nat → Nat) : Nat → Nat :=
  cell.elim memory fun address => Function.update memory address value

/-- Stores the values that are written, each in the cell with its index. -/
def storeAll (written : Nat → Bool) (value : Nat → Nat) : List (Option Nat) →
    (Nat → Nat) → Nat → Nat
  | [], memory => memory
  | cell :: rest, memory =>
    storeAll (fun index => written (index + 1)) (fun index => value (index + 1)) rest
      (put (if written 0 then cell else none) (value 0) memory)

def effect (target : Target) (machine : Machine) : Instruction → Machine
  | .reserve bytes => machine.set .f5 (machine.registers .f5 - bytes)
  | .release bytes => machine.set .f5 (machine.registers .f5 + bytes)
  | .move source place => machine.write (machine.read target source) place
  | .add amount held => machine.set held (machine.registers held + amount)
  | .shiftLeft amount held => machine.set held (machine.registers held * 2 ^ amount)
  | .compare right comparison =>
    { machine with
      flag := target.relation comparison (machine.registers .f1) (machine.read target right) }
  | .call _ => machine.setCell (machine.registers .f5) (machine.registers .xx + 1)
  | .raw mnemonic operands => target.perform mnemonic operands machine
  | .exportLabel _ | .importLabel _ | .define _ | .jumpIf _ | .jump _ | .jumpBack => machine

def next (program : List Instruction) (machine : Machine) : Instruction → Option Nat
  | .jump label => Program.entry? program label
  | .jumpIf label => if machine.flag then Program.entry? program label
      else some (machine.registers .xx + 1)
  | .jumpBack => some (machine.memory (machine.registers .f5))
  | .call function => Program.entry? program (.named function)
  | _ => some (machine.registers .xx + 1)

/-- One line. A machine stops behind the last line, and at labels that no line defines. -/
def step (target : Target) (program : List Instruction) (machine : Machine) : Option Machine := do
  let instruction ← program[machine.registers .xx]?
  let line ← machine.next program instruction
  some ((machine.effect target instruction).set .xx line)

/-! Runs through plain instructions. -/

section Runs

variable (target : Target)

def pass (machine : Machine) (instruction : Instruction) : Machine :=
  (machine.effect target instruction).set .xx (machine.registers .xx + 1)

def run (machine : Machine) (code : List Instruction) : Machine :=
  code.foldl (pass target) machine

@[simp]
theorem run_nil (machine : Machine) : machine.run target [] = machine :=
  rfl

@[simp]
theorem run_cons (machine : Machine) (instruction : Instruction) (rest : List Instruction) :
    machine.run target (instruction :: rest) = (machine.pass target instruction).run target rest :=
  rfl

@[simp]
theorem run_append (machine : Machine) (first second : List Instruction) :
    machine.run target (first ++ second) = (machine.run target first).run target second :=
  List.foldl_append

theorem line_run (machine : Machine) (code : List Instruction) :
    (machine.run target code).registers .xx = machine.registers .xx + code.length := by
  induction code generalizing machine with
  | nil => rfl
  | cons instruction rest ih =>
      rw [run_cons, ih]
      simp only [pass, set_registers, Function.update_self, List.length_cons]
      omega

open StateTransition (Reaches)

theorem reaches_run {program : List Instruction} {machine : Machine} {code tail : List Instruction}
    (plain : ∀ instruction ∈ code, instruction.isPlain)
    (placed : program.drop (machine.registers .xx) = code ++ tail) :
    Reaches (step target program) machine (machine.run target code) := by
  induction code generalizing machine with
  | nil => exact .refl
  | cons instruction rest ih =>
      rw [List.forall_mem_cons] at plain
      have first : machine.step target program = some (machine.pass target instruction) := by
        rw [step, getElem?_of_drop placed]
        cases instruction <;> first | rfl | cases plain.1
      refine .head first (ih plain.2 ?_)
      have behind := drop_of_append [instruction] placed
      simpa [pass] using behind

theorem drop_run {program : List Instruction} {machine : Machine} {code tail : List Instruction}
    (placed : program.drop (machine.registers .xx) = code ++ tail) :
    program.drop ((machine.run target code).registers .xx) = tail := by
  rw [line_run]
  exact drop_of_append code placed

end Runs
end Machine
end TinkaCompiler
