import TinkaCompiler.Proofs.Machine
import TinkaCompiler.Proofs.StraightCode

/-! The cells that operands stand for at run time.

In a frame an operand stands for a cell that is counted from the top of the stack.
The code that is emitted for an operand leads to that cell, also when the stack has
grown by cells that the frame does not know of. -/

set_option autoImplicit false

namespace TinkaCompiler

namespace Machine

structure SameBut (scratch : Register) (before after : Machine) : Prop where
  memory : after.memory = before.memory
  flag : after.flag = before.flag
  registers : ∀ held, held ≠ scratch → held ≠ .xx → after.registers held = before.registers held

section Runs

variable (target : Target) {scratch : Register}

theorem sameBut_pass (machine : Machine) {instruction : Instruction}
    (addressing : instruction.isAddressing scratch) :
    SameBut scratch machine (machine.pass target instruction) := by
  have written (value : Nat) :
      SameBut scratch machine ((machine.set scratch value).set .xx
        (machine.registers .xx + 1)) := by
    refine ⟨rfl, rfl, fun held other moved => ?_⟩
    rw [set_registers, set_registers, Function.update_of_ne moved, Function.update_of_ne other]
  cases instruction with
  | move source place =>
      cases place with
      | register held =>
          obtain rfl : held = scratch := by simpa [Instruction.isAddressing] using addressing
          exact written _
      | _ => cases addressing
  | add amount held =>
      obtain rfl : held = scratch := by simpa [Instruction.isAddressing] using addressing
      exact written _
  | shiftLeft amount held =>
      obtain rfl : held = scratch := by simpa [Instruction.isAddressing] using addressing
      exact written _
  | _ => cases addressing

theorem sameBut_run (machine : Machine) {code : List Instruction}
    (addressing : ∀ instruction ∈ code, instruction.isAddressing scratch) :
    SameBut scratch machine (machine.run target code) := by
  induction code generalizing machine with
  | nil => exact ⟨rfl, rfl, fun _ _ _ => rfl⟩
  | cons instruction rest ih =>
      rw [List.forall_mem_cons] at addressing
      have first := sameBut_pass target machine addressing.1
      have behind := ih (machine.pass target instruction) addressing.2
      exact ⟨behind.memory.trans first.memory, behind.flag.trans first.flag, fun held other moved =>
        (behind.registers held other moved).trans (first.registers held other moved)⟩

end Runs
end Machine

theorem Instruction.isPlain_of_addressing {scratch : Register} {instruction : Instruction}
    (addressing : instruction.isAddressing scratch) : instruction.isPlain := by
  cases instruction <;> first | rfl | cases addressing

namespace Frame

/-- The address of an operand when `top` is the address of the highest cell in use. A
position that is not constant is what the cell of that position holds. -/
def address? (frame : Frame) (top : Nat) (memory : Nat → Nat) : Operand → Option Nat
  | .constant _ | .function _ => none
  | .variable name position =>
    let index? := match position with
      | .constant text => Text.Decimal.readBelow? addressLimit text.toList
      | position => (frame.address? top memory position).map memory
    (frame.binding? name).bind fun bound =>
      index?.map fun index => top + (frame.height - bound + index) * cellSize

def value? (frame : Frame) (target : Target) (top : Nat) (memory : Nat → Nat) : Operand → Option Nat
  | .constant text => some (target.literal text)
  | operand => (frame.address? top memory operand).map memory

section Equations

variable {frame : Frame} {top bound : Nat} {memory : Nat → Nat} {name : String}

theorem address?_unbound (position : Operand) (unbound : frame.binding? name = none) :
    frame.address? top memory (.variable name position) = none := by
  unfold address?
  rw [unbound]
  rfl

theorem address?_static (text : String) (found : frame.binding? name = some bound) :
    frame.address? top memory (.variable name (.constant text)) =
      (Text.Decimal.readBelow? addressLimit text.toList).map fun index =>
        top + (frame.height - bound + index) * cellSize := by
  rw [address?, found]
  rfl

theorem address?_dynamic {position : Operand} (moving : position.isConstant = false)
    (found : frame.binding? name = some bound) :
    frame.address? top memory (.variable name position) =
      (frame.address? top memory position).map fun inner =>
        top + (frame.height - bound + memory inner) * cellSize := by
  conv_lhs => unfold address?
  rw [found]
  cases position with
  | constant text => cases moving
  | function other => rfl
  | «variable» other inner => exact Option.map_map _ _ _

theorem value?_of_not_constant {operand : Operand} (moving : operand.isConstant = false)
    (target : Target) :
    frame.value? target top memory operand = (frame.address? top memory operand).map memory := by
  cases operand with
  | constant text => cases moving
  | function other => rfl
  | «variable» other inner => rfl

end Equations

theorem le_of_address? {frame : Frame} {top address : Nat} {memory : Nat → Nat} {operand : Operand}
    (found : frame.address? top memory operand = some address) : top ≤ address := by
  cases operand with
  | constant text => cases found
  | function name => cases found
  | «variable» name position =>
      unfold address? at found
      simp only [Option.bind_eq_some_iff, Option.map_eq_some_iff] at found
      obtain ⟨bound, _, index, _, rfl⟩ := found
      exact Nat.le_add_right _ _

/-- Cells below the top do not matter. -/
theorem address?_congr (frame : Frame) {top : Nat} {first second : Nat → Nat}
    (same : ∀ address, top ≤ address → first address = second address) (operand : Operand) :
    frame.address? top first operand = frame.address? top second operand := by
  induction operand with
  | constant text => rfl
  | function name => rfl
  | «variable» name position ih =>
      cases found : frame.binding? name with
      | none => rw [address?_unbound position found, address?_unbound position found]
      | some bound =>
          cases moving : position.isConstant with
          | true =>
              cases position with
              | constant text => rw [address?_static text found, address?_static text found]
              | function other => cases moving
              | «variable» other inner => cases moving
          | false =>
              rw [address?_dynamic moving found, address?_dynamic moving found, ih]
              cases inner : frame.address? top second position with
              | none => rfl
              | some address =>
                  rw [Option.map_some, Option.map_some, same address (le_of_address? inner)]

theorem value?_congr (frame : Frame) (target : Target) {top : Nat} {first second : Nat → Nat}
    (same : ∀ address, top ≤ address → first address = second address) (operand : Operand) :
    frame.value? target top first operand = frame.value? target top second operand := by
  cases moving : operand.isConstant with
  | true =>
      cases operand with
      | constant text => rfl
      | function name => cases moving
      | «variable» name position => cases moving
  | false =>
      rw [value?_of_not_constant moving, value?_of_not_constant moving, frame.address?_congr same]
      cases found : frame.address? top second operand with
      | none => rfl
      | some address => rw [Option.map_some, Option.map_some, same address (le_of_address? found)]

section Resolution

variable {frame : Frame} {pushed : Nat} {scratch : Register} {operand : Operand}
  {resolved : Resolved}

theorem Resolves.isPlain (resolves : Resolves frame pushed scratch operand resolved) :
    ∀ instruction ∈ resolved.prelude, instruction.isPlain :=
  fun instruction member =>
    Instruction.isPlain_of_addressing (resolves.addressing instruction member)

theorem Resolves.exists_address (resolves : Resolves frame pushed scratch operand resolved)
    (moving : operand.isConstant = false) (machine : Machine) :
    ∃ address, machine.address? resolved.place = some address := by
  cases resolves with
  | constant text => cases moving
  | static => exact ⟨_, rfl⟩
  | dynamic => exact ⟨_, rfl⟩

/-- The code for an operand leads to its cell, when the stack has grown by `pushed`
cells since the frame. -/
theorem Resolves.address (resolves : Resolves frame pushed scratch operand resolved)
    (covers : frame.Covers) (away : scratch ≠ .f5) (jumpless : scratch ≠ .xx) (target : Target)
    (machine : Machine) :
    (machine.run target resolved.prelude).address? resolved.place =
      frame.address? (machine.registers .f5 + pushed * cellSize) machine.memory operand := by
  induction resolves with
  | constant text => rfl
  | @static name text bound index found covered read fits =>
      -- A name is bound within the frame, so the pushed cells come on top of its offset.
      have lower := covers name bound found
      rw [address?_static text found, read]
      simp only [Machine.run_nil, Machine.address?, Option.map_some, Option.some.injEq, cellSize]
      omega
  | @dynamic name position bound inner moving found covered nested ih =>
      have lower := covers name bound found
      have prepared := Machine.sameBut_run target machine nested.addressing
      obtain ⟨address, cell⟩ := nested.exists_address moving (machine.run target inner.prelude)
      rw [address?_dynamic moving found, ← ih, cell, Machine.run_append]
      have top := prepared.registers .f5 away.symm (by decide)
      -- The scratch register holds the position, then cells, then bytes.
      simp only [Machine.run_cons, Machine.run_nil, Machine.pass, Machine.effect, Machine.write,
        Machine.address?, Machine.set_registers, Option.map_some, Option.some.injEq,
        Machine.read_of_address target cell, prepared.memory, Function.update_of_ne jumpless,
        Function.update_self, Function.update_of_ne away.symm, ne_eq, reduceCtorEq,
        not_false_eq_true, Function.update_of_ne, top, cellShift, cellSize]
      omega

theorem Resolves.value (resolves : Resolves frame pushed scratch operand resolved)
    (covers : frame.Covers) (away : scratch ≠ .f5) (jumpless : scratch ≠ .xx) (target : Target)
    (machine : Machine) :
    frame.value? target (machine.registers .f5 + pushed * cellSize) machine.memory operand =
      some ((machine.run target resolved.prelude).read target resolved.place) := by
  have prepared := Machine.sameBut_run target machine resolves.addressing
  have cell := resolves.address covers away jumpless target machine
  cases constant : operand.isConstant with
  | true =>
      cases resolves with
      | constant text => rfl
      | static => cases constant
      | dynamic => cases constant
  | false =>
      obtain ⟨address, found⟩ :=
        resolves.exists_address constant (machine.run target resolved.prelude)
      rw [value?_of_not_constant constant, ← cell, found, Machine.read_of_address target found,
        prepared.memory, Option.map_some]

end Resolution
end Frame
end TinkaCompiler
