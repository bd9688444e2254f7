import TinkaCompiler.Proofs.CallingConvention

/-! The cell of an operand by the values of its positions.

A variable is moved by the value of its position: a constant counts as it is written, and
another variable by what its own cell holds. The code that prepares an operand computes
these values one after the other in a single register. What it leads to is the cell that
they give, so a position that is computed and one that is written lead to the same cell. -/

set_option autoImplicit false

namespace TinkaCompiler

open StateTransition (Reaches)

namespace Frame

/-- How many cells an operand moves the variable that it is the position of, when the stack
has grown by `pushed` cells since the frame. -/
inductive Index (frame : Frame) (pushed : Nat) (machine : Machine) : Operand → Nat → Prop where
  | constant {text : String} {index : Nat} :
      Text.Decimal.readBelow? addressLimit text.toList = some index →
        Index frame pushed machine (.constant text) index
  | cell {name : String} {position : Operand} {bound index : Nat} :
      frame.binding? name = some bound → Index frame pushed machine position index →
      Index frame pushed machine (.variable name position)
        (machine.memory (machine.registers .f5 + cellSize *
          (frame.height + pushed - bound + index)))

section Indices

variable {frame : Frame} {pushed : Nat} {machine : Machine} {name : String} {position : Operand}
  {bound index : Nat}

theorem Index.unique {other : Nat} (first : frame.Index pushed machine position index)
    (second : frame.Index pushed machine position other) : index = other := by
  induction first generalizing other with
  | constant read =>
      cases second with
      | constant otherRead => exact Option.some.inj (read.symm.trans otherRead)
  | cell found _ ih =>
      cases second with
      | cell otherFound inner =>
          obtain rfl := Option.some.inj (found.symm.trans otherFound)
          rw [ih inner]

theorem Index.address? (indexed : frame.Index pushed machine position index) (covers : frame.Covers)
    (found : frame.binding? name = some bound) :
    frame.address? (machine.registers .f5 + pushed * cellSize) machine.memory
      (.variable name position) =
        some (machine.registers .f5 + cellSize * (frame.height + pushed - bound + index)) := by
  -- The frame counts from its own top, which lies above the pushed cells.
  have counted {bound index : Nat} (below : bound ≤ frame.height) :
      machine.registers .f5 + pushed * cellSize + (frame.height - bound + index) * cellSize =
        machine.registers .f5 + cellSize * (frame.height + pushed - bound + index) := by
    simp only [cellSize]
    omega
  have below := covers name bound found
  induction indexed generalizing name bound with
  | constant read => rw [address?_static _ found, read, Option.map_some, counted below]
  | cell innerFound _ ih =>
      rw [address?_dynamic rfl found, ih innerFound (covers _ _ innerFound),
        Option.map_some, counted below]

theorem Resolves.exists_index {scratch : Register} {operand : Operand} {resolved : Resolved}
    (machine : Machine) (resolves : Resolves frame pushed scratch operand resolved)
    (whole : operand = .variable name position) :
    ∃ bound index, frame.binding? name = some bound ∧
      frame.Index pushed machine position index := by
  induction resolves generalizing name position with
  | constant text => cases whole
  | static found _ read _ =>
      cases whole
      exact ⟨_, _, found, .constant read⟩
  | @dynamic outer inside bound inner moving found _ nested ih =>
      cases whole
      -- A position that is not a constant and can be resolved is a variable again.
      cases inside with
      | constant text => cases moving
      | function other => cases nested
      | «variable» other deeper =>
          obtain ⟨_, _, innerFound, indexed⟩ := ih rfl
          exact ⟨_, _, found, .cell innerFound indexed⟩

/-- The code for a variable leads to the cell that the value of its position gives. -/
theorem Resolves.exists_cell {scratch : Register} {resolved : Resolved}
    (resolves : Resolves frame pushed scratch (.variable name position) resolved)
    (covers : frame.Covers) (working : scratch = .f0 ∨ scratch = .f1) (target : Target)
    (machine : Machine) :
    ∃ bound index, frame.binding? name = some bound ∧ bound ≤ frame.height ∧
      frame.Index pushed machine position index ∧
      (machine.run target resolved.prelude).address? resolved.place =
        some (machine.registers .f5 + cellSize * (frame.height + pushed - bound + index)) := by
  have away : scratch ≠ .f5 ∧ scratch ≠ .xx := by rcases working with rfl | rfl <;> decide
  obtain ⟨bound, index, found, indexed⟩ := resolves.exists_index machine rfl
  refine ⟨bound, index, found, covers name bound found, indexed, ?_⟩
  rw [resolves.address covers away.1 away.2 target machine, indexed.address? covers found]

end Indices
end Frame

namespace Lowering.State

/-- The code that prepares a variable runs to its end and changes only the scratch register.
It leads to the cell that lies as far above the top as the frame, the pushed cells and the
value of the position say. A position that is computed leads to the same cell as the
constant that is its value. -/
theorem resolved_to_cell {state : State} (reachable : state.Reachable) (pushed : Nat)
    {scratch : Register} (working : scratch = .f0 ∨ scratch = .f1) (target : Target)
    (machine : Machine) :
    (∀ name position resolved,
      state.frame.resolve pushed scratch (.variable name position) = .ok resolved →
      let after := machine.run target resolved.prelude
      (∀ program, resolved.prelude <+: program.drop (machine.registers .xx) →
        Reaches (Machine.step target program) machine after) ∧
      after.memory = machine.memory ∧
      (∀ held, held ≠ scratch → held ≠ .xx → after.registers held = machine.registers held) ∧
      ∃ bound index, state.frame.binding? name = some bound ∧ bound ≤ state.frame.height ∧
        state.frame.Index pushed machine position index ∧
        after.address? resolved.place =
          some (machine.registers .f5 + cellSize * (state.frame.height + pushed - bound + index))) ∧
      ∀ name position text index moved fixed, state.frame.Index pushed machine position index →
        Text.Decimal.readBelow? addressLimit text.toList = some index →
        state.frame.resolve pushed scratch (.variable name position) = .ok moved →
        state.frame.resolve pushed scratch (.variable name (.constant text)) = .ok fixed →
        fixed.prelude = [] ∧
          (machine.run target moved.prelude).address? moved.place =
            machine.address? fixed.place := by
  have covers := reachable.covers
  refine ⟨?_, ?_⟩
  · intro name position resolved success after
    have resolves := Frame.resolves_of_resolve success
    have same := Machine.sameBut_run target machine resolves.addressing
    refine ⟨?_, same.memory, same.registers, resolves.exists_cell covers working target machine⟩
    rintro program ⟨tail, placed⟩
    exact Machine.reaches_run target resolves.isPlain placed.symm
  · intro name position text index moved fixed indexed read moving fixing
    have constant := Frame.resolves_of_resolve fixing
    have pure : fixed.prelude = [] := by
      cases constant with
      | static => rfl
      | dynamic moving => cases moving
    obtain ⟨bound, value, found, _, valued, cell⟩ :=
      (Frame.resolves_of_resolve moving).exists_cell covers working target machine
    obtain ⟨other, written, otherFound, _, otherValued, otherCell⟩ :=
      constant.exists_cell covers working target machine
    obtain rfl := Option.some.inj (found.symm.trans otherFound)
    obtain rfl := valued.unique indexed
    obtain rfl := otherValued.unique (.constant read)
    rw [pure] at otherCell
    exact ⟨pure, cell.trans otherCell.symm⟩

/-- Positions in positions, while one cell is pushed. The cell of `i` holds 2, and the one
that it leads to in `x` holds 1. -/
theorem resolved_to_cell_nested :
    let target : Target := ⟨String.length, fun _ _ _ => false, fun _ _ machine => machine⟩
    let state :=
      ((State.start.lower (.function "f" [⟨"i", false⟩])).state.lower (.declare "x" true 3)).state
    let machine : Machine := ⟨fun held => if held = .f5 then 100 else 7,
      fun address => if address = 120 then 2 else if address = 112 then 1 else 0, false⟩
    let moved := Operand.variable "x" (.variable "i" .zero)
    let fixed := Operand.variable "x" (.constant "2")
    ∃ nested single static, state.frame.resolve 1 .f1 (.variable "x" moved) = .ok nested ∧
      state.frame.resolve 1 .f1 moved = .ok single ∧ state.frame.resolve 1 .f1 fixed = .ok static ∧
      (machine.run target nested.prelude).registers .f0 = 7 ∧
      (machine.run target nested.prelude).address? nested.place = some 108 ∧
      (machine.run target single.prelude).address? single.place =
        machine.address? static.place := by
  intro target state machine moved fixed
  have reachable : state.Reachable := .lower _ (.lower _ .start)
  have x : state.frame.binding? "x" = some 5 := by decide +kernel
  have i : state.frame.binding? "i" = some 1 := by decide +kernel
  have zero : Text.Decimal.readBelow? addressLimit "0".toList = some 0 := by decide +kernel
  have inner : state.frame.Index 1 machine (.variable "i" .zero) 2 := .cell i (.constant zero)
  have outer : state.frame.Index 1 machine moved 1 := .cell x inner
  obtain ⟨cells, same⟩ := resolved_to_cell reachable 1 (Or.inr rfl) target machine
  have nested : state.frame.resolve 1 .f1 (.variable "x" moved) = .ok _ := rfl
  have single : state.frame.resolve 1 .f1 moved = .ok _ := rfl
  have static : state.frame.resolve 1 .f1 fixed = .ok ⟨.cell 12, []⟩ := by decide +kernel
  obtain ⟨_, _, registers, bound, index, found, _, indexed, cell⟩ := cells _ _ _ nested
  obtain rfl := Option.some.inj (found.symm.trans x)
  obtain rfl := indexed.unique outer
  exact ⟨_, _, _, nested, single, static, registers .f0 (by decide) (by decide), cell,
    (same _ _ _ _ _ _ inner (by decide +kernel) single static).2⟩

end Lowering.State
end TinkaCompiler
