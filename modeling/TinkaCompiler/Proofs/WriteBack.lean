import Mathlib.Data.Set.Function
import TinkaCompiler.Proofs.Spilling

/-! What a directly written instruction leaves in memory.

An operand that was pushed is written in its temporary cell first, and copied to its own
cell behind the instruction. The address of that cell is computed again there, so it is
the address from before only if the instruction has not written what the address depends
on. -/

set_option autoImplicit false

namespace TinkaCompiler

/-! Storing several values. -/

namespace Machine

def Apart (written : Nat → Bool) (cells : List (Option Nat)) : Prop :=
  ∀ index other address, written index → written other → cells[index]? = some (some address) →
    cells[other]? = some (some address) → index = other

theorem apart_iff {written : Nat → Bool} {cells : List (Option Nat)} : Apart written cells ↔
    ∀ index < cells.length, ∀ other < cells.length,
      written index ∧ written other ∧ cells[index]?.join.isSome ∧ cells[index]? = cells[other]? →
        index = other := by
  constructor
  · rintro apart index _ other _ ⟨here, there, stored, same⟩
    obtain ⟨address, joined⟩ := Option.isSome_iff_exists.mp stored
    have cell := Option.join_eq_some_iff.mp joined
    exact apart index other address here there cell (same.symm.trans cell)
  · intro apart index other address here there cell stored
    refine apart index (List.getElem?_eq_some_iff.mp cell).1 other
      (List.getElem?_eq_some_iff.mp stored).1 ?_
    exact ⟨here, there, by rw [cell]; rfl, cell.trans stored.symm⟩

instance (written : Nat → Bool) (cells : List (Option Nat)) : Decidable (Apart written cells) :=
  decidable_of_iff _ apart_iff.symm

section Stores

variable {written : Nat → Bool} {value : Nat → Nat} {cells : List (Option Nat)}
  {memory : Nat → Nat} {address : Nat}

@[simp]
theorem put_none (value : Nat) (memory : Nat → Nat) : put none value memory = memory :=
  rfl

@[simp]
theorem put_some_self (address value : Nat) (memory : Nat → Nat) :
    put (some address) value memory address = value :=
  Function.update_self ..

theorem put_of_ne {cell : Option Nat} (other : cell ≠ some address) (value : Nat) :
    put cell value memory address = memory address := by
  cases cell with
  | none => rfl
  | some stored => exact Function.update_of_ne (fun same => other (congrArg some same.symm)) _ _

/-- Above `top` only the cells there matter. -/
theorem put_congr {top : Nat} {first second : Nat → Nat}
    (same : Set.EqOn first second (Set.Ici top)) {cell other : Option Nat}
    (agree : ∀ address, top ≤ address → (cell = some address ↔ other = some address))
    (value : Nat) : Set.EqOn (put cell value first) (put other value second) (Set.Ici top) := by
  intro address above
  by_cases here : cell = some address
  · rw [here, (agree address above).mp here, put_some_self, put_some_self]
  · rw [put_of_ne here, put_of_ne (fun there => here ((agree address above).mpr there)), same above]

theorem storeAll_of_not_written
    (none : ∀ index, written index → cells[index]? ≠ some (some address)) :
    storeAll written value cells memory address = memory address := by
  induction cells generalizing written value memory with
  | nil => rfl
  | cons cell rest ih =>
      rw [storeAll, ih fun index here => none (index + 1) here, put_of_ne]
      intro stored
      obtain ⟨here, same⟩ := Option.ite_none_right_eq_some.mp stored
      exact none 0 here (congrArg some same)

theorem storeAll_of_written {index : Nat} (here : written index)
    (cell : cells[index]? = some (some address))
    (alone : ∀ other, written other → cells[other]? = some (some address) → other = index) :
    storeAll written value cells memory address = value index := by
  induction cells generalizing written value memory index with
  | nil => cases cell
  | cons first rest ih =>
      rw [storeAll]
      cases index with
      | zero =>
          cases cell
          rw [storeAll_of_not_written, if_pos here, put_some_self]
          intro other also stored
          cases alone (other + 1) also stored
      | succ index =>
          exact ih here cell fun other also stored => Nat.succ.inj (alone (other + 1) also stored)

theorem storeAll_congr {top : Nat} {also : Nat → Bool} {others : List (Option Nat)}
    {first second : Nat → Nat} (same : Set.EqOn first second (Set.Ici top))
    (length : cells.length = others.length)
    (agree : ∀ index address, top ≤ address →
      ((written index ∧ cells[index]? = some (some address)) ↔
        (also index ∧ others[index]? = some (some address)))) :
    Set.EqOn (storeAll written value cells first) (storeAll also value others second)
      (Set.Ici top) := by
  induction cells generalizing written also value others first second with
  | nil =>
      cases List.length_eq_zero_iff.mp length.symm
      exact same
  | cons cell rest ih =>
      obtain ⟨other, others, rfl⟩ := List.exists_cons_of_length_eq_add_one length.symm
      refine ih (put_congr same (fun address above => ?_) _) (Nat.succ.inj length) fun index =>
        agree (index + 1)
      simpa [Option.ite_none_right_eq_some] using agree 0 address above

/-- Values in cells that are apart may be stored in two parts. -/
theorem storeAll_parts (apart : Apart written cells) (part : Nat → Bool) :
    storeAll (fun index => written index && part index) value cells
        (storeAll (fun index => written index && !part index) value cells memory) =
      storeAll written value cells memory := by
  funext address
  by_cases stored : ∃ index, written index ∧ cells[index]? = some (some address)
  · obtain ⟨index, here, cell⟩ := stored
    have alone : ∀ other, written other → cells[other]? = some (some address) → other = index :=
      fun other also there => apart other index address also here there cell
    rw [storeAll_of_written here cell alone]
    cases inside : part index with
    | true =>
        refine storeAll_of_written (by rw [here, inside]; rfl) cell fun other also there => ?_
        exact alone other (Bool.and_eq_true_iff.mp also).1 there
    | false =>
        rw [storeAll_of_not_written]
        · refine storeAll_of_written (by rw [here, inside]; rfl) cell fun other also there => ?_
          exact alone other (Bool.and_eq_true_iff.mp also).1 there
        · intro other also there
          rw [Bool.and_eq_true] at also
          cases alone other also.1 there
          exact absurd (inside.symm.trans also.2) (by decide)
  · have none : ∀ index, written index → cells[index]? ≠ some (some address) :=
      fun index here cell => stored ⟨index, here, cell⟩
    rw [storeAll_of_not_written, storeAll_of_not_written, storeAll_of_not_written none]
    · exact fun index here => none index (Bool.and_eq_true_iff.mp here).1
    · exact fun index here => none index (Bool.and_eq_true_iff.mp here).1

end Stores
end Machine

namespace Frame

open Machine (put storeAll)
open Operand (spilled rank isSpilled)

variable {frame : Frame}

/-- Stores the values that are written one after another, each in the cell that its operand
has by then. -/
def storeEach (frame : Frame) (top : Nat) (written : Nat → Bool) (value : Nat → Nat) :
    List Operand → (Nat → Nat) → Nat → Nat
  | [], memory => memory
  | operand :: rest, memory =>
    frame.storeEach top (fun index => written (index + 1)) (fun index => value (index + 1)) rest
      (put (if written 0 then frame.address? top memory operand else none) (value 0) memory)

theorem storeEach_congr {top : Nat} {written : Nat → Bool} {value : Nat → Nat}
    {operands : List Operand} {first second : Nat → Nat}
    (same : Set.EqOn first second (Set.Ici top)) :
    Set.EqOn (frame.storeEach top written value operands first)
      (frame.storeEach top written value operands second) (Set.Ici top) := by
  induction operands generalizing written value first second with
  | nil => exact same
  | cons operand rest ih =>
      refine ih (Machine.put_congr same (fun address _ => ?_) _)
      rw [frame.address?_congr fun address above => same above]

theorem storeEach_of_not_written {top : Nat} {written : Nat → Bool} (value : Nat → Nat)
    {operands : List Operand} (none : ∀ index, index < operands.length → written index = false)
    (memory : Nat → Nat) :
    frame.storeEach top written value operands memory = memory := by
  induction operands generalizing written value memory with
  | nil => rfl
  | cons operand rest ih =>
      rw [storeEach, none 0 (Nat.zero_lt_succ _), if_neg Bool.false_ne_true]
      exact ih _ (fun index below => none (index + 1) (Nat.succ_lt_succ below)) memory

/-- With one value to store at most, the cells of the operands are known before. -/
theorem storeEach_eq_storeAll {top : Nat} {written : Nat → Bool} {value : Nat → Nat}
    {operands : List Operand}
    (single : ∀ index other, index < operands.length → other < operands.length →
      written index → written other → index = other) (memory : Nat → Nat) :
    frame.storeEach top written value operands memory =
      storeAll written value (operands.map (frame.address? top memory)) memory := by
  induction operands generalizing written value with
  | nil => rfl
  | cons operand rest ih =>
      rw [storeEach, List.map_cons, storeAll]
      cases first : written 0 with
      | false =>
          rw [if_neg Bool.false_ne_true, Machine.put_none]
          refine ih fun index other below alsoBelow here there => Nat.succ.inj ?_
          exact single _ _ (Nat.succ_lt_succ below) (Nat.succ_lt_succ alsoBelow) here there
      | true =>
          have none : ∀ index, index < rest.length → written (index + 1) = false := by
            intro index below
            by_contra here
            cases single 0 (index + 1) (Nat.zero_lt_succ _) (Nat.succ_lt_succ below) first
              (by simpa using here)
          rw [storeEach_of_not_written _ none]
          funext address
          rw [Machine.storeAll_of_not_written]
          intro index here cell
          have below := (List.getElem?_eq_some_iff.mp cell).1
          rw [List.length_map] at below
          exact absurd (here.symm.trans (none index below)) (by decide)

/-! The cells of an instruction. -/

section Cells

variable {target : Target} {operands : List Operand} {before reached : Machine}
  {places : List Place}

theorem Prepared.place_eq_none (prepared : frame.Prepared target operands before places reached)
    {index : Nat} (outside : operands[index]? = none) : places[index]? = none := by
  rw [List.getElem?_eq_none_iff] at outside ⊢
  rwa [prepared.length]

theorem Prepared.cell_of_spilled (prepared : frame.Prepared target operands before places reached)
    {index : Nat} (spills : isSpilled operands index) :
    (places.map reached.address?)[index]? =
      some (some (argumentCell (before.registers .f5) (rank operands index))) := by
  obtain ⟨operand, found, _⟩ := Operand.exists_of_isSpilled spills
  obtain ⟨place, here, cell, _⟩ := prepared.temporary index operand found spills
  rw [List.getElem?_map, here, Option.map_some, cell]

theorem Prepared.cell_of_own (prepared : frame.Prepared target operands before places reached)
    {index : Nat} (stays : isSpilled operands index = false) :
    (places.map reached.address?)[index]? =
      (operands.map (frame.address? (before.registers .f5) before.memory))[index]? := by
  rw [List.getElem?_map, List.getElem?_map]
  cases found : operands[index]? with
  | none =>
      rw [prepared.place_eq_none found]
      rfl
  | some operand =>
      rcases prepared.own index operand found stays with
        ⟨text, rfl, here⟩ | ⟨place, address, here, cell, own⟩
      · rw [here]
        rfl
      · rw [here, Option.map_some, Option.map_some, cell, own]

theorem Prepared.values (prepared : frame.Prepared target operands before places reached) :
    operands.map (frame.value? target (before.registers .f5) before.memory) =
      (places.map (reached.read target)).map some := by
  apply List.ext_getElem?
  intro index
  simp only [List.getElem?_map]
  cases found : operands[index]? with
  | none =>
      rw [prepared.place_eq_none found]
      rfl
  | some operand =>
      cases spills : isSpilled operands index with
      | true =>
          obtain ⟨place, here, cell, value⟩ := prepared.temporary index operand found spills
          rw [here, Option.map_some, value, Option.map_some, Option.map_some,
            Machine.read_of_address target cell]
      | false =>
          rcases prepared.own index operand found spills with
            ⟨text, rfl, here⟩ | ⟨place, address, here, cell, own⟩
          · rw [here]
            rfl
          · have moving : operand.isConstant = false := by
              cases operand with
              | constant text => cases own
              | _ => rfl
            rw [here, Option.map_some, value?_of_not_constant moving, own, Option.map_some,
              Option.map_some, Option.map_some, Machine.read_of_address target cell,
              prepared.above address (le_of_address? own)]

/-- Above the old top an instruction writes the operands that were not pushed. -/
theorem Prepared.storeAll_above (prepared : frame.Prepared target operands before places reached)
    (written : Nat → Bool) (value : Nat → Nat) :
    Set.EqOn (storeAll written value (places.map reached.address?) reached.memory)
      (storeAll (fun index => written index && !isSpilled operands index) value
        (operands.map (frame.address? (before.registers .f5) before.memory)) before.memory)
      (Set.Ici (before.registers .f5)) := by
  refine Machine.storeAll_congr (fun address above => prepared.above address above) ?_
    fun index address above => ?_
  · rw [List.length_map, List.length_map, prepared.length]
  · cases spills : isSpilled operands index with
    | true =>
        have below := (prepared.below index spills).2
        rw [prepared.cell_of_spilled spills]
        simp only [Option.some.injEq, Bool.not_true, Bool.and_false, Bool.false_eq_true,
          false_and, iff_false]
        rintro ⟨_, rfl⟩
        simp only [cellSize] at below
        omega
    | false => rw [prepared.cell_of_own spills, Bool.not_false, Bool.and_true]

theorem Prepared.storeAll_temporary
    (prepared : frame.Prepared target operands before places reached) {written : Nat → Bool}
    (value : Nat → Nat) {index : Nat} (spills : isSpilled operands index) (here : written index) :
    storeAll written value (places.map reached.address?) reached.memory
      (argumentCell (before.registers .f5) (rank operands index)) = value index := by
  refine Machine.storeAll_of_written here (prepared.cell_of_spilled spills) fun other _ cell => ?_
  cases also : isSpilled operands other with
  | true =>
      rw [prepared.cell_of_spilled also, Option.some.injEq, Option.some.injEq] at cell
      by_contra different
      exact prepared.apart other index also spills different cell
  | false =>
      -- An operand that was not pushed has its cell above the old top.
      rw [prepared.cell_of_own also, List.getElem?_map, Option.map_eq_some_iff] at cell
      obtain ⟨operand, _, own⟩ := cell
      have above := le_of_address? own
      have below := (prepared.below index spills).2
      simp only [cellSize] at below
      omega

end Cells

theorem run_copied (covers : frame.Covers) (target : Target) {mnemonic : Mnemonic}
    {temporaries index first value : Nat} {operand : Operand} {rest : List Operand}
    {copying : List Instruction} {machine : Machine}
    (copies : if isSpilled (operand :: rest) 0 && mnemonic.writes index then
        ∃ resolved, Resolves frame temporaries .f0 operand resolved ∧
          copying = resolved.prelude ++ [.move (Frame.temporary temporaries first) resolved.place]
      else copying = [])
    (holds : isSpilled (operand :: rest) 0 → mnemonic.writes index →
      machine.memory (machine.registers .f5 + (temporaries - first) * cellSize) = value) :
    let top := machine.registers .f5 + temporaries * cellSize
    let after := machine.run target copying
    after.registers .f5 = machine.registers .f5 ∧
      after.memory = put (if mnemonic.writes index && isSpilled (operand :: rest) 0 then
        frame.address? top machine.memory operand else none) value machine.memory := by
  intro top after
  rw [Bool.and_comm]
  split at copies
  case isTrue written =>
    obtain ⟨resolved, resolves, rfl⟩ := copies
    rw [if_pos written]
    rw [Bool.and_eq_true] at written
    have moving := written.1
    rw [Operand.isSpilled_cons_zero, Bool.and_eq_true] at moving
    obtain ⟨low, address, cell, memory⟩ := run_copying covers resolves moving.1 target machine _
    refine ⟨low, memory.trans ?_⟩
    rw [cell]
    exact congrArg (Function.update machine.memory address) (holds written.1 written.2)
  case isFalse unwritten =>
    cases copies
    rw [if_neg unwritten]
    exact ⟨rfl, rfl⟩

/-- Of the operands that were pushed, those that are written are copied back one by one. -/
theorem run_writeBack (covers : frame.Covers) (target : Target) {mnemonic : Mnemonic}
    {temporaries index first : Nat} {operands : List Operand} {value : Nat → Nat}
    {machine : Machine}
    (success : (frame.writeBack mnemonic temporaries index (assignCells first operands)).outcome =
      .ok ())
    (numbered : 0 < first) (room : first + (spilled operands).length ≤ temporaries + 1)
    (holds : ∀ offset, isSpilled operands offset → mnemonic.writes (index + offset) →
      machine.memory
          (machine.registers .f5 + (temporaries - (first + rank operands offset)) * cellSize) =
        value offset) :
    let top := machine.registers .f5 + temporaries * cellSize
    Set.EqOn
      (machine.run target
        (frame.writeBack mnemonic temporaries index (assignCells first operands)).code).memory
      (frame.storeEach top
        (fun offset => mnemonic.writes (index + offset) && isSpilled operands offset)
        value operands machine.memory)
      (Set.Ici top) := by
  intro top
  induction operands generalizing index first value machine with
  | nil => exact Set.eqOn_refl _ _
  | cons operand rest ih =>
      obtain ⟨behind, copying, code, copies⟩ := writeBack_cons success
      obtain ⟨low, memory⟩ := run_copied covers target copies (holds 0)
      rw [code, Machine.run_append]
      generalize machine.run target copying = after at low memory ⊢
      generalize opened : (if isSpilled (operand :: rest) 0 then first + 1 else first) =
        next at behind ⊢
      have positive : 0 < next := by
        rw [← opened]
        split <;> omega
      have number : ∀ offset, isSpilled rest offset →
          next + rank rest offset = first + rank (operand :: rest) (offset + 1) := by
        intro offset spills
        rw [← opened, Operand.rank_cons_of_isSpilled spills]
        split <;> omega
      have behindRoom : next + (spilled rest).length ≤ temporaries + 1 := by
        rw [Operand.spilled_cons, ← Operand.isSpilled_cons_zero] at room
        rw [← opened]
        split at room
        case isTrue spills =>
          rw [if_pos spills, Nat.add_assoc, Nat.add_comm 1]
          exact room
        case isFalse stays => rwa [if_neg stays]
      have stillHolds : ∀ offset, isSpilled rest offset → mnemonic.writes (index + 1 + offset) →
          after.memory
              (after.registers .f5 + (temporaries - (next + rank rest offset)) * cellSize) =
            value (offset + 1) := by
        intro offset spills written
        have ranked := Operand.rank_lt_of_isSpilled spills
        -- Values are copied above the top, and the temporary cells are below it.
        rw [low, memory, Machine.put_of_ne]
        · rw [number offset spills]
          refine holds (offset + 1) (by rwa [Operand.isSpilled_cons_succ]) ?_
          rwa [Nat.add_comm offset 1, ← Nat.add_assoc]
        · intro same
          obtain ⟨_, cell⟩ := Option.ite_none_right_eq_some.mp same
          have above := le_of_address? cell
          simp only [cellSize] at above
          omega
      have shifted : (fun offset =>
        mnemonic.writes (index + (offset + 1)) && isSpilled (operand :: rest) (offset + 1)) =
          fun offset => mnemonic.writes (index + 1 + offset) && isSpilled rest offset := by
        funext offset
        rw [Operand.isSpilled_cons_succ, Nat.add_comm offset 1, Nat.add_assoc]
      have behindCopies := @ih (index + 1) next (fun offset => value (offset + 1)) after behind
        positive behindRoom stillHolds
      rw [low, memory] at behindCopies
      rw [storeEach, shifted]
      exact behindCopies

end Frame

/-! Instructions that compute. -/

/-- The instruction computes values from those of all its operands, and stores them in the
operands that it writes. Nothing is said about operands that are registers. -/
def Target.Performs (target : Target) (mnemonic : Mnemonic)
    (meaning : List Nat → Nat → Nat) : Prop :=
  ∀ places machine, (∀ held, .register held ∉ places) →
    target.perform mnemonic places machine =
      { machine with
        memory := Machine.storeAll mnemonic.writes (meaning (places.map (machine.read target)))
          (places.map machine.address?) machine.memory }

theorem Target.performs_computing (literal : String → Nat)
    (relation : Comparison → Nat → Nat → Bool) (meaning : Mnemonic → List Nat → Nat → Nat)
    (mnemonic : Mnemonic) :
    (computing literal relation meaning).Performs mnemonic (meaning mnemonic) :=
  fun _ _ _ => rfl

namespace Frame

open Machine (storeAll)
open Operand (spilled rank isSpilled)

variable {frame : Frame}

/-- Only the second of three operands can be both written and pushed. -/
theorem eq_one_of_copied {mnemonic : Mnemonic} {operands : List Operand}
    (arity : operands.length = mnemonic.arity) {index : Nat}
    (copied : mnemonic.writes index && isSpilled operands index) : index = 1 := by
  rw [Bool.and_eq_true] at copied
  have later := Operand.succ_lt_length_of_isSpilled copied.2
  have written := copied.1
  rw [arity] at later
  cases mnemonic <;> simp only [Mnemonic.writes, Mnemonic.arity, beq_iff_eq, decide_eq_true_eq]
    at written later <;> omega

theorem run_raw (covers : frame.Covers) {target : Target} {mnemonic : Mnemonic}
    {meaning : List Nat → Nat → Nat} (performs : target.Performs mnemonic meaning)
    {operands : List Operand} (success : (frame.raw mnemonic operands).outcome = .ok ())
    {machine : Machine}
    (room : (operands.countP Operand.isDynamic - 1) * cellSize ≤ machine.registers .f5) :
    let top := machine.registers .f5
    ∃ values, operands.map (frame.value? target top machine.memory) = values.map some ∧
      Set.EqOn (machine.run target (frame.raw mnemonic operands).code).memory
        (frame.storeEach top (fun index => mnemonic.writes index && isSpilled operands index)
          (meaning values) operands
          (storeAll (fun index => mnemonic.writes index && !isSpilled operands index)
            (meaning values) (operands.map (frame.address? top machine.memory)) machine.memory))
        (Set.Ici top) := by
  intro top
  obtain ⟨places, pushes, loads, copies, emitted⟩ := code_raw success
  have prepared := run_prepared covers target pushes loads room
  rw [emitted, Machine.run_append, Machine.run_cons, Machine.run_append]
  generalize machine.run target _ = reached at prepared ⊢
  have low := prepared.top
  rw [← Operand.length_spilled] at low
  let values := places.map (reached.read target)
  refine ⟨values, prepared.values, ?_⟩
  let performed := reached.pass target (.raw mnemonic places)
  have registerless : ∀ held, .register held ∉ places := by
    intro held member
    rcases prepared.constant_or_cell member with ⟨_, _, constant⟩ | ⟨_, cell⟩
    · cases constant
    · cases cell
  have effect := performs places reached registerless
  have still : performed.registers .f5 = reached.registers .f5 := congrArg (·.registers .f5) effect
  have memory : performed.memory =
      storeAll mnemonic.writes (meaning values) (places.map reached.address?) reached.memory :=
    congrArg (·.memory) effect
  have holds : ∀ index, isSpilled operands index → mnemonic.writes (0 + index) →
      performed.memory
          (performed.registers .f5 +
            ((spilled operands).length - (1 + rank operands index)) * cellSize) =
        meaning values index := by
    intro index spills written
    have ranked := Operand.rank_lt_of_isSpilled spills
    have cell : reached.registers .f5 + ((spilled operands).length - (1 + rank operands index)) *
        cellSize = argumentCell top (rank operands index) := by
      simp only [top, argumentCell, cellSize] at *
      omega
    rw [still, cell, memory]
    rw [Nat.zero_add] at written
    exact prepared.storeAll_temporary _ spills written
  have copied := run_writeBack covers target copies Nat.one_pos
    (Nat.le_of_eq (Nat.add_comm _ _)) holds
  rw [still, low, memory] at copied
  simp only [Nat.zero_add] at copied
  rw [(Machine.run_releaseCells target _ _).2.memory]
  exact copied.trans (storeEach_congr (prepared.storeAll_above mnemonic.writes (meaning values)))

end Frame

namespace Lowering.State

open Machine (storeAll Apart)
open Operand (isSpilled)
open StateTransition (Reaches)

/-- Values for operands that were not pushed are stored in the operands' own cells, and then
the values for those that were, in the cells that they have by then. If these are the cells
from before, the instruction as a whole does what it would do with all addresses at hand. -/
theorem raw_written_back {state : State} (reachable : state.Reachable) {mnemonic : Mnemonic}
    {operands : List Operand} (arity : operands.length = mnemonic.arity)
    (lowered : (state.lower (.raw mnemonic operands)).error = none) {target : Target}
    {meaning : List Nat → Nat → Nat} (performs : target.Performs mnemonic meaning)
    {machine : Machine}
    (room : (operands.countP Operand.isDynamic - 1) * cellSize ≤ machine.registers .f5)
    (apart : Apart mnemonic.writes
      (operands.map (state.frame.address? (machine.registers .f5) machine.memory))) :
    let code := (state.lower (.raw mnemonic operands)).code
    let last := machine.run target code
    let top := machine.registers .f5
    let cells := operands.map (state.frame.address? top machine.memory)
    (∀ program, code <+: program.drop (machine.registers .xx) →
      Reaches (Machine.step target program) machine last) ∧
      ∃ values, operands.map (state.frame.value? target top machine.memory) = values.map some ∧
        let direct := storeAll (fun index => mnemonic.writes index && !isSpilled operands index)
          (meaning values) cells machine.memory
        Set.EqOn last.memory
          (storeAll (fun index => mnemonic.writes index && isSpilled operands index)
            (meaning values) (operands.map (state.frame.address? top direct)) direct)
          (Set.Ici top) ∧
        ((∀ index operand, operands[index]? = some operand → mnemonic.writes index →
            isSpilled operands index →
            state.frame.address? top direct operand =
              state.frame.address? top machine.memory operand) →
          Set.EqOn last.memory (storeAll mnemonic.writes (meaning values) cells machine.memory)
            (Set.Ici top)) := by
  intro code last top cells
  have covers := reachable.covers
  have success : (state.frame.raw mnemonic operands).outcome = .ok () :=
    Step.outcome_of_error_eq_none lowered
  have emitted : code = (state.frame.raw mnemonic operands).code := Step.code_ofEmission _ _ _
  constructor
  · intro program placed
    obtain ⟨places, pushes, loads, copies, split⟩ := Frame.code_raw success
    rw [emitted, split] at placed
    obtain ⟨arrives, acts, goesOn⟩ :=
      Machine.reaches_around target (Frame.transfers_raw pushes loads copies) placed
    simp only [last]
    rw [emitted, split, Machine.run_append]
    exact arrives.trans (acts.trans goesOn)
  · obtain ⟨values, read, stored⟩ := Frame.run_raw covers performs success room
    rw [← emitted, Frame.storeEach_eq_storeAll] at stored
    · refine ⟨values, read, stored, fun same => ?_⟩
      rw [← Machine.storeAll_parts apart (isSpilled operands)]
      refine stored.trans (Machine.storeAll_congr (Set.eqOn_refl _ _) (by simp)
        fun index address _ => ?_)
      refine and_congr_right fun copied => ?_
      rw [Bool.and_eq_true] at copied
      rw [List.getElem?_map, List.getElem?_map]
      cases found : operands[index]? with
      | none => rfl
      | some operand =>
          rw [Option.map_some, Option.map_some, same index operand found copied.1 copied.2]
    · intro index other _ _ here there
      rw [Frame.eq_one_of_copied arity here, Frame.eq_one_of_copied arity there]

/-- Three moved operands, of which the second is copied back. -/
theorem raw_written_back_three_moved :
    let target := Target.computing String.length (fun _ _ _ => false) fun _ values index =>
      values.foldl (· + ·) index
    let arrays := ((start.lower (.function "f" [])).state.lower (.declare "a" true 2)).state
    let state :=
      (((arrays.lower (.declare "b" true 2)).state.lower (.declare "c" true 2)).state.lower
        (.declare "i" false 1)).state
    let operands : List Operand :=
      [.variable "a" (.variable "i" .zero), .variable "b" (.variable "i" .zero),
        .variable "c" (.variable "i" .zero)]
    let machine : Machine :=
      ⟨fun held => if held = .f5 then 100 else 0, fun cell => if cell = 100 then 1 else cell, false⟩
    Set.EqOn (machine.run target (state.lower (.raw .lat operands)).code).memory
      (Function.update (Function.update machine.memory 116 349) 108 350) (Set.Ici 100) := by
  intro target arrays state operands machine
  have reachable : state.Reachable := .lower _ (.lower _ (.lower _ (.lower _ (.lower _ .start))))
  have cells : operands.map (state.frame.address? 100 machine.memory) =
      [some 124, some 116, some 108] := by
    decide +kernel
  have read : operands.map (state.frame.value? target 100 machine.memory) =
      [124, 116, 108].map some := by
    decide +kernel
  obtain ⟨_, values, found, _, stored⟩ :=
    @raw_written_back state reachable .lat operands rfl (by decide +kernel) target _
      (Target.performs_computing _ _ _ .lat) machine (by decide) (by decide +kernel)
  cases List.map_injective_iff.mpr (Option.some_injective _) (found.symm.trans read)
  have same := stored fun index operand here written spills => by
    cases Frame.eq_one_of_copied rfl (Bool.and_eq_true_iff.mpr ⟨written, spills⟩)
    cases here
    decide +kernel
  rwa [show machine.registers .f5 = 100 from rfl, cells] at same

/-- The third operand is the index of the second. Its new value is in place when the second
is copied back, so element 1 of the array is written, and element 0 keeps its value. -/
theorem copied_back_to_other_element :
    let meaning : List Nat → Nat → Nat := fun _ index => if index = 1 then 7 else 1
    let target := Target.computing String.length (fun _ _ _ => false) fun _ => meaning
    let state :=
      ((start.lower (.function "f" [⟨"i", false⟩, ⟨"z", false⟩])).state.lower
        (.declare "a" true 2)).state
    let operands : List Operand :=
      [.constant "1", .variable "a" (.variable "i" .zero), .variable "i" (.variable "z" .zero)]
    let machine : Machine :=
      ⟨fun held => if held = .f5 then 100 else 0, fun cell => if cell < 108 then 5 else 0, false⟩
    let last := machine.run target (state.lower (.raw .lat operands)).code
    let cells := operands.map (state.frame.address? 100 machine.memory)
    state.Reachable ∧ operands.length = Mnemonic.lat.arity ∧
      (state.lower (.raw .lat operands)).error = none ∧ target.Performs .lat meaning ∧
      cells = [none, some 100, some 116] ∧ Apart Mnemonic.lat.writes cells ∧
      last.memory 100 = 5 ∧ last.memory 104 = 7 ∧
      ∀ values,
        ¬Set.EqOn last.memory (storeAll Mnemonic.lat.writes (meaning values) cells machine.memory)
          (Set.Ici (machine.registers .f5)) := by
  intro meaning target state operands machine last cells
  have denoted : cells = [none, some 100, some 116] := by decide +kernel
  have kept : last.memory 100 = 5 := by decide +kernel
  refine ⟨.lower _ (.lower _ .start), rfl, by decide +kernel,
    Target.performs_computing _ _ (fun _ => meaning) .lat, denoted, by decide +kernel, kept,
    by decide +kernel, fun values same => ?_⟩
  have stored := same (Set.mem_Ici.mpr (Nat.le_refl 100))
  rw [kept, denoted] at stored
  exact absurd stored (by decide)

end Lowering.State
end TinkaCompiler
