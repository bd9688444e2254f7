import TinkaCompiler.Proofs.CallingConvention

/-! Operands of directly written instructions in temporary cells.

Addresses that are known only at run time are computed in one register, so an instruction
can hold one such operand at most. All others are pushed before it, as arguments are, and
stand in the instruction as the cells that they were pushed to. At the line of the
instruction itself every operand is at hand: the pushed ones with the values they had, the
others in their own cells. -/

set_option autoImplicit false

namespace TinkaCompiler

/-! Operands that are pushed. -/

namespace Operand

def spilled (operands : List Operand) : List Operand :=
  (operands.filter isDynamic).dropLast

def rank (operands : List Operand) (index : Nat) : Nat :=
  (operands.take index).countP isDynamic

def isSpilled (operands : List Operand) (index : Nat) : Bool :=
  operands[index]?.any isDynamic && rank operands index + 1 < operands.countP isDynamic

section Indices

variable (operand : Operand) (rest : List Operand) (index : Nat)

@[simp]
theorem rank_zero : rank rest 0 = 0 :=
  rfl

theorem rank_cons_succ :
    rank (operand :: rest) (index + 1) =
      (if operand.isDynamic then 1 else 0) + rank rest index := by
  rw [rank, rank, List.take_succ_cons, List.countP_cons, Nat.add_comm]

theorem isSpilled_cons_zero :
    isSpilled (operand :: rest) 0 = (operand.isDynamic && rest.any isDynamic) := by
  cases moving : operand.isDynamic with
  | false => simp [isSpilled, moving]
  | true =>
      rw [isSpilled, Bool.eq_iff_iff]
      simp [moving]

theorem isSpilled_cons_succ : isSpilled (operand :: rest) (index + 1) = isSpilled rest index := by
  rw [isSpilled, isSpilled, rank_cons_succ, List.countP_cons, List.getElem?_cons_succ]
  cases operand.isDynamic <;> simp [Nat.add_comm 1]

end Indices

theorem length_spilled (operands : List Operand) :
    (spilled operands).length = operands.countP isDynamic - 1 := by
  rw [spilled, List.length_dropLast, List.countP_eq_length_filter]

theorem spilled_cons (operand : Operand) (rest : List Operand) :
    spilled (operand :: rest) =
      if operand.isDynamic && rest.any isDynamic then operand :: spilled rest
      else spilled rest := by
  cases moving : operand.isDynamic with
  | false => simp [spilled, moving]
  | true =>
      cases later : rest.any isDynamic with
      | false =>
          have none : rest.filter isDynamic = [] := by simpa using later
          simp [spilled, moving, none]
      | true =>
          have some : rest.filter isDynamic ≠ [] := by simpa using later
          simp [spilled, moving, List.dropLast_cons_of_ne_nil some]

theorem exists_of_isSpilled {operands : List Operand} {index : Nat}
    (spills : isSpilled operands index) :
    ∃ operand, operands[index]? = some operand ∧ operand.isDynamic := by
  simp only [isSpilled, Bool.and_eq_true, Option.any_eq_true] at spills
  exact spills.1

theorem any_of_isSpilled {operands : List Operand} {index : Nat}
    (spills : isSpilled operands index) :
    operands.any isDynamic := by
  obtain ⟨operand, found, moving⟩ := exists_of_isSpilled spills
  exact List.any_eq_true.mpr ⟨operand, List.mem_of_getElem? found, moving⟩

/-- In front of an operand that is pushed, the dynamic ones are those that are pushed too. -/
theorem rank_cons_of_isSpilled {operand : Operand} {rest : List Operand} {index : Nat}
    (spills : isSpilled rest index) :
    rank (operand :: rest) (index + 1) =
      (if isSpilled (operand :: rest) 0 then 1 else 0) + rank rest index := by
  rw [rank_cons_succ, isSpilled_cons_zero, any_of_isSpilled spills, Bool.and_true]

/-- The rank of an operand is its place among those that are pushed. -/
theorem getElem?_spilled {operands : List Operand} {index : Nat}
    (spills : isSpilled operands index) :
    (spilled operands)[rank operands index]? = operands[index]? := by
  induction operands generalizing index with
  | nil => simp [isSpilled] at spills
  | cons operand rest ih =>
      rw [spilled_cons]
      cases index with
      | zero =>
          rw [isSpilled_cons_zero] at spills
          rw [if_pos spills]
          rfl
      | succ index =>
          rw [isSpilled_cons_succ] at spills
          rw [rank_cons_succ, List.getElem?_cons_succ, any_of_isSpilled spills,
            Bool.and_true, ← ih spills]
          split
          · rw [Nat.add_comm, List.getElem?_cons_succ]
          · rw [Nat.zero_add]

theorem rank_lt_of_isSpilled {operands : List Operand} {index : Nat}
    (spills : isSpilled operands index) :
    rank operands index < (spilled operands).length := by
  simp only [isSpilled, Bool.and_eq_true, decide_eq_true_eq] at spills
  rw [length_spilled]
  omega

theorem succ_lt_length_of_isSpilled {operands : List Operand} {index : Nat}
    (spills : isSpilled operands index) :
    index + 1 < operands.length := by
  simp only [isSpilled, Bool.and_eq_true, decide_eq_true_eq] at spills
  have parts := congrArg (List.countP isDynamic) (List.take_append_drop index operands)
  rw [List.countP_append] at parts
  have bound := List.countP_le_length (p := isDynamic) (l := operands.drop index)
  rw [List.length_drop] at bound
  have ranked := spills.2
  rw [rank] at ranked
  omega

theorem rank_lt_rank {operands : List Operand} {index other : Nat}
    (spills : isSpilled operands index) (later : index < other) :
    rank operands index < rank operands other := by
  induction operands generalizing index other with
  | nil => simp [isSpilled] at spills
  | cons operand rest ih =>
      obtain ⟨other, rfl⟩ := Nat.exists_eq_succ_of_ne_zero (Nat.ne_zero_of_lt later)
      rw [Nat.succ_eq_add_one, rank_cons_succ]
      cases index with
      | zero =>
          rw [isSpilled_cons_zero, Bool.and_eq_true] at spills
          rw [rank_zero, if_pos spills.1]
          omega
      | succ index =>
          rw [isSpilled_cons_succ] at spills
          have below := ih spills (Nat.lt_of_succ_lt_succ later)
          rw [rank_cons_succ]
          omega

end Operand

/-! The code around an instruction. -/

/-- Copies a value, computes with a register or moves the top of the stack. -/
def Instruction.isTransfer : Instruction → Bool
  | .reserve _ | .release _ | .move _ _ | .add _ _ | .shiftLeft _ _ => true
  | _ => false

theorem Instruction.isPlain_of_transfer {instruction : Instruction}
    (transfer : instruction.isTransfer) :
    instruction.isPlain := by
  cases instruction <;> first | rfl | cases transfer

theorem Instruction.isTransfer_of_addressing {scratch : Register} {instruction : Instruction}
    (addressing : instruction.isAddressing scratch) : instruction.isTransfer := by
  cases instruction <;> first | rfl | cases addressing

namespace Frame

open Operand (spilled rank isSpilled)

variable {frame : Frame}

/-- Operands are spilled as arguments are pushed. -/
theorem spill_assignCells (frame : Frame) (pushed : Nat) (operands : List Operand) :
    frame.spill (assignCells (pushed + 1) operands) =
      frame.pushArguments pushed (spilled operands) := by
  induction operands generalizing pushed with
  | nil => rfl
  | cons operand rest ih =>
      rw [assignCells, Operand.spilled_cons]
      split
      · rw [spill, pushArguments, ih]
      · rw [spill, ih]

theorem countP_assignCells (first : Nat) (operands : List Operand) :
    (assignCells first operands).countP (·.2.isSome) = (spilled operands).length := by
  induction operands generalizing first with
  | nil => rfl
  | cons operand rest ih =>
      rw [assignCells, Operand.spilled_cons]
      split
      · rw [List.countP_cons_of_pos rfl, ih, List.length_cons]
      · rw [List.countP_cons_of_neg (by simp), ih]

theorem code_raw {mnemonic : Mnemonic} {operands : List Operand}
    (success : (frame.raw mnemonic operands).outcome = .ok ()) :
    let temporaries := (spilled operands).length
    let back := frame.writeBack mnemonic temporaries 0 (assignCells 1 operands)
    ∃ places, (frame.pushArguments 0 (spilled operands)).outcome = .ok () ∧
      (frame.loadAll temporaries (assignCells 1 operands)).outcome = .ok places ∧
      back.outcome = .ok () ∧
      (frame.raw mnemonic operands).code =
        (frame.pushArguments 0 (spilled operands)).code ++
          (frame.loadAll temporaries (assignCells 1 operands)).code ++
          .raw mnemonic places :: (back.code ++ Instruction.releaseCells temporaries) := by
  intro temporaries back
  rw [raw] at success ⊢
  simp only [countP_assignCells, spill_assignCells frame 0] at success ⊢
  obtain ⟨_, pushes, behindPushes, pushCode⟩ := Emission.bind_eq_ok success
  obtain ⟨places, loads, behindLoads, loadCode⟩ := Emission.bind_eq_ok behindPushes
  obtain ⟨_, _, behindRaw, rawCode⟩ := Emission.bind_eq_ok behindLoads
  obtain ⟨_, copies, _, copyCode⟩ := Emission.bind_eq_ok behindRaw
  refine ⟨places, pushes, loads, copies, ?_⟩
  rw [pushCode, loadCode, rawCode, copyCode, List.append_assoc]
  rfl

theorem transfers_pushArguments {pushed : Nat} {arguments : List Operand}
    (success : (frame.pushArguments pushed arguments).outcome = .ok ()) :
    ∀ instruction ∈ (frame.pushArguments pushed arguments).code, instruction.isTransfer := by
  induction arguments generalizing pushed with
  | nil => exact fun _ member => nomatch member
  | cons argument rest ih =>
      obtain ⟨_, first, behind, code⟩ := Emission.bind_eq_ok success
      obtain ⟨resolved, resolves, pushCode⟩ := code_push first
      rw [pushArguments, code, pushCode, Resolved.pushing, List.forall_mem_append,
        List.forall_mem_cons, List.forall_mem_append]
      refine ⟨⟨rfl, fun instruction member => ?_, by simp [Instruction.isTransfer]⟩, ih behind⟩
      exact Instruction.isTransfer_of_addressing (resolves.addressing instruction member)

theorem loadAll_cons {first temporaries : Nat} {operand : Operand} {rest : List Operand}
    {places : List Place}
    (success : (frame.loadAll temporaries (assignCells first (operand :: rest))).outcome =
      .ok places) :
    (∃ behind, isSpilled (operand :: rest) 0 ∧ places = temporary temporaries first :: behind ∧
        (frame.loadAll temporaries (assignCells (first + 1) rest)).outcome = .ok behind ∧
        (frame.loadAll temporaries (assignCells first (operand :: rest))).code =
          (frame.loadAll temporaries (assignCells (first + 1) rest)).code) ∨
      ∃ resolved behind, isSpilled (operand :: rest) 0 = false ∧ places = resolved.place :: behind ∧
        Resolves frame temporaries .f0 operand resolved ∧
        (frame.loadAll temporaries (assignCells first rest)).outcome = .ok behind ∧
        (frame.loadAll temporaries (assignCells first (operand :: rest))).code =
          resolved.prelude ++ (frame.loadAll temporaries (assignCells first rest)).code := by
  rw [Operand.isSpilled_cons_zero]
  rw [assignCells] at success ⊢
  split at success
  case isTrue spills =>
    left
    rw [if_pos spills]
    obtain ⟨behind, loads, same, code⟩ := Emission.bind_eq_ok success
    cases same
    refine ⟨behind, spills, rfl, loads, ?_⟩
    rw [loadAll, code]
    exact List.append_nil _
  case isFalse stays =>
    right
    rw [if_neg stays]
    obtain ⟨place, load, rest, code⟩ := Emission.bind_eq_ok success
    obtain ⟨behind, loads, same, behindCode⟩ := Emission.bind_eq_ok rest
    cases same
    obtain ⟨resolved, found, _⟩ := Emission.bind_eq_ok load
    rw [load_of_resolve found] at load
    cases load
    refine ⟨resolved, behind, by simpa using stays, rfl, resolves_of_resolve found, loads, ?_⟩
    rw [loadAll, code, behindCode, load_of_resolve found]
    exact congrArg (resolved.prelude ++ ·) (List.append_nil _)

theorem addressing_loadAll {first temporaries : Nat} {operands : List Operand} {places : List Place}
    (success : (frame.loadAll temporaries (assignCells first operands)).outcome = .ok places) :
    ∀ instruction ∈ (frame.loadAll temporaries (assignCells first operands)).code,
      instruction.isAddressing .f0 := by
  induction operands generalizing first places with
  | nil => exact fun _ member => nomatch member
  | cons operand rest ih =>
      rcases loadAll_cons success with
        ⟨_, _, _, loads, code⟩ | ⟨resolved, _, _, _, resolves, loads, code⟩
      · rw [code]
        exact ih loads
      · rw [code, List.forall_mem_append]
        exact ⟨resolves.addressing, ih loads⟩

/-! Loading the operands that are not pushed. -/

section Static

variable {pushed : Nat} {scratch : Register} {operand : Operand} {resolved : Resolved}

theorem Resolves.prelude_of_static (resolves : Resolves frame pushed scratch operand resolved)
    (fixed : operand.isDynamic = false) : resolved.prelude = [] := by
  cases resolves with
  | constant text => rfl
  | static => rfl
  | dynamic moving => simp [Operand.isDynamic, moving] at fixed

/-- A place that was not computed does not depend on the scratch register. -/
theorem Resolves.address?_of_static (resolves : Resolves frame pushed scratch operand resolved)
    (fixed : operand.isDynamic = false) {before after : Machine}
    (same : after.registers .f5 = before.registers .f5) :
    after.address? resolved.place = before.address? resolved.place := by
  cases resolves with
  | constant text => rfl
  | static => exact congrArg (fun top => some (top + _)) same
  | dynamic moving => simp [Operand.isDynamic, moving] at fixed

end Static

theorem code_loadAll_of_static {first temporaries : Nat} {operands : List Operand}
    {places : List Place}
    (success : (frame.loadAll temporaries (assignCells first operands)).outcome = .ok places)
    (fixed : operands.any Operand.isDynamic = false) :
    (frame.loadAll temporaries (assignCells first operands)).code = [] := by
  induction operands generalizing first places with
  | nil => rfl
  | cons operand rest ih =>
      rw [List.any_cons, Bool.or_eq_false_iff] at fixed
      rcases loadAll_cons success with
        ⟨_, spills, _, _, _⟩ | ⟨resolved, _, _, _, resolves, loads, code⟩
      · simp [Operand.isSpilled_cons_zero, fixed.1] at spills
      · rw [code, resolves.prelude_of_static fixed.1, ih loads fixed.2]
        rfl

/-- The places of some operands of an instruction, of which `temporaries` have been pushed in
all. Those among the operands have numbers from `first` on. The others have their own cells,
counted from the top as it was before the pushes. -/
structure Loaded (frame : Frame) (temporaries first : Nat) (operands : List Operand)
    (before : Machine) (places : List Place) (after : Machine) : Prop where
  length : places.length = operands.length
  temporary : ∀ index, isSpilled operands index →
    places[index]? = some (temporary temporaries (first + rank operands index))
  own : ∀ index operand, operands[index]? = some operand → isSpilled operands index = false →
    (∃ text, operand = .constant text ∧ places[index]? = some (.literal text)) ∨
      ∃ place address, places[index]? = some place ∧ after.address? place = some address ∧
        frame.address? (before.registers .f5 + temporaries * cellSize) before.memory operand =
          some address

theorem run_loadAll (covers : frame.Covers) (target : Target) {temporaries first : Nat}
    {operands : List Operand} {places : List Place} (machine : Machine)
    (success : (frame.loadAll temporaries (assignCells first operands)).outcome = .ok places) :
    frame.Loaded temporaries first operands machine places
      (machine.run target (frame.loadAll temporaries (assignCells first operands)).code) := by
  induction operands generalizing first places machine with
  | nil =>
      cases success
      exact ⟨rfl, by simp [isSpilled], by simp⟩
  | cons operand rest ih =>
      rcases loadAll_cons success with ⟨behind, spills, rfl, loads, code⟩ |
        ⟨resolved, behind, stays, rfl, resolves, loads, code⟩
      · have loaded := ih machine loads
        rw [code]
        constructor
        · rw [List.length_cons, List.length_cons, loaded.length]
        · intro index spilled
          cases index with
          | zero => rfl
          | succ index =>
              rw [Operand.isSpilled_cons_succ] at spilled
              rw [Operand.rank_cons_of_isSpilled spilled, if_pos spills, ← Nat.add_assoc]
              exact loaded.temporary index spilled
        · intro index other found own
          cases index with
          | zero => exact absurd (spills.symm.trans own) (by decide)
          | succ index =>
              rw [Operand.isSpilled_cons_succ] at own
              exact loaded.own index other found own
      · have prepared := Machine.sameBut_run target machine resolves.addressing
        have loaded := ih (machine.run target resolved.prelude) loads
        have still := Machine.sameBut_run target (machine.run target resolved.prelude)
          (addressing_loadAll loads)
        have top := prepared.registers .f5 (by decide) (by decide)
        -- A dynamic operand that is not pushed is the last one.
        have last : operand.isDynamic → rest.any Operand.isDynamic = false := by
          intro moving
          rwa [Operand.isSpilled_cons_zero, moving, Bool.true_and] at stays
        rw [code, Machine.run_append]
        constructor
        · rw [List.length_cons, List.length_cons, loaded.length]
        · intro index spilled
          cases index with
          | zero => exact absurd (spilled.symm.trans stays) (by decide)
          | succ index =>
              rw [Operand.isSpilled_cons_succ] at spilled
              rw [Operand.rank_cons_of_isSpilled spilled, stays, if_neg Bool.false_ne_true,
                Nat.zero_add]
              exact loaded.temporary index spilled
        · intro index other found own
          cases index with
          | zero =>
              cases found
              cases constant : operand.isConstant with
              | true =>
                  cases resolves with
                  | constant text => exact Or.inl ⟨text, rfl, rfl⟩
                  | static => cases constant
                  | dynamic => cases constant
              | false =>
                  right
                  obtain ⟨address, cell⟩ :=
                    resolves.exists_address constant (machine.run target resolved.prelude)
                  rw [← resolves.address covers (by decide) (by decide) target machine]
                  refine ⟨resolved.place, address, rfl, ?_, cell⟩
                  rw [← cell]
                  cases moving : operand.isDynamic with
                  | true => rw [code_loadAll_of_static loads (last moving), Machine.run_nil]
                  | false =>
                      exact resolves.address?_of_static moving
                        (still.registers .f5 (by decide) (by decide))
          | succ index =>
              rw [Operand.isSpilled_cons_succ] at own
              have place := loaded.own index other found own
              rwa [top, prepared.memory] at place

/-- A machine at the line of an instruction. Operands of which there is a copy stand as the
cell of the copy, which lies below the old top and holds the value from before. The others
stand as constants or as their own cells, and nothing above the old top has changed. -/
structure Prepared (frame : Frame) (target : Target) (operands : List Operand) (before : Machine)
    (places : List Place) (reached : Machine) : Prop where
  top : reached.registers .f5 + (operands.countP Operand.isDynamic - 1) * cellSize =
    before.registers .f5
  above : ∀ address, before.registers .f5 ≤ address → reached.memory address = before.memory address
  length : places.length = operands.length
  temporary : ∀ index operand, operands[index]? = some operand → isSpilled operands index →
    ∃ place, places[index]? = some place ∧
      reached.address? place = some (argumentCell (before.registers .f5) (rank operands index)) ∧
      frame.value? target (before.registers .f5) before.memory operand =
        some (reached.memory (argumentCell (before.registers .f5) (rank operands index)))
  below : ∀ index, isSpilled operands index →
    reached.registers .f5 ≤ argumentCell (before.registers .f5) (rank operands index) ∧
      argumentCell (before.registers .f5) (rank operands index) + cellSize ≤ before.registers .f5
  apart : ∀ index other, isSpilled operands index → isSpilled operands other → index ≠ other →
    argumentCell (before.registers .f5) (rank operands index) ≠
      argumentCell (before.registers .f5) (rank operands other)
  own : ∀ index operand, operands[index]? = some operand → isSpilled operands index = false →
    (∃ text, operand = .constant text ∧ places[index]? = some (.literal text)) ∨
      ∃ place address, places[index]? = some place ∧ reached.address? place = some address ∧
        frame.address? (before.registers .f5) before.memory operand = some address

theorem run_prepared (covers : frame.Covers) (target : Target) {operands : List Operand}
    {places : List Place} {machine : Machine}
    (pushes : (frame.pushArguments 0 (spilled operands)).outcome = .ok ())
    (loads : (frame.loadAll (spilled operands).length (assignCells 1 operands)).outcome =
      .ok places)
    (room : (operands.countP Operand.isDynamic - 1) * cellSize ≤ machine.registers .f5) :
    frame.Prepared target operands machine places
      (machine.run target ((frame.pushArguments 0 (spilled operands)).code ++
        (frame.loadAll (spilled operands).length (assignCells 1 operands)).code)) := by
  rw [← Operand.length_spilled] at room
  have pushed := run_pushArguments covers target pushes room
  rw [Machine.run_append]
  generalize machine.run target (frame.pushArguments 0 (spilled operands)).code = middle at pushed ⊢
  have loaded := run_loadAll covers target middle loads
  have still := Machine.sameBut_run target middle (addressing_loadAll loads)
  have top := still.registers .f5 (by decide) (by decide)
  have low := pushed.top
  have kept : ∀ address, machine.registers .f5 ≤ address →
      middle.memory address = machine.memory address :=
    fun address above => pushed.elsewhere address (Or.inl above)
  constructor
  case top => rw [top, ← Operand.length_spilled, low]
  case above =>
    intro address above
    rw [still.memory, kept address above]
  case length => exact loaded.length
  case temporary =>
    intro index operand found spills
    have below := Operand.rank_lt_of_isSpilled spills
    have value := pushed.argument (rank operands index) operand
      ((Operand.getElem?_spilled spills).trans found)
    rw [Nat.zero_mul, Nat.add_zero] at value
    refine ⟨_, loaded.temporary index spills, ?_, by rw [still.memory, value]⟩
    rw [Frame.temporary, Machine.address?, top]
    simp only [argumentCell, cellSize, Option.some.injEq] at *
    omega
  case below =>
    intro index spills
    have below := Operand.rank_lt_of_isSpilled spills
    rw [top]
    simp only [argumentCell, cellSize] at *
    omega
  case apart =>
    intro index other spills alsoSpills different
    have below := Operand.rank_lt_of_isSpilled spills
    have alsoBelow := Operand.rank_lt_of_isSpilled alsoSpills
    have ranks : rank operands index ≠ rank operands other := by
      rcases Nat.lt_or_gt_of_ne different with later | earlier
      · exact Nat.ne_of_lt (Operand.rank_lt_rank spills later)
      · exact Nat.ne_of_gt (Operand.rank_lt_rank alsoSpills earlier)
    simp only [argumentCell, cellSize] at *
    omega
  case own =>
    intro index operand found stays
    rcases loaded.own index operand found stays with
      constant | ⟨place, address, here, cell, denoted⟩
    · exact Or.inl constant
    · rw [low, frame.address?_congr kept] at denoted
      exact Or.inr ⟨place, address, here, cell, denoted⟩

/-! Copying back. -/

theorem writeBack_cons {mnemonic : Mnemonic} {temporaries index first : Nat} {operand : Operand}
    {rest : List Operand}
    (success :
      (frame.writeBack mnemonic temporaries index (assignCells first (operand :: rest))).outcome =
        .ok ()) :
    let next := if isSpilled (operand :: rest) 0 then first + 1 else first
    let behind := frame.writeBack mnemonic temporaries (index + 1) (assignCells next rest)
    behind.outcome = .ok () ∧
      ∃ copying,
          (frame.writeBack mnemonic temporaries index (assignCells first (operand :: rest))).code =
            copying ++ behind.code ∧
        if isSpilled (operand :: rest) 0 && mnemonic.writes index then
          ∃ resolved, Resolves frame temporaries .f0 operand resolved ∧
            copying = resolved.prelude ++ [.move (Frame.temporary temporaries first) resolved.place]
        else copying = [] := by
  rw [Operand.isSpilled_cons_zero]
  rw [assignCells] at success ⊢
  cases spills : operand.isDynamic && rest.any Operand.isDynamic with
  | false =>
      simp only [spills, Bool.false_eq_true, if_false, Bool.false_and, writeBack] at success ⊢
      exact ⟨success, [], rfl, rfl⟩
  | true =>
      simp only [spills, if_true, Bool.true_and, writeBack] at success ⊢
      cases written : mnemonic.writes index with
      | false =>
          simp only [written, Bool.false_eq_true, if_false] at success ⊢
          exact ⟨success, [], rfl, rfl⟩
      | true =>
          simp only [written, if_true] at success ⊢
          obtain ⟨place, load, behind, code⟩ := Emission.bind_eq_ok success
          obtain ⟨_, _, copies, behindCode⟩ := Emission.bind_eq_ok behind
          obtain ⟨resolved, found, _⟩ := Emission.bind_eq_ok load
          rw [load_of_resolve found] at load
          cases load
          refine ⟨copies, _, ?_, resolved, resolves_of_resolve found, rfl⟩
          rw [code, behindCode, load_of_resolve found, List.append_assoc]
          rfl

/-- A temporary cell is copied to the cell that its operand has at that moment. -/
theorem run_copying (covers : frame.Covers) {temporaries : Nat} {operand : Operand}
    {resolved : Resolved} (resolves : Resolves frame temporaries .f0 operand resolved)
    (moving : operand.isDynamic) (target : Target) (machine : Machine) (offset : Nat) :
    let after := machine.run target (resolved.prelude ++ [.move (.cell offset) resolved.place])
    after.registers .f5 = machine.registers .f5 ∧
      ∃ address,
        frame.address? (machine.registers .f5 + temporaries * cellSize) machine.memory operand =
          some address ∧
        after.memory = Function.update machine.memory address
          (machine.memory (machine.registers .f5 + offset)) := by
  intro after
  have constant : operand.isConstant = false := by
    cases operand with
    | constant text => cases moving
    | _ => rfl
  have prepared := Machine.sameBut_run target machine resolves.addressing
  have top := prepared.registers .f5 (by decide) (by decide)
  obtain ⟨address, cell⟩ := resolves.exists_address constant (machine.run target resolved.prelude)
  have stored : after = Machine.set ((machine.run target resolved.prelude).setCell address
      ((machine.run target resolved.prelude).memory
        ((machine.run target resolved.prelude).registers .f5 + offset)))
        .xx ((machine.run target resolved.prelude).registers .xx + 1) := by
    rw [← Machine.write_of_address cell]
    exact Machine.run_append target machine resolved.prelude _
  rw [stored]
  refine ⟨top, address, ?_, ?_⟩
  · rw [← resolves.address covers (by decide) (by decide) target machine, cell]
  · rw [Machine.set_memory, Machine.setCell_memory, prepared.memory, top]

theorem transfers_writeBack {mnemonic : Mnemonic} {temporaries index first : Nat}
    {operands : List Operand}
    (success : (frame.writeBack mnemonic temporaries index (assignCells first operands)).outcome =
      .ok ()) :
    ∀ instruction ∈ (frame.writeBack mnemonic temporaries index (assignCells first operands)).code,
      instruction.isTransfer := by
  induction operands generalizing index first with
  | nil => exact fun _ member => nomatch member
  | cons operand rest ih =>
      obtain ⟨behind, copying, code, copies⟩ := writeBack_cons success
      rw [code, List.forall_mem_append]
      refine ⟨?_, ih behind⟩
      split at copies
      · obtain ⟨resolved, resolves, rfl⟩ := copies
        rw [List.forall_mem_append]
        refine ⟨fun instruction member => ?_, by simp [Instruction.isTransfer]⟩
        exact Instruction.isTransfer_of_addressing (resolves.addressing instruction member)
      · rw [copies]
        exact fun _ member => nomatch member

theorem transfers_raw {mnemonic : Mnemonic} {operands : List Operand} {places : List Place}
    (pushes : (frame.pushArguments 0 (spilled operands)).outcome = .ok ())
    (loads : (frame.loadAll (spilled operands).length (assignCells 1 operands)).outcome =
      .ok places)
    (copies :
      (frame.writeBack mnemonic (spilled operands).length 0 (assignCells 1 operands)).outcome =
        .ok ()) :
    ∀ instruction ∈ ((frame.pushArguments 0 (spilled operands)).code ++
        (frame.loadAll (spilled operands).length (assignCells 1 operands)).code) ++
      ((frame.writeBack mnemonic (spilled operands).length 0 (assignCells 1 operands)).code ++
        Instruction.releaseCells (spilled operands).length), instruction.isTransfer := by
  simp only [List.forall_mem_append]
  refine ⟨⟨transfers_pushArguments pushes, fun instruction member => ?_⟩,
    transfers_writeBack copies, ?_⟩
  · exact Instruction.isTransfer_of_addressing (addressing_loadAll loads instruction member)
  · unfold Instruction.releaseCells
    split <;> simp [Instruction.isTransfer]

theorem top_writeBack (covers : frame.Covers) (target : Target) {mnemonic : Mnemonic}
    {temporaries index first : Nat} {operands : List Operand} (machine : Machine)
    (success : (frame.writeBack mnemonic temporaries index (assignCells first operands)).outcome =
      .ok ()) :
    (machine.run target (frame.writeBack mnemonic temporaries index
        (assignCells first operands)).code).registers .f5 =
      machine.registers .f5 := by
  induction operands generalizing index first machine with
  | nil => rfl
  | cons operand rest ih =>
      obtain ⟨behind, copying, code, copies⟩ := writeBack_cons success
      rw [code, Machine.run_append, ih _ behind]
      split at copies
      case isTrue written =>
        obtain ⟨resolved, resolves, rfl⟩ := copies
        rw [Operand.isSpilled_cons_zero, Bool.and_eq_true, Bool.and_eq_true] at written
        exact (run_copying covers resolves written.1.1 target machine _).1
      case isFalse => rw [copies, Machine.run_nil]

end Frame

/-! Instructions with their operands. -/

def Place.isData : Place → Bool
  | .literal text => text ≠ "" && text.toList.all Char.isDigit
  | .register _ => false
  | .top | .cell _ | .indexed _ => true

/-- Directly written instructions that name no register leave the top of the stack alone. -/
def Target.KeepsTop (target : Target) : Prop :=
  ∀ mnemonic places machine, (∀ place ∈ places, place.isData) →
    (target.perform mnemonic places machine).registers .f5 = machine.registers .f5

def Target.computing (literal : String → Nat) (relation : Comparison → Nat → Nat → Bool)
    (meaning : Mnemonic → List Nat → Nat → Nat) : Target where
  literal := literal
  relation := relation
  perform mnemonic places machine :=
    { machine with
      memory := Machine.storeAll mnemonic.writes
        (meaning mnemonic
          (places.map (machine.read ⟨literal, relation, fun _ _ machine => machine⟩)))
        (places.map machine.address?) machine.memory }

theorem Target.keepsTop_computing (literal : String → Nat)
    (relation : Comparison → Nat → Nat → Bool) (meaning : Mnemonic → List Nat → Nat → Nat) :
    (computing literal relation meaning).KeepsTop :=
  fun _ _ _ _ => rfl

theorem Frame.Prepared.constant_or_cell {frame : Frame} {target : Target} {operands : List Operand}
    {before reached : Machine} {places : List Place}
    (prepared : frame.Prepared target operands before places reached) {place : Place}
    (member : place ∈ places) :
    (∃ text, .constant text ∈ operands ∧ place = .literal text) ∨ ∃ address,
      reached.address? place = some address := by
  obtain ⟨index, here⟩ := List.getElem?_of_mem member
  obtain ⟨operand, found⟩ : ∃ operand, operands[index]? = some operand := by
    have bound := (List.getElem?_eq_some_iff.mp here).1
    rw [prepared.length] at bound
    exact ⟨_, List.getElem?_eq_getElem bound⟩
  cases spills : Operand.isSpilled operands index with
  | true =>
      obtain ⟨other, there, cell, _⟩ := prepared.temporary index operand found spills
      cases here.symm.trans there
      exact Or.inr ⟨_, cell⟩
  | false =>
      rcases prepared.own index operand found spills with
        ⟨text, rfl, there⟩ | ⟨other, address, there, cell, _⟩
      · cases here.symm.trans there
        exact Or.inl ⟨text, List.mem_of_getElem? found, rfl⟩
      · cases here.symm.trans there
        exact Or.inr ⟨address, cell⟩

open StateTransition (Reaches)

theorem Machine.reaches_around (target : Target) {program before behind : List Instruction}
    {mnemonic : Mnemonic} {places : List Place} {machine : Machine}
    (transfers : ∀ instruction ∈ before ++ behind, instruction.isTransfer)
    (placed : before ++ .raw mnemonic places :: behind <+: program.drop (machine.registers .xx)) :
    let reached := machine.run target before
    let performed := reached.pass target (.raw mnemonic places)
    Reaches (step target program) machine reached ∧
      Reaches (step target program) reached performed ∧
      Reaches (step target program) performed (performed.run target behind) := by
  intro reached performed
  obtain ⟨tail, split⟩ := placed
  rw [List.forall_mem_append] at transfers
  have atRaw : program.drop (machine.registers .xx) =
      before ++ ([.raw mnemonic places] ++ (behind ++ tail)) := by
    simp [← split]
  have first := drop_run target atRaw
  have second := drop_run target first
  refine ⟨reaches_run target (fun instruction member => ?_) atRaw,
    reaches_run target (by simp [Instruction.isPlain]) first,
    reaches_run target (fun instruction member => ?_) second⟩
  · exact Instruction.isPlain_of_transfer (transfers.1 instruction member)
  · exact Instruction.isPlain_of_transfer (transfers.2 instruction member)

namespace Lowering.State

/-- A directly written instruction finds all its operands when its own line is reached, and
behind it the stack is as high as before. -/
theorem raw_operands_prepared {state : State} (reachable : state.Reachable) {mnemonic : Mnemonic}
    {operands : List Operand} (lowered : (state.lower (.raw mnemonic operands)).error = none)
    (digits : ∀ text, .constant text ∈ operands → text ≠ "" ∧ text.toList.all Char.isDigit)
    {target : Target} (keeps : target.KeepsTop) {machine : Machine}
    (room : (operands.countP Operand.isDynamic - 1) * cellSize ≤ machine.registers .f5) :
    let code := (state.lower (.raw mnemonic operands)).code
    let last := machine.run target code
    ∃ before places behind, code = before ++ .raw mnemonic places :: behind ∧
      (∀ instruction ∈ before ++ behind, instruction.isTransfer) ∧
      state.frame.Prepared target operands machine places (machine.run target before) ∧
      last.registers .f5 = machine.registers .f5 ∧
      ∀ program, code <+: program.drop (machine.registers .xx) →
        Reaches (Machine.step target program) machine (machine.run target before) ∧
          Reaches (Machine.step target program) (machine.run target before) last := by
  intro code last
  have covers := reachable.covers
  obtain ⟨places, pushes, loads, copies, emitted⟩ :=
    Frame.code_raw (Step.outcome_of_error_eq_none lowered)
  have whole : code = _ := (Step.code_ofEmission _ _ _).trans emitted
  have prepared := Frame.run_prepared covers target pushes loads room
  have transfers := Frame.transfers_raw pushes loads copies
  generalize _ ++ (state.frame.loadAll _ _).code = before at whole prepared transfers
  have ends : last = Machine.run target
      (Machine.pass target (machine.run target before) (.raw mnemonic places)) _ :=
    (congrArg (machine.run target) whole).trans (Machine.run_append target machine before _)
  refine ⟨before, places, _, whole, transfers, prepared, ?_, fun program placed => ?_⟩
  · have data : ∀ place ∈ places, place.isData := by
      intro place member
      rcases prepared.constant_or_cell member with ⟨text, constant, rfl⟩ | ⟨address, cell⟩
      · simpa [Place.isData] using digits text constant
      · cases place <;> first | rfl | cases cell
    have kept : (Machine.pass target (machine.run target before) (.raw mnemonic places)).registers
        .f5 = (machine.run target before).registers .f5 := keeps mnemonic places _ data
    rw [ends, Machine.run_append, (Machine.run_releaseCells target _ _).1,
      Frame.top_writeBack covers target _ copies, Operand.length_spilled, kept, prepared.top]
  · rw [whole] at placed
    obtain ⟨arrives, performs, goesOn⟩ := Machine.reaches_around target transfers placed
    rw [ends]
    exact ⟨arrives, performs.trans goesOn⟩

/-- A constant and three operands with addresses that are computed at run time. Two of these
are pushed, and the instruction writes the last one. -/
theorem raw_operands_prepared_three_moved :
    let target := Target.computing String.length (fun _ _ _ => false) fun _ values index =>
      values.foldl (· + ·) index
    let entered := (start.lower (.function "m" [⟨"i", false⟩])).state
    let state := ((entered.lower (.declare "a" true 2)).state.lower (.declare "b" true 2)).state
    let operands : List Operand :=
      [.variable "a" (.variable "i" .zero), .constant "7", .variable "b" (.variable "a" .zero),
        .variable "b" (.variable "i" .zero)]
    let code := (state.lower (.raw .lat operands)).code
    let machine : Machine := ⟨fun held => if held = .f5 then 100 else 0,
      fun cell => if cell = 120 then 1 else if cell = 108 then 0 else cell, false⟩
    ∃ before places behind, code = before ++ .raw .lat places :: behind ∧
      Reaches (Machine.step target code) machine (machine.run target before) ∧
      (machine.run target before).registers .f5 = 92 ∧ (machine.run target before).memory 96 = 112 ∧
      (machine.run target before).memory 92 = 100 ∧
      places[1]? = some (.literal "7") ∧
      (∃ place, places[3]? = some place ∧ (machine.run target before).address? place = some 104) ∧
      (machine.run target code).registers .f5 = machine.registers .f5 ∧
      machine.memory 104 = 104 ∧ (machine.run target code).memory 104 = 320 := by
  intro target entered state operands code machine
  have reachable : state.Reachable := .lower _ (.lower _ (.lower _ .start))
  obtain ⟨before, places, behind, split, _, prepared, restored, reaches⟩ :=
    @raw_operands_prepared state reachable .lat operands (by decide +kernel)
      (by simp [operands]) target (Target.keepsTop_computing _ _ _) machine (by decide)
  obtain ⟨_, _, _, first⟩ := prepared.temporary 0 _ rfl (by decide)
  obtain ⟨_, _, _, second⟩ := prepared.temporary 2 _ rfl (by decide)
  have third : state.frame.address? 100 machine.memory (.variable "b" (.variable "i" .zero)) =
      some 104 := by
    decide +kernel
  have start : code <+: code.drop (machine.registers .xx) := by
    rw [show machine.registers .xx = 0 from rfl, List.drop_zero]
  simp only [code]
  refine ⟨before, places, behind, split, (reaches code start).1, ?_, ?_, ?_, ?_, ?_, restored, rfl,
    by decide +kernel⟩
  · exact Nat.add_right_cancel prepared.top
  · have value : state.frame.value? target 100 machine.memory
        (.variable "a" (.variable "i" .zero)) = some 112 := by
      decide +kernel
    exact Option.some.inj (first.symm.trans value)
  · have value : state.frame.value? target 100 machine.memory
        (.variable "b" (.variable "a" .zero)) = some 100 := by
      decide +kernel
    exact Option.some.inj (second.symm.trans value)
  · rcases prepared.own 1 _ rfl (by decide) with ⟨text, same, here⟩ | ⟨_, _, _, _, own⟩
    · cases same
      exact here
    · cases own
  · rcases prepared.own 3 _ rfl (by decide) with
      ⟨_, constant, _⟩ | ⟨place, address, here, cell, own⟩
    · cases constant
    · exact ⟨place, here, cell.trans (own.symm.trans third)⟩

end Lowering.State
end TinkaCompiler
