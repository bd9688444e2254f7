import TinkaCompiler.Proofs.Uses

/-! Code without labels and jumps.

What is emitted for operands, calls and directly written instructions runs from its
first line to its last, and leaves the stack as high as it was, except for cells
that are pushed on purpose. -/

set_option autoImplicit false

namespace TinkaCompiler

namespace Instruction

/-- Neither a label nor a jump. A call comes back to the next line. -/
def isStraight : Instruction → Bool
  | .exportLabel _ | .importLabel _ | .define _ | .jumpIf _ | .jump _ | .jumpBack => false
  | .reserve _ | .release _ | .move _ _ | .add _ _ | .shiftLeft _ _ | .compare _ _ | .call _
  | .raw _ _ => true

/-- Whether control may go on to the next line. A call comes back to it. -/
def fallsThrough : Instruction → Bool
  | .jump _ | .jumpBack => false
  | _ => true

def target? : Instruction → Option Label
  | .jump label | .jumpIf label => some label
  | _ => none

theorem fallsThrough_of_straight {instruction : Instruction} (straight : instruction.isStraight) :
    instruction.fallsThrough := by
  cases instruction <;> first | rfl | cases straight

theorem target?_of_straight {instruction : Instruction} (straight : instruction.isStraight) :
    instruction.target? = none := by
  cases instruction <;> first | rfl | cases straight

def growth : Instruction → Int
  | .reserve bytes => bytes
  | .release bytes => -bytes
  | .add amount .f5 => -amount
  | _ => 0

def totalGrowth : List Instruction → Int
  | [] => 0
  | instruction :: rest => instruction.growth + totalGrowth rest

@[simp]
theorem totalGrowth_nil : totalGrowth [] = 0 :=
  rfl

@[simp]
theorem totalGrowth_cons (instruction : Instruction) (rest : List Instruction) :
    totalGrowth (instruction :: rest) = instruction.growth + totalGrowth rest :=
  rfl

@[simp]
theorem totalGrowth_append (first second : List Instruction) :
    totalGrowth (first ++ second) = totalGrowth first + totalGrowth second := by
  induction first with
  | nil => rw [List.nil_append, totalGrowth_nil, Int.zero_add]
  | cons instruction rest ih =>
      rw [List.cons_append, totalGrowth_cons, totalGrowth_cons, ih, Int.add_assoc]

@[simp]
theorem totalGrowth_releaseCells (cells : Nat) :
    totalGrowth (releaseCells cells) = -(cells * cellSize : Int) := by
  unfold releaseCells
  split
  · simp [growth]
  · have none : cells = 0 := by omega
    simp [none]

@[simp]
theorem totalGrowth_reserveCells (cells : Nat) :
    totalGrowth (reserveCells cells) = cells * cellSize := by
  unfold reserveCells
  split
  · simp [growth]
  · have none : cells = 0 := by omega
    simp [none]

theorem isStraight_of_mem_releaseCells {cells : Nat} :
    ∀ instruction ∈ releaseCells cells, instruction.isStraight := by
  unfold releaseCells
  split <;> simp [isStraight]

theorem isStraight_of_mem_reserveCells {cells : Nat} :
    ∀ instruction ∈ reserveCells cells, instruction.isStraight := by
  unfold reserveCells
  split <;> simp [isStraight]

def isAddressing (scratch : Register) : Instruction → Bool
  | .move _ (.register target) | .add _ target | .shiftLeft _ target => target = scratch
  | _ => false

theorem isStraight_of_addressing {scratch : Register} {instruction : Instruction}
    (addressing : instruction.isAddressing scratch) : instruction.isStraight := by
  cases instruction <;> first | rfl | cases addressing

theorem totalGrowth_addressing {scratch : Register} (away : scratch ≠ .f5) {code : List Instruction}
    (addressing : ∀ instruction ∈ code, instruction.isAddressing scratch) :
    totalGrowth code = 0 := by
  induction code with
  | nil => rfl
  | cons instruction rest ih =>
      rw [List.forall_mem_cons] at addressing
      have still : instruction.growth = 0 := by
        cases instruction with
        | add amount target =>
            have same : target = scratch := by simpa [isAddressing] using addressing.1
            subst same
            cases target <;> first | rfl | exact absurd rfl away
        | reserve bytes => cases addressing.1
        | release bytes => cases addressing.1
        | _ => rfl
      rw [totalGrowth_cons, still, ih addressing.2, Int.zero_add]

end Instruction

namespace Emission

variable {α β : Type}

/-- Straight code that, once it is complete, has grown the stack by some bytes. -/
structure Straight (emission : Emission α) (grown : Int) : Prop where
  straight : ∀ instruction ∈ emission.code, instruction.isStraight
  growth : ∀ value, emission.outcome = .ok value → Instruction.totalGrowth emission.code = grown

theorem straight_pure (value : α) : (pure value : Emission α).Straight 0 :=
  ⟨by rintro _ ⟨⟩, fun _ _ => rfl⟩

theorem straight_ofExcept (outcome : Except GenerationError α) : (ofExcept outcome).Straight 0 :=
  ⟨by rintro _ ⟨⟩, fun _ _ => rfl⟩

theorem straight_emit {code : List Instruction} {grown : Int}
    (straight : ∀ instruction ∈ code, instruction.isStraight)
    (growth : Instruction.totalGrowth code = grown) :
    (emit code).Straight grown :=
  ⟨straight, fun _ _ => growth⟩

theorem Straight.bind {first : Emission α} {after : α → Emission β} {before behind grown : Int}
    (start : first.Straight before)
    (rest : ∀ value, first.outcome = .ok value → (after value).Straight behind)
    (total : before + behind = grown) : (first >>= after).Straight grown := by
  rw [bind_eq_follow, ← total]
  cases outcome : first.outcome with
  | error error =>
      rw [follow_of_error outcome]
      exact ⟨start.straight, fun _ success => by cases success⟩
  | ok value =>
      have next := rest value outcome
      rw [follow_of_ok outcome]
      refine ⟨?_, fun last success => ?_⟩
      · rw [List.forall_mem_append]
        exact ⟨start.straight, next.straight⟩
      · rw [Instruction.totalGrowth_append, start.growth value outcome, next.growth last success]

theorem code_emit_bind_ne_nil {code : List Instruction} (some : code ≠ [])
    (after : Unit → Emission β) :
    (emit code >>= after).code ≠ [] := by
  rw [bind_eq_follow, follow_of_ok rfl]
  exact List.append_ne_nil_of_left_ne_nil some _

theorem bind_eq_ok {first : Emission α} {after : α → Emission β} {value : β}
    (success : (first >>= after).outcome = .ok value) :
    ∃ middle, first.outcome = .ok middle ∧ (after middle).outcome = .ok value ∧
      (first >>= after).code = first.code ++ (after middle).code := by
  rw [bind_eq_follow] at success ⊢
  cases outcome : first.outcome with
  | error error =>
      rw [follow_of_error outcome] at success
      cases success
  | ok middle =>
      rw [follow_of_ok outcome] at success ⊢
      exact ⟨middle, rfl, success, rfl⟩

theorem code_bind_ne_nil {first : Emission α} {after : α → Emission β} {result : β}
    (success : (first >>= after).outcome = .ok result)
    (later : ∀ value, (after value).outcome = .ok result →
      (after value).code ≠ []) : (first >>= after).code ≠ [] := by
  obtain ⟨value, _, behind, code⟩ := bind_eq_ok success
  rw [code]
  exact List.append_ne_nil_of_right_ne_nil _ (later value behind)

end Emission

namespace Frame

open Emission Instruction

theorem Resolves.addressing {frame : Frame} {pushed : Nat} {scratch : Register} {operand : Operand}
    {resolved : Resolved} (resolves : Resolves frame pushed scratch operand resolved) :
    ∀ instruction ∈ resolved.prelude, instruction.isAddressing scratch := by
  induction resolves with
  | constant text => simp
  | static => simp
  | dynamic moving found covered nested ih =>
      rw [List.forall_mem_append]
      exact ⟨ih, by simp [isAddressing]⟩

theorem Resolves.straight {frame : Frame} {pushed : Nat} {scratch : Register} {operand : Operand}
    {resolved : Resolved} (resolves : Resolves frame pushed scratch operand resolved)
    (away : scratch ≠ .f5) :
    (∀ instruction ∈ resolved.prelude, instruction.isStraight) ∧ totalGrowth resolved.prelude = 0 :=
  ⟨fun instruction member => isStraight_of_addressing (resolves.addressing instruction member),
    totalGrowth_addressing away resolves.addressing⟩

variable (frame : Frame)

theorem straight_load (pushed : Nat) (scratch : Register) (away : scratch ≠ .f5)
    (operand : Operand) :
    (frame.load pushed scratch operand).Straight 0 := by
  unfold load
  refine (straight_ofExcept _).bind (fun resolved success => ?_) (Int.zero_add 0)
  obtain ⟨straight, level⟩ := (resolves_of_resolve success).straight away
  exact (straight_emit straight level).bind (fun _ _ => straight_pure _) rfl

theorem straight_push (pushed : Nat) (operand : Operand) :
    (frame.push pushed operand).Straight cellSize := by
  unfold push
  refine (straight_ofExcept _).bind (fun resolved success => ?_) (Int.zero_add _)
  obtain ⟨straight, level⟩ := (resolves_of_resolve success).straight (by decide)
  apply straight_emit
  · rw [List.forall_mem_append, List.forall_mem_append]
    exact ⟨⟨by simp [isStraight], straight⟩, by simp [isStraight]⟩
  · simp [level, Instruction.growth]

theorem straight_compare (condition : Condition) : (frame.compare condition).Straight 0 := by
  unfold compare
  refine (frame.straight_load 0 .f0 (by decide) condition.left).bind (fun left _ => ?_)
    (Int.zero_add 0)
  refine (straight_emit (by simp [isStraight]) rfl).bind (fun _ _ => ?_) (Int.zero_add 0)
  refine (frame.straight_load 0 .f0 (by decide) condition.right).bind (fun right _ => ?_)
    (Int.zero_add 0)
  exact straight_emit (by simp [isStraight]) rfl

theorem load_of_resolve {frame : Frame} {pushed : Nat} {scratch : Register} {operand : Operand}
    {resolved : Resolved} (success : frame.resolve pushed scratch operand = .ok resolved) :
    frame.load pushed scratch operand = ⟨resolved.prelude, .ok resolved.place⟩ := by
  simp [load, success, Emission.ofExcept, emit, bind_eq_follow, follow, pure]

theorem load_of_check {frame : Frame} {pushed : Nat} {scratch : Register} {operand : Operand}
    (success : frame.check [⟨pushed, operand⟩] = .ok ()) :
    ∃ resolved, frame.resolve pushed scratch operand = .ok resolved ∧
      frame.load pushed scratch operand = ⟨resolved.prelude, .ok resolved.place⟩ := by
  rw [check_single, frame.resolve_scratch pushed .f0 scratch] at success
  cases outcome : frame.resolve pushed scratch operand with
  | error error =>
      rw [outcome] at success
      cases success
  | ok resolved => exact ⟨resolved, rfl, load_of_resolve outcome⟩

/-- A comparison moves its left side to `f1` and compares it with its right side. -/
theorem code_compare {frame : Frame} {condition : Condition}
    (success : frame.check [⟨0, condition.left⟩, ⟨0, condition.right⟩] = .ok ()) :
    ∃ left right, frame.resolve 0 .f0 condition.left = .ok left ∧
      frame.resolve 0 .f0 condition.right = .ok right ∧
        (frame.compare condition).code = left.prelude ++ .move left.place (.register .f1) ::
          (right.prelude ++ [.compare right.place condition.comparison]) := by
  obtain ⟨leftChecked, rightChecked⟩ :=
    check_append_eq_ok.mp (show frame.check ([_] ++ [_]) = .ok () from success)
  obtain ⟨left, leftResolves, leftLoad⟩ := @load_of_check frame 0 .f0 condition.left leftChecked
  obtain ⟨right, rightResolves, rightLoad⟩ :=
    @load_of_check frame 0 .f0 condition.right rightChecked
  refine ⟨left, right, leftResolves, rightResolves, ?_⟩
  unfold compare
  rw [leftLoad, bind_eq_follow, follow_of_ok rfl, rightLoad]
  rfl

theorem straight_pushArguments (pushed : Nat) (arguments : List Operand) :
    (frame.pushArguments pushed arguments).Straight (arguments.length * cellSize) := by
  induction arguments generalizing pushed with
  | nil => simpa [pushArguments] using straight_pure ()
  | cons argument rest ih =>
      refine (frame.straight_push (pushed + 1) argument).bind (fun _ _ => ih (pushed + 1)) ?_
      simp [Int.add_mul, Int.add_comm]

theorem straight_store (destination : Destination) : (frame.store destination).Straight 0 := by
  cases destination with
  | discard => exact straight_pure ()
  | «variable» name position =>
      rw [store]
      refine (frame.straight_load 0 .f1 (by decide) _).bind (fun target _ => ?_) (Int.zero_add 0)
      exact straight_emit (by simp [isStraight]) rfl

theorem straight_call (function : String) (arguments : List Operand) (destination : Destination) :
    (frame.call function arguments destination).Straight 0 := by
  unfold call
  refine (frame.straight_pushArguments 0 arguments).bind (fun _ _ => ?_)
    (Int.add_right_neg (arguments.length * cellSize))
  refine (straight_emit (by simp [isStraight]) ?_).bind
    (fun _ _ => frame.straight_store destination) (Int.add_zero _)
  simp only [totalGrowth_cons, totalGrowth_nil, Instruction.growth, cellSize]
  omega

theorem straight_spill (assigned : List (Operand × Option Nat)) :
    (frame.spill assigned).Straight (assigned.countP (·.2.isSome) * cellSize) := by
  induction assigned with
  | nil => simpa [spill] using straight_pure ()
  | cons first rest ih =>
      obtain ⟨operand, _ | number⟩ := first
      · simpa [spill] using ih
      · rw [spill]
        refine (frame.straight_push number operand).bind (fun _ _ => ih) ?_
        simp [Int.add_mul, Int.add_comm]

theorem straight_loadAll (spilled : Nat) (assigned : List (Operand × Option Nat)) :
    (frame.loadAll spilled assigned).Straight 0 := by
  induction assigned with
  | nil => exact straight_pure _
  | cons first rest ih =>
      obtain ⟨operand, _ | number⟩ := first
      · rw [loadAll]
        refine (frame.straight_load spilled .f0 (by decide) operand).bind (fun place _ => ?_)
          (Int.zero_add 0)
        exact ih.bind (fun _ _ => straight_pure _) rfl
      · exact ih.bind (fun _ _ => straight_pure _) rfl

theorem straight_writeBack (mnemonic : Mnemonic) (spilled index : Nat)
    (assigned : List (Operand × Option Nat)) :
    (frame.writeBack mnemonic spilled index assigned).Straight 0 := by
  induction assigned generalizing index with
  | nil => exact straight_pure _
  | cons first rest ih =>
      obtain ⟨operand, _ | number⟩ := first
      · exact ih (index + 1)
      · rw [writeBack]
        by_cases written : mnemonic.writes index
        · simp only [written, if_true]
          refine (frame.straight_load spilled .f0 (by decide) operand).bind (fun target _ => ?_)
            (Int.zero_add 0)
          exact (straight_emit (by simp [isStraight]) rfl).bind (fun _ _ => ih (index + 1)) rfl
        · simp only [written]
          exact ih (index + 1)

theorem straight_raw (mnemonic : Mnemonic) (operands : List Operand) :
    (frame.raw mnemonic operands).Straight 0 := by
  unfold raw
  refine (frame.straight_spill (assignCells 1 operands)).bind (fun _ _ => ?_) (Int.add_right_neg _)
  refine (frame.straight_loadAll _ _).bind (fun places _ => ?_) (Int.zero_add _)
  refine (straight_emit (by simp [isStraight]) rfl).bind (fun _ _ => ?_) (Int.zero_add _)
  refine (frame.straight_writeBack mnemonic _ 0 _).bind (fun _ _ => ?_) (Int.zero_add _)
  exact straight_emit isStraight_of_mem_releaseCells (totalGrowth_releaseCells _)

theorem code_call_ne_nil {function : String} {arguments : List Operand} {destination : Destination}
    (success : (frame.call function arguments destination).outcome = .ok ()) :
    (frame.call function arguments destination).code ≠ [] :=
  code_bind_ne_nil success fun _ _ => code_emit_bind_ne_nil (by simp) _

theorem code_raw_ne_nil {mnemonic : Mnemonic} {operands : List Operand}
    (success : (frame.raw mnemonic operands).outcome = .ok ()) :
    (frame.raw mnemonic operands).code ≠ [] :=
  code_bind_ne_nil success fun _ success =>
    code_bind_ne_nil success fun _ _ => code_emit_bind_ne_nil (by simp) _

end Frame
end TinkaCompiler
