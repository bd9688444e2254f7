import TinkaCompiler.Proofs.Linking
import TinkaCompiler.Proofs.Stages

/-! Programs one behind the other.

A state enters its code only through its frame and through the numbers of labels. So
lowering from a state whose counters have gone further gives the same code with other
numbers. Whole functions leave nothing behind but the counters, and what follows them is
the code it would be alone, with its labels renumbered. -/

set_option autoImplicit false

namespace TinkaCompiler

/-! Labels after others have been handed out. -/

/-- The ordinal of a function after some functions. Zero is outside all functions. -/
def Counters.ordinal (base : Counters) : Nat → Nat
  | 0 => 0
  | ordinal + 1 => base.functions + (ordinal + 1)

def Counters.shift (base counters : Counters) : Counters :=
  ⟨base.branches + counters.branches, base.loopHeads + counters.loopHeads,
    base.loopExits + counters.loopExits, base.functions + counters.functions⟩

def Label.shift (base : Counters) : Label → Label
  | .named name => .named name
  | .branchEnd number => .branchEnd (base.branches + number)
  | .loopHead number => .loopHead (base.loopHeads + number)
  | .loopExit number => .loopExit (base.loopExits + number)
  | .functionExit ordinal => .functionExit (base.ordinal ordinal)

def Instruction.shift (base : Counters) : Instruction → Instruction
  | .define label => .define (label.shift base)
  | .jumpIf label => .jumpIf (label.shift base)
  | .jump label => .jump (label.shift base)
  | instruction => instruction

def Block.shift (base : Counters) : Block → Block
  | .branch number => .branch (base.branches + number)
  | .loopHead number => .loopHead (base.loopHeads + number)
  | .loopExit number => .loopExit (base.loopExits + number)
  | .function name ordinal => .function name (base.ordinal ordinal)

theorem Instruction.shift_of_straight (base : Counters) {instruction : Instruction}
    (straight : instruction.isStraight) : instruction.shift base = instruction := by
  cases instruction <;> first | rfl | cases straight

theorem Instruction.map_shift_of_straight (base : Counters) {code : List Instruction}
    (straight : ∀ instruction ∈ code, instruction.isStraight) : code.map (shift base) = code := by
  rw [List.map_congr_left fun instruction member =>
    shift_of_straight base (straight instruction member), List.map_id']

@[simp]
theorem Instruction.map_shift_releaseCells (base : Counters) (cells : Nat) :
    (releaseCells cells).map (shift base) = releaseCells cells :=
  map_shift_of_straight base isStraight_of_mem_releaseCells

@[simp]
theorem Instruction.map_shift_reserveCells (base : Counters) (cells : Nat) :
    (reserveCells cells).map (shift base) = reserveCells cells :=
  map_shift_of_straight base isStraight_of_mem_reserveCells

namespace Emission

variable {α β : Type} (base : Counters)

def shift (emission : Emission α) : Emission α :=
  ⟨emission.code.map (Instruction.shift base), emission.outcome⟩

theorem shift_bind (first : Emission α) (after : α → Emission β) :
    (first >>= after).shift base = first.shift base >>= fun value => (after value).shift base := by
  rw [bind_eq_follow, bind_eq_follow]
  cases outcome : first.outcome with
  | error error =>
      have same : (first.shift base).outcome = .error error := outcome
      rw [follow_of_error outcome, follow_of_error same]
      rfl
  | ok value =>
      have same : (first.shift base).outcome = .ok value := outcome
      rw [follow_of_ok outcome, follow_of_ok same, shift, List.map_append]
      rfl

theorem Straight.shift {emission : Emission α} {grown : Int} (straight : emission.Straight grown) :
    emission.shift base = emission := by
  rw [Emission.shift, Instruction.map_shift_of_straight base straight.straight]

end Emission

namespace Lowering

variable (base : Counters)

def State.shift (state : State) : State :=
  { state with
    blocks := state.blocks.map (Block.shift base)
    counters := base.shift state.counters
    function := state.function.map base.ordinal }

def Step.shift (step : Step) : Step :=
  ⟨step.state.shift base, step.code.map (Instruction.shift base), step.error⟩

theorem Step.shift_ofEmission (emission : Emission Unit) (kept next : State) :
    (Step.ofEmission emission kept next).shift base =
      Step.ofEmission (emission.shift base) (kept.shift base) (next.shift base) := by
  unfold Step.ofEmission Emission.shift
  cases emission.outcome <;> rfl

namespace State

theorem returnJump_shift (state : State) :
    (state.shift base).returnJump = state.returnJump.map (Instruction.shift base) := by
  unfold returnJump
  cases inside : state.function with
  | none => simp only [shift, inside]; rfl
  | some ordinal =>
      simp only [shift, inside, Option.map_some, List.map_append,
        Instruction.map_shift_reserveCells]
      rfl

theorem leaveFunction_shift (state : State) (ordinal : Nat) :
    (state.shift base).leaveFunction (base.ordinal ordinal) =
      (state.leaveFunction ordinal).map (Instruction.shift base) := by
  simp only [leaveFunction, List.map_append, Instruction.map_shift_releaseCells]
  rfl

/-- A step from a state after other labels is the step with its labels renumbered. -/
theorem lower_shift (state : State) (expression : Expression) :
    (state.shift base).lower expression = (state.lower expression).shift base := by
  cases expression with
  | branch condition =>
      rw [lower, lower, branch, branch, Step.shift_ofEmission,
        (state.frame.straight_compare condition).shift base]
      rfl
  | loop condition =>
      rw [lower, lower, loop, loop, Step.shift_ofEmission, Emission.shift_bind,
        (state.frame.straight_compare condition).shift base]
      rfl
  | openBlock depth =>
      obtain ⟨frame, blocks, counters, function, functionCells, returnedOutside⟩ := state
      rcases blocks with _ | ⟨block, rest⟩
      · rfl
      · cases block <;> rfl
  | closeBlock depth =>
      obtain ⟨frame, blocks, counters, function, functionCells, returnedOutside⟩ := state
      -- The closer of a loop looks at two blocks.
      rcases blocks with _ | ⟨block, _ | ⟨below, rest⟩⟩
      · rfl
      · cases block with
        | function name ordinal => exact congrArg (Step.done _) (leaveFunction_shift base _ ordinal)
        | _ => rfl
      · cases block with
        | function name ordinal => exact congrArg (Step.done _) (leaveFunction_shift base _ ordinal)
        | loopExit number => cases below <;> rfl
        | _ => rfl
  | returnValue value =>
      rw [lower, lower, returnValue, returnValue, Step.shift_ofEmission, Emission.shift_bind,
        (state.frame.straight_load 0 .f0 (by decide) value).shift base, returnJump_shift]
      obtain ⟨frame, blocks, counters, function, functionCells, returnedOutside⟩ := state
      cases function <;> rfl
  | call function arguments destination =>
      rw [lower, lower, Step.shift_ofEmission,
        (state.frame.straight_call function arguments destination).shift base]
      rfl
  | raw mnemonic operands =>
      rw [lower, lower, Step.shift_ofEmission,
        (state.frame.straight_raw mnemonic operands).shift base]
      rfl
  | _ => rfl

theorem finish_shift (state : State) :
    (state.shift base).finish = state.finish.map (List.map (Instruction.shift base)) := by
  obtain ⟨frame, blocks, counters, function, functionCells, returnedOutside⟩ := state
  cases blocks with
  | cons block rest => simp [finish, shift, Except.map]
  | nil =>
      cases returnedOutside with
      | false => rfl
      | true => simp [finish, shift, Except.map, Instruction.shift, Label.shift, Counters.ordinal]

end State
end Lowering

namespace Program

open Lowering (State)

theorem anticipate_shift (base : Counters) (state : State) (rest : List Expression)
    (expression : Expression) :
    anticipate (state.shift base) rest expression =
      (anticipate state rest expression).shift base := by
  cases expression <;> rfl

theorem generateFrom_shift (base : Counters) (state : State) (expressions : List Expression) :
    generateFrom (state.shift base) expressions =
      (generateFrom state expressions).map (List.map (Instruction.shift base)) := by
  induction expressions generalizing state with
  | nil => exact state.finish_shift base
  | cons expression rest ih =>
      rw [generateFrom, generateFrom, anticipate_shift, State.lower_shift]
      generalize (anticipate state rest expression).lower expression = step
      obtain ⟨next, code, error⟩ := step
      cases error with
      | some error => rfl
      | none =>
          simp only [Lowering.Step.shift, ih next]
          cases generateFrom next rest with
          | error error => rfl
          | ok others => exact congrArg Except.ok List.map_append.symm

end Program

/-! Whole functions leave nothing behind but the counters. -/

open Lowering (State)

theorem Item.after_functionCells {state : State} (none : state.functionCells = 0) (item : Item) :
    (item.after state).functionCells = 0 := by
  cases item with
  | function name parameters body => rfl
  | _ => exact none

namespace Outline

theorem after_functionCells {state : State} (none : state.functionCells = 0) (outline : Outline) :
    (outline.after state).functionCells = 0 := by
  induction outline generalizing state with
  | nil => exact none
  | cons item rest ih => exact ih (item.after_functionCells none)

theorem after_start {outline : Outline} (accepted : outline.check = .ok ()) :
    outline.after .start = State.start.shift (.ofExpressions outline.expressions) := by
  have idle := State.start_idle.after_outline outline
  have cells : (outline.after .start).functionCells = 0 := outline.after_functionCells rfl
  have counters := (staged accepted).last
  generalize outline.after .start = last at idle cells counters
  obtain ⟨frame, blocks, _, function, functionCells, returnedOutside⟩ := last
  obtain ⟨rfl, rfl, rfl, rfl⟩ := idle
  cases cells
  cases counters
  rfl

end Outline

namespace Program

theorem traceFrom_outline_append (outline : Outline) (state : State) (rest : List Expression) :
    traceFrom state (outline.expressions ++ rest) =
      outline.check >>= fun _ =>
        (traceFrom (outline.after state) rest).map (prepend (outline.lines state)) := by
  induction outline generalizing state with
  | nil =>
      rw [Outline.expressions_nil, List.nil_append, Outline.after]
      cases traceFrom state rest <;> rfl
  | cons item others ih =>
      rw [Outline.expressions_cons, List.append_assoc, traceFrom_item, ih, map_bind,
        map_prepend, Outline.check]
      cases item.check <;> rfl

theorem generateFrom_outline_append (outline : Outline) (state : State) (rest : List Expression) :
    generateFrom state (outline.expressions ++ rest) =
      outline.check >>= fun _ => (generateFrom (outline.after state) rest).map
        ((outline.lines state).map (·.instruction) ++ ·) := by
  rw [generateFrom_eq_traceFrom, traceFrom_outline_append, generateFrom_eq_traceFrom]
  cases outline.check with
  | error error => rfl
  | ok _ =>
      cases traceFrom (outline.after state) rest with
      | error error => rfl
      | ok result =>
          obtain ⟨lines, last⟩ := result
          cases ended : last.finish <;> simp [bind, Except.bind, Except.map, prepend, ended]

theorem generate_outline_append (outline : Outline) (rest : List Expression) :
    generate (outline.expressions ++ rest) =
      generate outline.expressions >>= fun first => generate rest >>= fun second =>
        .ok (first ++ second.map (Instruction.shift (.ofExpressions outline.expressions))) := by
  rw [generate, generateFrom_outline_append, generate_outline]
  cases accepted : outline.check with
  | error error => rfl
  | ok _ =>
      rw [Outline.after_start accepted, generateFrom_shift, generate]
      cases generateFrom .start rest <;> rfl

end Program

theorem SourceUnit.exists_outline_of_words {words : List Word} {unit : SourceUnit}
    (read : SourceUnit.ofWords words = .ok unit) :
    ∃ outline : Outline, outline.expressions = unit.expressions := by
  cases found : Analysis.expressions words with
  | error fault =>
      rw [ofWords, found] at read
      cases read
  | ok expressions =>
      rw [ofWords, found] at read
      cases read
      obtain ⟨outline, _, same⟩ := Analysis.expressions_eq_ok_iff.mp found
      exact ⟨outline, same⟩

theorem SourceUnit.exists_outline {units : List SourceUnit}
    (read : ∀ unit ∈ units, ∃ words, SourceUnit.ofWords words = .ok unit) :
    ∃ outline : Outline, outline.expressions = units.flatMap (·.expressions) := by
  induction units with
  | nil => exact ⟨[], rfl⟩
  | cons unit rest ih =>
      obtain ⟨⟨words, accepted⟩, others⟩ := List.forall_mem_cons.mp read
      obtain ⟨behind, expressions⟩ := ih others
      obtain ⟨outline, same⟩ := exists_outline_of_words accepted
      refine ⟨outline ++ behind, ?_⟩
      rw [Outline.expressions_append, same, expressions, List.flatMap_cons]

namespace Program

/-- Expressions of whole units and any expressions behind them are lowered
independently. The first failure is that of the program, and the second part is
renumbered by the headers of the first. -/
theorem generate_append {units : List SourceUnit}
    (read : ∀ unit ∈ units, ∃ words, SourceUnit.ofWords words = .ok unit) (rest : List Expression) :
    generate (units.flatMap (·.expressions) ++ rest) =
      generate (units.flatMap (·.expressions)) >>= fun first => generate rest >>= fun second =>
        .ok
          (first ++
            second.map (Instruction.shift (.ofExpressions (units.flatMap (·.expressions))))) := by
  obtain ⟨outline, same⟩ := SourceUnit.exists_outline read
  rw [← same]
  exact generate_outline_append outline rest

/-- Behind a function with one branch, only the jump to the exit outside all functions
keeps its number. -/
theorem generate_append_return_outside :
    let text := "cersva f x rinyv fi x clo 1 rinyv situv dosnud x situv"
    let first : SourceUnit := ⟨[.function "f" [⟨"x", false⟩], .openBlock 1,
      .branch ⟨.variable "x" .zero, .niv, .constant "1"⟩, .openBlock 2, .closeBlock 2,
      .returnValue (.variable "x" .zero), .closeBlock 1]⟩
    let rest : List Expression := [.branch ⟨.constant "0", .niv, .constant "1"⟩, .openBlock 1,
      .returnValue (.constant "7"), .closeBlock 1, .function "g" [], .openBlock 1,
      .returnValue (.constant "2"), .closeBlock 1]
    SourceUnit.ofWords (Word.ofSource text) = .ok first ∧
      (generate rest).map (·.filterMap Instruction.target?) =
        .ok [.branchEnd 0, .functionExit 0, .functionExit 1] ∧
      (generate (first.expressions ++ rest)).map (·.filterMap Instruction.target?) =
        .ok [.branchEnd 0, .functionExit 1, .branchEnd 1, .functionExit 0, .functionExit 2] := by
  intro text first rest
  have accepted : SourceUnit.ofWords (Word.ofSource text) = .ok first := by decide +kernel
  have read : ∀ unit ∈ [first], ∃ words, SourceUnit.ofWords words = .ok unit := by
    intro unit member
    rw [List.mem_singleton.mp member]
    exact ⟨_, accepted⟩
  have joined := generate_append read rest
  rw [List.flatMap_singleton] at joined
  refine ⟨accepted, by decide +kernel, ?_⟩
  rw [joined]
  decide +kernel

end Program
end TinkaCompiler
