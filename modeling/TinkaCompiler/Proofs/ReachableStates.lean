import TinkaCompiler.Proofs.CallingConvention

/-! States that lowering can reach.

Any expressions may be lowered in any order: blocks that are never opened or never
closed, headers of functions inside other blocks, and steps that fail. In every
state that is reached so, the caller's cells and all variables lie among the cells in
use, and the two labels of a loop stand together. So no offset is negative, and a mark
of a block fails only where no block is open. A step that fails leaves all this as it was,
except that a loop has used up the label of its head. -/

set_option autoImplicit false

namespace TinkaCompiler

namespace Lowering

/-! Open blocks. -/

inductive Group : List Block → Prop where
  | branch (number : Nat) : Group [.branch number]
  | loop (exit head : Nat) : Group [.loopExit exit, .loopHead head]
  | function (name : String) (ordinal : Nat) : Group [.function name ordinal]

inductive Paired : List Block → Prop where
  | nil : Paired []
  | branch (number : Nat) {rest : List Block} : Paired rest → Paired (.branch number :: rest)
  | loop (exit head : Nat) {rest : List Block} :
      Paired rest → Paired (.loopExit exit :: .loopHead head :: rest)
  | function (name : String) (ordinal : Nat) {rest : List Block} :
      Paired rest → Paired (.function name ordinal :: rest)

namespace Paired

variable {blocks rest group : List Block}

theorem push (opened : Group group) (paired : Paired rest) : Paired (group ++ rest) := by
  cases opened with
  | branch number => exact .branch number paired
  | loop exit head => exact .loop exit head paired
  | function name ordinal => exact .function name ordinal paired

theorem pop (closed : Group group) (paired : Paired (group ++ rest)) : Paired rest := by
  cases closed with
  | branch number =>
      cases paired with
      | branch _ paired => exact paired
  | loop exit head =>
      cases paired with
      | loop _ _ paired => exact paired
  | function name ordinal =>
      cases paired with
      | function _ _ paired => exact paired

theorem exit_above (paired : Paired blocks) {index number : Nat}
    (here : blocks[index]? = some (.loopHead number)) :
    ∃ above exit, index = above + 1 ∧ blocks[above]? = some (.loopExit exit) := by
  induction paired generalizing index with
  | nil => cases here
  | branch _ _ ih =>
      cases index with
      | zero => cases here
      | succ index =>
          obtain ⟨above, exit, rfl, found⟩ := ih here
          exact ⟨above + 1, exit, rfl, found⟩
  | loop exit head _ ih =>
      rcases index with _ | _ | index
      · cases here
      · exact ⟨0, exit, rfl, rfl⟩
      · obtain ⟨above, other, rfl, found⟩ := ih here
        exact ⟨above + 2, other, rfl, found⟩
  | function _ _ _ ih =>
      cases index with
      | zero => cases here
      | succ index =>
          obtain ⟨above, exit, rfl, found⟩ := ih here
          exact ⟨above + 1, exit, rfl, found⟩

theorem head_below (paired : Paired blocks) {index number : Nat}
    (here : blocks[index]? = some (.loopExit number)) :
    ∃ head, blocks[index + 1]? = some (.loopHead head) := by
  induction paired generalizing index with
  | nil => cases here
  | branch _ _ ih =>
      cases index with
      | zero => cases here
      | succ index => exact ih here
  | loop exit head _ ih =>
      rcases index with _ | _ | index
      · exact ⟨head, rfl⟩
      · cases here
      · exact ih here
  | function _ _ _ ih =>
      cases index with
      | zero => cases here
      | succ index => exact ih here

end Paired

theorem Step.blocks_ofEmission (emission : Emission Unit) (kept next : State) :
    (Step.ofEmission emission kept next).state.blocks = kept.blocks ∨
      (Step.ofEmission emission kept next).state.blocks = next.blocks := by
  unfold Step.ofEmission
  cases emission.outcome with
  | ok _ => exact Or.inr rfl
  | error _ => exact Or.inl rfl

namespace State

/-- Where blocks stand in groups, a step leaves them as they are, or puts one group on
them, or takes one off. -/
theorem blocks_lower {state : State} (paired : Paired state.blocks) (expression : Expression) :
    (state.lower expression).state.blocks = state.blocks ∨
      ∃ group, Group group ∧ ((state.lower expression).state.blocks = group ++ state.blocks ∨
        state.blocks = group ++ (state.lower expression).state.blocks) := by
  cases expression with
  | branch condition =>
      rw [lower, branch]
      exact (Step.blocks_ofEmission _ _ _).imp_right fun pushed => ⟨_, .branch _, Or.inl pushed⟩
  | loop condition =>
      rw [lower, loop]
      exact (Step.blocks_ofEmission _ _ _).imp_right fun pushed => ⟨_, .loop _ _, Or.inl pushed⟩
  | function name parameters => exact Or.inr ⟨_, .function _ _, Or.inl rfl⟩
  | openBlock depth =>
      left
      rw [lower, openBlock]
      split <;> rfl
  | closeBlock depth =>
      generalize opened : state.blocks = blocks at paired
      -- A label of a loop that stands alone would be lost; there is none.
      cases paired with
      | nil => simp [lower, closeBlock, opened, Step.failed]
      | branch number _ =>
          exact Or.inr ⟨_, .branch number, Or.inr (by simp [lower, closeBlock, opened, Step.done])⟩
      | loop exit head _ =>
          exact Or.inr ⟨_, .loop exit head, Or.inr (by simp [lower, closeBlock, opened, Step.done])⟩
      | function name ordinal _ =>
          exact Or.inr ⟨_, .function name ordinal,
            Or.inr (by simp [lower, closeBlock, opened, Step.done])⟩
  | returnValue value =>
      left
      rw [lower, returnValue]
      exact (Step.blocks_ofEmission _ _ _).elim id id
  | call function arguments destination =>
      exact Or.inl (congrArg blocks (state.state_leaf (.call _ _ _)))
  | raw mnemonic operands => exact Or.inl (congrArg blocks (state.state_leaf (.raw _ _)))
  | exportLabel label => exact Or.inl rfl
  | importLabel label => exact Or.inl rfl
  | declare name pointer length => exact Or.inl rfl

theorem Reachable.paired {state : State} (reachable : state.Reachable) : Paired state.blocks := by
  induction reachable with
  | start => exact .nil
  | @lower state expression _ ih =>
      rcases blocks_lower ih expression with same | ⟨group, grouped, pushed | popped⟩
      · rw [same]
        exact ih
      · rw [pushed]
        exact ih.push grouped
      · rw [popped] at ih
        exact ih.pop grouped
  | anticipate cells _ ih => exact ih

end State
end Lowering

/-! Cells. -/

theorem Frame.callerCells_le_enter {frame : Frame} (among : frame.callerCells ≤ frame.height)
    (expression : Expression) :
    (frame.enter expression).callerCells ≤ (frame.enter expression).height := by
  cases expression with
  | declare name pointer length => exact Nat.le_add_right_of_le among
  | function name parameters => exact Nat.le_refl _
  | _ => exact among

/-- Where no variable is bound above the cells in use, only an index that is too large
or is not a number makes a position invalid. -/
theorem Frame.not_inRange_of_resolve {frame : Frame} (covers : frame.Covers) {pushed : Nat}
    {scratch : Register} {operand : Operand} {text : String}
    (failed : frame.resolve pushed scratch operand = .error (.invalidPosition text)) :
    ¬ frame.InRange pushed operand := by
  induction operand with
  | constant digits => cases failed
  | function name => cases failed
  | «variable» name position ih =>
      cases found : frame.binding? name with
      | none =>
          rw [resolve_unbound scratch position found] at failed
          cases failed
      | some bound =>
          have covered : bound ≤ frame.height + pushed :=
            Nat.le_add_right_of_le (covers name bound found)
          cases moving : position.isConstant with
          | true =>
              cases position with
              | constant digits =>
                  intro within
                  obtain ⟨index, read, fits⟩ := within bound found
                  rw [resolve_static scratch digits found covered, read] at failed
                  simp [fits] at failed
              | function other => cases moving
              | «variable» other inner => cases moving
          | false =>
              rw [inRange_dynamic moving]
              rw [resolve_dynamic scratch moving found covered] at failed
              cases nested : frame.resolve pushed scratch position with
              | error error =>
                  rw [nested] at failed
                  cases failed
                  exact ih nested
              | ok inner =>
                  rw [nested] at failed
                  cases failed

namespace Lowering.State

theorem Reachable.callerCells_le {state : State} (reachable : state.Reachable) :
    state.frame.callerCells ≤ state.frame.height := by
  induction reachable with
  | start => exact Nat.le_refl 0
  | @lower state expression _ ih =>
      rcases state.frame_lower expression with same | ⟨same, _⟩
      · rw [same]
        exact Frame.callerCells_le_enter ih expression
      · rw [same]
        exact Nat.le_refl 0
  | anticipate cells _ ih => exact ih

/-! Marks of blocks. -/

theorem error_openBlock {state : State} (paired : Paired state.blocks) (depth : Nat) :
    (state.lower (.openBlock depth)).error = if state.blocks = [] then
      some .unmatchedBlock else none := by
  generalize opened : state.blocks = blocks at paired
  -- The head of a loop is never innermost, so every other group can be opened.
  cases paired <;> simp [lower, openBlock, opened, Step.done, Step.failed]

theorem error_closeBlock {state : State} (paired : Paired state.blocks) (depth : Nat) :
    (state.lower (.closeBlock depth)).error = if state.blocks = [] then
      some .unmatchedBlock else none := by
  generalize opened : state.blocks = blocks at paired
  cases paired <;> simp [lower, closeBlock, opened, Step.done, Step.failed]

structure Regular (state : State) : Prop where
  callerCells : state.frame.callerCells ≤ state.frame.height
  bindings : ∀ name bound, state.frame.binding? name = some bound → bound ≤ state.frame.height
  exitAbove : ∀ index number, state.blocks[index]? = some (.loopHead number) →
    ∃ above exit, index = above + 1 ∧ state.blocks[above]? = some (.loopExit exit)
  headBelow : ∀ index number, state.blocks[index]? = some (.loopExit number) →
    ∃ head, state.blocks[index + 1]? = some (.loopHead head)

theorem Reachable.regular {state : State} (reachable : state.Reachable) : state.Regular where
  callerCells := reachable.callerCells_le
  bindings := reachable.covers
  exitAbove _ _ := reachable.paired.exit_above
  headBelow _ _ := reachable.paired.head_below

theorem Regular.innermost {state : State} (regular : state.Regular) (number : Nat) :
    state.blocks.head? ≠ some (.loopHead number) := by
  intro innermost
  rw [List.head?_eq_getElem?] at innermost
  obtain ⟨above, _, impossible, _⟩ := regular.exitAbove 0 number innermost
  omega

/-- Every state that lowering reaches is regular. So a function's own cells and the
distance to a variable are what the subtractions say, however many cells are pushed.
A position is invalid only for its index, and a mark of a block fails exactly where no
block is open. -/
theorem reachable_regular {state : State} (reachable : state.Reachable) :
    state.Regular ∧
      (∀ number, state.blocks.head? ≠ some (.loopHead number)) ∧
      state.frame.callerCells + state.frame.locals = state.frame.height ∧
      (∀ name bound pushed, state.frame.binding? name = some bound →
        ¬ state.frame.height + pushed < bound ∧
          bound + (state.frame.height + pushed - bound) = state.frame.height + pushed) ∧
      (∀ pushed scratch operand text,
        state.frame.resolve pushed scratch operand = .error (.invalidPosition text) →
        ¬ state.frame.InRange pushed operand) ∧
      ∀ depth,
        (state.lower (.openBlock depth)).error =
          (if state.blocks = [] then some .unmatchedBlock else none) ∧
          (state.lower (.closeBlock depth)).error = if state.blocks = [] then
            some .unmatchedBlock else none := by
  have regular := reachable.regular
  refine ⟨regular, regular.innermost, Nat.add_sub_cancel' regular.callerCells, ?_, ?_,
    fun depth => ?_⟩
  · intro name bound pushed found
    have below := regular.bindings name bound found
    omega
  · intro pushed scratch operand text failed
    exact Frame.not_inRange_of_resolve reachable.covers failed
  · exact ⟨error_openBlock reachable.paired depth, error_closeBlock reachable.paired depth⟩

/-- A loop whose condition fails uses up a label. Inside the next loop a function is
entered, and its end leaves the loop open. -/
theorem reachable_after_failed_loop :
    let unbound : Condition := ⟨.variable "x" .zero, .clo, .constant "0"⟩
    let never : Condition := ⟨.constant "0", .niv, .constant "0"⟩
    let history : List Expression := [.loop unbound, .loop never, .function "f" [⟨"a", false⟩],
      .declare "x" true 3, .closeBlock 9, .declare "y" false 1]
    let state : State := history.foldl
      (fun state expression => (state.lower expression).state) .start
    state.blocks = [.loopExit 0, .loopHead 1] ∧ state.frame.locals = 1 ∧
      state.Regular ∧ (state.lower (.closeBlock 0)).error = none := by
  intro unbound never history state
  have blocks : state.blocks = [.loopExit 0, .loopHead 1] := by decide +kernel
  have reachable : state.Reachable :=
    .lower _ (.lower _ (.lower _ (.lower _ (.lower _ (.lower _ .start)))))
  obtain ⟨regular, _, locals, _, _, marks⟩ := reachable_regular reachable
  refine ⟨blocks, ?_, regular, ?_⟩
  · have height : state.frame.height = 1 := by decide +kernel
    have callerCells : state.frame.callerCells = 0 := by decide +kernel
    omega
  · rw [(marks 0).2, blocks]
    rfl

end Lowering.State

/-! Steps that fail. -/

/-- Labels handed out once a step has failed: the head of a loop has got its label
before the condition is looked at. -/
def Counters.passFailed (counters : Counters) : Expression → Counters
  | .loop _ => { counters with loopHeads := counters.loopHeads + 1 }
  | _ => counters

theorem Instruction.listing_append (first second : List Instruction) :
    listing (first ++ second) = listing first ++ listing second := by
  rw [listing, listing, listing, List.map_append, String.join_append]

namespace Lowering

theorem Step.state_of_failed {emission : Emission Unit} {kept next : State}
    {error : GenerationError} (failed : (Step.ofEmission emission kept next).error = some error) :
    (Step.ofEmission emission kept next).state = kept := by
  unfold Step.ofEmission at failed ⊢
  cases outcome : emission.outcome with
  | ok _ => simp [outcome] at failed
  | error _ => rfl

namespace State

/-- A step that fails changes nothing but the number of labels, if blocks stand in groups. -/
theorem state_of_failed {state : State} (paired : Paired state.blocks) {expression : Expression}
    {error : GenerationError} (failed : (state.lower expression).error = some error) :
    (state.lower expression).state =
      { state with counters := state.counters.passFailed expression } := by
  cases expression with
  | branch condition => exact Step.state_of_failed failed
  | loop condition => exact Step.state_of_failed failed
  | returnValue value => exact Step.state_of_failed failed
  | call function arguments destination => exact Step.state_of_failed failed
  | raw mnemonic operands => exact Step.state_of_failed failed
  | openBlock depth =>
      rw [lower, openBlock]
      split <;> rfl
  | closeBlock depth =>
      -- The closer takes labels off before it fails, but it fails only where there are none.
      rw [error_closeBlock paired] at failed
      by_cases closed : state.blocks = []
      · have unchanged : state.closeBlock = .failed state .unmatchedBlock := by
          rw [closeBlock, closed]
        rw [lower, unchanged]
        rfl
      · rw [if_neg closed] at failed
        cases failed
  | exportLabel label => cases failed
  | importLabel label => cases failed
  | declare name pointer length => cases failed
  | function name parameters => cases failed

/-- A step that fails leaves the frame, the open blocks, the function and its cells and
all numbers of labels but those of loop heads as they were, and only adds to the text. -/
theorem failed_step_keeps_state {state : State} (reachable : state.Reachable)
    {expression : Expression} {error : GenerationError}
    (failed : (state.lower expression).error = some error) :
    let after := (state.lower expression).state
    after.frame.height = state.frame.height ∧ after.frame.callerCells = state.frame.callerCells ∧
      after.frame.bindings = state.frame.bindings ∧ after.blocks = state.blocks ∧
      after.function = state.function ∧ after.functionCells = state.functionCells ∧
      after.returnedOutside = state.returnedOutside ∧
      after.counters = { state.counters with loopHeads := after.counters.loopHeads } ∧
      (after ≠ state → ∃ condition, expression = .loop condition ∧
        after.counters.loopHeads = state.counters.loopHeads + 1) ∧
      ∀ emitted : List Instruction,
        (Instruction.listing emitted).toList <+:
          (Instruction.listing (emitted ++ (state.lower expression).code)).toList := by
  intro after
  have kept : after = { state with counters := state.counters.passFailed expression } :=
    state_of_failed reachable.paired failed
  rw [kept]
  refine ⟨rfl, rfl, rfl, rfl, rfl, rfl, rfl, ?_, ?_, fun emitted => ?_⟩
  · cases expression <;> rfl
  · intro changed
    cases expression with
    | loop condition => exact ⟨condition, rfl, rfl⟩
    | _ => exact absurd rfl changed
  · rw [Instruction.listing_append, String.toList_append]
    exact List.prefix_append _ _

/-- A loop of which only the left operand can be resolved. Its head's label and the copy
of that operand have been emitted, and the function is still open. -/
theorem failed_step_keeps_open_function :
    let condition : Condition := ⟨.variable "a" .zero, .clo, .variable "b" .zero⟩
    let history : List Expression := [.function "f" [⟨"a", false⟩], .declare "c" true 2]
    let state : State := history.foldl
      (fun state expression => (state.lower expression).state) .start
    let failed := state.lower (.loop condition)
    failed.error = some (.undefinedVariable "b") ∧
      Instruction.listing failed.code = "nll fal-rinyv0\nkrz f5+12@ f1\n" ∧
      failed.state.blocks = [.function "f" 1] ∧ failed.state.frame.bindings = [("c", 4), ("a", 1)] ∧
      failed.state.counters = ⟨0, 1, 0, 1⟩ := by
  intro condition history state failed
  have reachable : state.Reachable := .lower _ (.lower _ .start)
  have error : failed.error = some (.undefinedVariable "b") := by decide +kernel
  obtain ⟨_, _, bindings, blocks, _, _, _, counters, _, _⟩ :=
    failed_step_keeps_state reachable error
  refine ⟨error, by decide +kernel, blocks.trans ?_, bindings.trans ?_, counters.trans ?_⟩ <;>
    decide +kernel

end State
end Lowering
end TinkaCompiler
