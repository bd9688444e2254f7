import Mathlib.Data.List.Nodup
import TinkaCompiler.Proofs.Jumps

/-! Which programs define a label twice.

Functions and generated labels share one space of names. The names of functions are
free, so two functions may have one name, and a function may be named like a label
that is generated for the same program. There is no other way to define a label twice. -/

set_option autoImplicit false

namespace TinkaCompiler

namespace Instruction

def definedText? : Instruction → Option String
  | .define label => some label.render
  | _ => none

def functionName? : Instruction → Option String
  | .define (.named name) => some name
  | _ => none

theorem functionName?_of_straight {instruction : Instruction} (straight : instruction.isStraight) :
    instruction.functionName? = none := by
  cases instruction <;> first | rfl | cases straight

theorem functionNames_of_straight {code : List Instruction}
    (straight : ∀ instruction ∈ code, instruction.isStraight) :
    code.filterMap functionName? = [] := by
  rw [List.filterMap_eq_nil_iff]
  exact fun instruction member => functionName?_of_straight (straight instruction member)

theorem definedTexts_perm (code : List Instruction) :
    (code.filterMap definedText?).Perm
      (code.filterMap functionName? ++ (code.filterMap definition?).map Label.render) := by
  induction code with
  | nil => exact .nil
  | cons instruction rest ih =>
      cases instruction with
      | define label =>
          cases label with
          | named name => exact ih.cons name
          | _ => exact (ih.cons _).trans List.perm_middle.symm
      | _ => exact ih

theorem nodup_definedTexts_iff {code : List Instruction}
    (once : (code.filterMap definition?).Nodup) :
    (code.filterMap definedText?).Nodup ↔ (code.filterMap functionName?).Nodup ∧
      ∀ name ∈ code.filterMap functionName?,
        ∀ label ∈ code.filterMap definition?, label.render ≠ name := by
  have generated : ∀ label ∈ code.filterMap definition?, label.isGenerated := by
    intro label member
    obtain ⟨instruction, _, defines⟩ := List.mem_filterMap.mp member
    exact (definition?_eq_some.mp defines).2
  have texts : ((code.filterMap definition?).map Label.render).Nodup := by
    apply List.Nodup.map_on _ once
    intro first firstMember second secondMember same
    exact Label.eq_of_render (generated first firstMember) (generated second secondMember) same
  rw [(definedTexts_perm code).nodup_iff, List.nodup_append]
  constructor
  · rintro ⟨names, _, apart⟩
    exact ⟨names, fun name member label known same =>
      apart name member _ (List.mem_map_of_mem known) same.symm⟩
  · rintro ⟨names, apart⟩
    refine ⟨names, texts, ?_⟩
    intro name member text known same
    obtain ⟨label, labelKnown, rfl⟩ := List.mem_map.mp known
    exact apart name member label labelKnown same.symm

end Instruction

/-! Names of functions. -/

def Expression.functionName? : Expression → Option String
  | .function name _ => some name
  | _ => none

namespace Lowering

theorem State.functionNames_returnJump (state : State) :
    state.returnJump.filterMap Instruction.functionName? = [] := by
  unfold returnJump
  split
  · rw [List.filterMap_append,
      Instruction.functionNames_of_straight Instruction.isStraight_of_mem_reserveCells]
    rfl
  · rfl

theorem Stage.functionNames {stage : Stage}
    (success : (stage.state.lower stage.expression).error = none) :
    stage.code.filterMap Instruction.functionName? = stage.expression.functionName?.toList := by
  obtain ⟨expression, state⟩ := stage
  rw [Stage.code]
  cases expression with
  | branch condition =>
      rw [State.code_branch]
      exact Instruction.functionNames_of_straight (state.frame.straight_compare condition).straight
  | loop condition =>
      rw [State.code_loop, List.filterMap_cons]
      exact Instruction.functionNames_of_straight (state.frame.straight_compare condition).straight
  | openBlock depth =>
      simp only [State.lower, State.openBlock]
      split <;> rfl
  | closeBlock depth =>
      simp only [State.lower, State.closeBlock]
      split
      · rfl
      · rfl
      · -- The exit of a function releases its cells and jumps back.
        rw [Step.done, State.leaveFunction, List.filterMap_append, List.filterMap_append,
          Instruction.functionNames_of_straight Instruction.isStraight_of_mem_releaseCells]
        rfl
      all_goals rfl
  | returnValue value =>
      rw [State.error_returnValue] at success
      obtain ⟨loaded, straight, _, _, code⟩ := State.code_returnValue (failure_eq_none success)
      rw [code, List.filterMap_append, Instruction.functionNames_of_straight straight,
        State.functionNames_returnJump]
      rfl
  | call function arguments destination =>
      exact Instruction.functionNames_of_straight
        (state.straight_leaf (.call function arguments destination))
  | raw mnemonic operands =>
      exact Instruction.functionNames_of_straight (state.straight_leaf (.raw mnemonic operands))
  | _ => rfl

end Lowering

namespace Outline

open Lowering (Stage definitions)

variable {outline : Outline}

theorem functionNames_lines (accepted : outline.check = .ok ()) :
    ((outline.lines .start).map (·.instruction)).filterMap Instruction.functionName? =
      outline.expressions.filterMap Expression.functionName? := by
  have staged := Outline.staged accepted
  have names : ∀ stage ∈ Program.stages outline.expressions,
      stage.code.filterMap Instruction.functionName? = stage.expression.functionName?.toList :=
    fun stage member => Stage.functionNames (staged.succeeds stage member)
  calc ((outline.lines .start).map (·.instruction)).filterMap Instruction.functionName?
      = ((Program.stages outline.expressions).flatMap Stage.code).filterMap
          Instruction.functionName? := by
        rw [staged.lines, ← Stage.flatMap_code]
        rfl
    _ = (Program.stages outline.expressions).flatMap (·.expression.functionName?.toList) := by
        rw [List.filterMap_flatMap]
        exact List.flatMap_congr names
    _ = outline.expressions.filterMap Expression.functionName? := by
        rw [List.filterMap_eq_flatMap_toList]
        nth_rewrite 2 [← Program.map_expression_stagesFrom .start outline.expressions]
        rw [List.flatMap_map]
        rfl

theorem nodup_definedTexts_iff (accepted : outline.check = .ok ()) :
    (((outline.lines .start).map (·.instruction)).filterMap Instruction.definedText?).Nodup ↔
      (outline.expressions.filterMap Expression.functionName?).Nodup ∧
        ∀ name ∈ outline.expressions.filterMap Expression.functionName?, ∀ label : Label,
          label.Made outline.expressions → label.render ≠ name := by
  have generated : ((outline.lines .start).map (·.instruction)).filterMap Instruction.definition? =
      definitions (outline.lines .start) := List.filterMap_map
  have made : ∀ label : Label, label ∈ definitions (outline.lines .start) ↔
      label.Made outline.expressions := by
    intro label
    rw [Lowering.mem_definitions]
    constructor
    · rintro ⟨defines, isGenerated⟩
      exact (define_mem_iff_made accepted isGenerated).mp defines
    · intro made
      exact ⟨(define_mem_iff_made accepted made.isGenerated).mpr made, made.isGenerated⟩
  have once := (outline.fresh_definitions .start accepted).nodup
  rw [← generated] at once
  rw [Instruction.nodup_definedTexts_iff once, functionNames_lines accepted, generated]
  simp only [made]

end Outline

namespace Compilation

/-- The labels of a program are distinct exactly if no two functions share a name and no
function is named like a label that is made for the program. Then no jump or call has a
choice. Labels are those of instructions, with names as they are written and not as lines show
them, and their numbers are those of 32 bits for fewer than `2 ^ 32` labels of each kind. -/
theorem labels_distinct_iff {sources : List Source} {units : List SourceUnit}
    {compilation : Compilation} (analyzed : sources.mapM Source.analyze = .ok units)
    (compiled : ofSources sources = .ok compilation) :
    let names := (linkedExpressions units).filterMap Expression.functionName?
    ((compilation.program.filterMap Instruction.definedText?).Nodup ↔ names.Nodup ∧
        ∀ name ∈ names, ∀ label : Label,
          label.Made (linkedExpressions units) → label.render ≠ name) ∧
      ((compilation.program.filterMap Instruction.definedText?).Nodup →
        ∀ (first second : Nat) (label other : Label),
          compilation.program[first]? = some (.define label) →
          compilation.program[second]? = some (.define other) → label.render = other.render →
          first = second) := by
  obtain ⟨outlines, reads, rfl⟩ := Source.mapM_analyze_eq_ok.mp analyzed
  obtain ⟨accepted, body⟩ := accepted_of_reads reads compiled
  -- The jump to the entry point defines nothing.
  have texts : compilation.program.filterMap Instruction.definedText? =
      compilation.body.filterMap Instruction.definedText? := by
    unfold program
    split <;> rfl
  constructor
  · rw [texts, body, Outline.linkedExpressions_units]
    exact Outline.nodup_definedTexts_iff accepted
  · intro nodup first second label other here there same
    exact position_unique nodup here there rfl (congrArg some same.symm)

/-- A function may be named like a label that is not made for the program. -/
theorem labels_distinct_two_files :
    let sources : List Source := [⟨"a", "cersva fi x rinyv fi x clo 1 rinyv situv dosnud x situv"⟩,
      ⟨"b", "cersva fi1 rinyv situv"⟩]
    let first : List Expression := [.function "fi" [⟨"x", false⟩], .openBlock 1,
      .branch ⟨.variable "x" .zero, .niv, .constant "1"⟩, .openBlock 2, .closeBlock 2,
      .returnValue (.variable "x" .zero), .closeBlock 1]
    let second : List Expression := [.function "fi1" [], .openBlock 1, .closeBlock 1]
    sources.mapM Source.analyze = .ok [⟨first⟩, ⟨second⟩] ∧
      (ofSources sources).map (·.program.filterMap Instruction.definedText?) =
        .ok ["fi", "fi0", "dosnud1", "fi1", "dosnud2"] ∧
      ∀ label : Label, label.Made (first ++ second) → label.render ≠ "fi1" := by
  intro sources first second
  have analyzed : sources.mapM Source.analyze = .ok [⟨first⟩, ⟨second⟩] := by decide +kernel
  have texts : (ofSources sources).map (·.program.filterMap Instruction.definedText?) =
      .ok ["fi", "fi0", "dosnud1", "fi1", "dosnud2"] := by
    decide +kernel
  refine ⟨analyzed, texts, ?_⟩
  cases compiled : ofSources sources with
  | error error =>
      rw [compiled] at texts
      cases texts
  | ok compilation =>
      rw [compiled] at texts
      have same : compilation.program.filterMap Instruction.definedText? =
          ["fi", "fi0", "dosnud1", "fi1", "dosnud2"] :=
        Except.ok.inj texts
      have nodup : (compilation.program.filterMap Instruction.definedText?).Nodup := by
        rw [same]
        decide
      exact ((labels_distinct_iff analyzed compiled).1.mp nodup).2 "fi1" (by decide)

/-- Two functions of one name are accepted, and a function named like the end of a branch
of the program. -/
theorem label_defined_twice :
    let twice : Source := ⟨"", "cersva f rinyv situv cersva f rinyv situv"⟩
    let clash : Source := ⟨"", "cersva fi0 x rinyv fi x clo 1 rinyv situv dosnud x situv"⟩
    (ofSources [twice]).map (·.program.filterMap Instruction.definedText?) =
        .ok ["f", "dosnud1", "f", "dosnud2"] ∧
      (ofSources [clash]).map (·.program.filterMap Instruction.definedText?) =
        .ok ["fi0", "fi0", "dosnud1"] := by
  decide +kernel

end Compilation
end TinkaCompiler
