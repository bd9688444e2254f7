import Mathlib.Algebra.GroupWithZero.Nat
import TinkaCompiler.Proofs.Grammar
import TinkaCompiler.Proofs.Stages

/-! The stack before and behind a block.

Control goes over a block or through it. A variable that is declared in a block is
taken from the stack only on the way through, while the frame counts it from there to
the end of the function. The two ways agree exactly if nothing is declared in the block. -/

set_option autoImplicit false

namespace TinkaCompiler

/-! Cells that expressions declare. -/

namespace Expression

def isDeclaration : Expression → Bool
  | .declare _ _ _ => true
  | _ => false

def cells : Expression → Nat
  | .declare _ _ length => length
  | _ => 0

end Expression

theorem Grammar.Simple.cells_pos {expression : Expression} (simple : Simple expression)
    (declares : expression.isDeclaration) : 0 < expression.cells := by
  cases simple with
  | cell whole => exact Nat.one_pos
  | cells named whole positive below => exact positive
  | returnValue writable => cases declares
  | call target arguments destination => cases declares
  | raw arity operands => cases declares

theorem Grammar.Header.isDeclaration {header : Expression} (heads : Header header) :
    header.isDeclaration = false := by
  cases heads <;> rfl

theorem Grammar.Statements.cells_pos {depth : Nat} {expressions : List Expression}
    (statements : Statements depth expressions) :
    ∀ expression ∈ expressions, expression.isDeclaration → 0 < expression.cells := by
  induction statements with
  | nil => simp
  | simple simple _ ih => exact List.forall_mem_cons.mpr ⟨simple.cells_pos, ih⟩
  | block heads _ _ innerIh ih =>
      simp only [List.cons_append, List.forall_mem_cons, List.forall_mem_append]
      refine ⟨fun declares => ?_, nofun, innerIh, nofun, ih⟩
      rw [heads.isDeclaration] at declares
      cases declares

theorem Grammar.Program.cells_pos {expressions : List Expression} (program : Program expressions) :
    ∀ expression ∈ expressions, expression.isDeclaration → 0 < expression.cells := by
  induction program with
  | nil => simp
  | exportLabel _ ih => exact List.forall_mem_cons.mpr ⟨nofun, ih⟩
  | importLabel _ ih => exact List.forall_mem_cons.mpr ⟨nofun, ih⟩
  | function _ _ statements _ ih =>
      simp only [List.cons_append, List.forall_mem_cons, List.forall_mem_append]
      exact ⟨nofun, nofun, statements.cells_pos, nofun, ih⟩

section Cells

open Lowering (State Stage)

theorem Body.cells_eq_sum (body : Body) (depth : Nat) (state : State) :
    body.cells = ((body.stages depth state).map (·.expression.cells)).sum := by
  induction body using Body.induction_by_kind generalizing depth state with
  | done => rfl
  | act leaf rest ih =>
      rw [cells, stages, List.map_cons, List.sum_cons, ← ih]
      cases leaf <;> rfl
  | leave value rest ih =>
      rw [cells, stages, List.map_cons, List.sum_cons, ← ih]
      exact (Nat.zero_add _).symm
  | block kind test inner rest innerIh ih =>
      have header : (kind.header test.skipping).cells = 0 := by cases kind <;> rfl
      rw [kind.cells_tree, stages_tree]
      simp only [List.map_cons, List.map_append, List.sum_cons, List.sum_append]
      rw [← innerIh, ← ih, header]
      simp [Expression.cells]

theorem Expression.cells_of_not_declaration {expression : Expression}
    (other : expression.isDeclaration = false) :
    expression.cells = 0 := by
  cases expression <;> first | rfl | cases other

theorem Body.cells_eq_zero_iff (body : Body) (depth : Nat) (state : State)
    (positive : ∀ stage ∈ body.stages depth state,
      stage.expression.isDeclaration → 0 < stage.expression.cells) :
    body.cells = 0 ↔ ∀ stage ∈ body.stages depth state, stage.expression.isDeclaration = false := by
  rw [body.cells_eq_sum depth state, List.sum_eq_zero_iff_forall_eq_nat, List.forall_mem_map]
  constructor
  · intro empty stage member
    by_contra declares
    have taken := positive stage member (by simpa using declares)
    have none := empty stage member
    omega
  · intro none stage member
    exact Expression.cells_of_not_declaration (none stage member)

theorem Body.shallow_of_cells {body : Body} (empty : body.cells = 0) : body.Shallow := by
  induction body with
  | done => trivial
  | act leaf rest ih =>
      rw [cells] at empty
      apply ih
      omega
  | leave value rest ih => exact ih empty
  | branch test inner rest innerIh ih =>
      rw [cells] at empty
      have within : inner.cells = 0 := by omega
      exact ⟨within, innerIh within, ih (by omega)⟩
  | loop test inner rest innerIh ih =>
      rw [cells] at empty
      have within : inner.cells = 0 := by omega
      exact ⟨within, innerIh within, ih (by omega)⟩

end Cells

/-! Jumps inside a body keep the level. -/

section Steady

open Lowering (State Line Steady definitions)

@[simp]
theorem Body.functions_after (body : Body) (state : State) :
    (body.after state).counters.functions = state.counters.functions := by
  induction body using Body.induction_by_kind generalizing state with
  | done => rfl
  | act leaf rest ih => rw [after, ih, State.state_leaf]
  | leave value rest ih => exact ih state
  | block kind test inner rest innerIh ih =>
      rw [kind.after_tree, ih, State.outOfBlock, innerIh]
      cases kind <;> rfl

theorem Body.steady (body : Body) (depth : Nat) (state : State) {ordinal cells : Nat}
    (inside : state.Inside ordinal cells body.cells) (accepted : body.Accepted depth state)
    (shallow : body.Shallow) :
    Steady (body.lines depth state) := by
  intro line member label target position other found reached defines text
  have fresh := body.fresh_definitions depth state accepted
  have known := List.mem_of_getElem? reached
  obtain ⟨generated, lands⟩ :=
    body.lands depth state inside accepted shallow line member label target
  have alsoGenerated : found.isGenerated := by
    have inner := body.not_boundary depth state inside.function accepted other known
    rw [defines] at inner
    cases found <;> first | rfl | cases inner
  cases Label.eq_of_render alsoGenerated generated text
  rcases lands with ⟨landing, landingMember, landingDefines, level⟩ | ⟨rfl, _⟩
  · obtain ⟨there, landingReached⟩ := List.getElem?_of_mem landingMember
    cases Lowering.definedOnce_of_nodup fresh.nodup generated reached landingReached
      defines landingDefines
    cases reached.symm.trans landingReached
    exact level
  · -- No exit of a function is defined inside a body.
    have within : (Label.functionExit ordinal).Within state.counters
        (body.after state).counters := by
      apply fresh.within
      exact Lowering.mem_definitions.mpr ⟨List.mem_map.mpr ⟨other, known, defines⟩, rfl⟩
    obtain ⟨above, below⟩ := within
    rw [functions_after] at below
    omega

end Steady

/-! Paths through straight code. -/

theorem ControlFlow.Path.fall {code : List Instruction} {start : Nat} {grown : Int}
    (before straight rest : List Instruction) (split : code = before ++ straight ++ rest)
    (falls : ∀ instruction ∈ straight, instruction.fallsThrough)
    (path : Path code start before.length grown) :
    Path code start (before ++ straight).length (grown + Instruction.totalGrowth straight) := by
  induction straight generalizing before grown with
  | nil =>
      rw [List.append_nil, Instruction.totalGrowth_nil, Int.add_zero]
      exact path
  | cons instruction straight ih =>
      rw [List.forall_mem_cons] at falls
      have fetched : code[before.length]? = some instruction := by
        rw [split]
        simp
      have next := path.step fetched (.next fetched falls.1)
      have shifted : before ++ instruction :: straight = before ++ [instruction] ++ straight := by
        simp
      rw [shifted] at split ⊢
      rw [Instruction.totalGrowth_cons, ← Int.add_assoc]
      apply ih (before ++ [instruction]) split falls.2
      rw [List.length_append]
      exact next

namespace BlockKind

open Lowering (State)

variable {kind : BlockKind} {condition : Condition} {state : State}

theorem falls_header :
    ∀ instruction ∈ (state.lower (kind.header condition)).code, instruction.fallsThrough := by
  have straight := (state.frame.straight_compare condition).straight
  have falls : ∀ instruction ∈ (state.frame.compare condition).code, instruction.fallsThrough :=
    fun instruction member => Instruction.fallsThrough_of_straight (straight instruction member)
  cases kind with
  | branch =>
      rw [header, State.code_branch]
      exact falls
  | loop =>
      rw [header, State.code_loop, List.forall_mem_cons]
      exact ⟨rfl, falls⟩

theorem growth_header (success : state.frame.check (kind.header condition).uses = .ok ()) :
    Instruction.totalGrowth (state.lower (kind.header condition)).code = 0 := by
  cases kind with
  | branch =>
      rw [header, State.code_branch]
      exact State.growth_compare success
  | loop =>
      rw [header, State.code_loop, Instruction.totalGrowth_cons, State.growth_compare success]
      rfl

theorem closing_eq (counters : Counters) :
    ∃ before, kind.closing counters = before ++ [.define (kind.ending counters)] ∧
      Instruction.totalGrowth before = 0 := by
  cases kind with
  | branch => exact ⟨[], rfl, rfl⟩
  | loop => exact ⟨[_], rfl, rfl⟩

end BlockKind

/-! Blocks. -/

namespace Lowering

variable {stages : List Stage}

def Enclosure.code (block : Enclosure stages) : List Instruction :=
  (block.header :: block.opener :: (block.inner ++ [block.closer])).flatMap Stage.code

theorem Enclosure.flatMap_code (block : Enclosure stages) :
    stages.flatMap Stage.code =
      block.front.flatMap Stage.code ++ block.code ++ block.behind.flatMap Stage.code := by
  have placed := congrArg (List.flatMap Stage.code) block.placed
  simpa [code] using placed

/-- However control reaches the closing label, the stack is as high there as before the
block and as the frame says, and at the head of a loop it is as high in every round. -/
structure Enclosure.Neutral (block : Enclosure stages) : Prop where
  round : ∀ grown, ControlFlow.Path block.code 0 0 grown → grown = 0
  closing : ∀ grown, ControlFlow.Path block.code 0 (block.code.length - 1) grown → grown = 0
  counted : ∀ grown, ControlFlow.Path block.code 0 (block.code.length - 1) grown →
    block.closer.state.frame.level = block.header.state.frame.level + grown

end Lowering

section Blocks

open Lowering (State Line Stage Nested Enclosure)

variable {kind : BlockKind} {test : Test} {inner : Body} {depth : Nat} {state : State}

/-- Control may go over a block, and takes nothing from the stack there. -/
theorem BlockKind.path_skipping
    (success : state.frame.check (kind.header test.skipping).uses = .ok ()) :
    let code := ((kind.tree test inner .done).lines depth state).map (·.instruction)
    ControlFlow.Path code 0 (code.length - 1) 0 := by
  intro code
  obtain ⟨before, closing, _⟩ := kind.closing_eq state.counters
  have split : code = (state.lower (kind.header test.skipping)).code ++
      .jumpIf (kind.ending state.counters) ::
        ((inner.lines (depth + 1) (kind.into state)).map (·.instruction) ++ before) ++
          [.define (kind.ending state.counters)] := by
    simp only [code, kind.lines_tree, List.map_append, State.map_instruction_lines,
      kind.lower_openBlock, kind.lower_closeBlock, Body.lines, List.append_nil, Lowering.Step.done,
      closing]
    simp
  have fetched : code[(state.lower (kind.header test.skipping)).code.length]? =
      some (.jumpIf (kind.ending state.counters)) := by
    rw [split]
    simp
  have arrives : code[code.length - 1]? = some (.define (kind.ending state.counters)) := by
    rw [← List.getLast?_eq_getElem?, split, List.getLast?_concat]
  have through : ControlFlow.Path code 0
      (state.lower (kind.header test.skipping)).code.length 0 := by
    rw [List.append_assoc] at split
    have path := ControlFlow.Path.here.fall [] _ _ split falls_header
    rwa [List.nil_append, growth_header success, Int.zero_add] at path
  exact through.step fetched (.jump fetched rfl arrives rfl)

/-- In a block that takes no cells, control finds the stack at the level of each line. -/
theorem BlockKind.level_of_path {ordinal cells : Nat}
    (inside : state.Inside ordinal cells inner.cells)
    (accepted : (kind.tree test inner .done).Accepted depth state) (empty : inner.cells = 0)
    {position : Nat} {grown : Int} {line : Line}
    (path : ControlFlow.Path (((kind.tree test inner .done).lines depth state).map (·.instruction))
      0 position grown)
    (reached : ((kind.tree test inner .done).lines depth state)[position]? = some line) :
    line.level = state.frame.level + grown := by
  have none : (kind.tree test inner .done).cells = 0 :=
    (kind.cells_tree test inner .done).trans empty
  have flow := (kind.tree test inner .done).flow depth state inside.function accepted
  have steady := (kind.tree test inner .done).steady depth state
    (none.trans empty.symm ▸ inside) accepted (Body.shallow_of_cells none)
  cases lines : (kind.tree test inner .done).lines depth state with
  | nil =>
      rw [lines] at reached
      cases reached
  | cons entry rest =>
      have started : ((kind.tree test inner .done).lines depth state)[0]? = some entry := by
        rw [lines]; rfl
      have level := steady.level_of_path flow started path reached
      rw [lines] at flow
      rw [← flow.level_head]
      exact level

theorem BlockKind.level_closing (kind : BlockKind) (test : Test) (inner : Body) (depth : Nat)
    (state : State) :
    let lines := (kind.tree test inner .done).lines depth state
    ∃ line, lines[lines.length - 1]? = some line ∧
      line.level = (inner.after (kind.into state)).frame.level := by
  intro lines
  obtain ⟨before, closing, still⟩ := kind.closing_eq state.counters
  have code : ((inner.after (kind.into state)).lower (.closeBlock (depth + 1))).code =
      before ++ .define (kind.ending state.counters) :: [] := by
    rw [kind.lower_closeBlock, ← closing]
    rfl
  refine ⟨⟨.define (kind.ending state.counters), .closeBlock (depth + 1),
    inner.after (kind.into state), before.length⟩, ?_, ?_⟩
  · rw [← List.getLast?_eq_getElem?]
    simp [lines, kind.lines_tree, Body.lines, State.lines, code, State.numbered_append,
      State.numbered]
  · rw [State.level_of_code code, still, Int.add_zero]

namespace Lowering.Enclosure

variable {stages : List Stage}

theorem neutral_iff (block : Enclosure stages) (nested : Nested stages) {condition : Condition}
    (heads : block.header.expression = kind.header condition)
    (positive : ∀ stage ∈ stages, stage.expression.isDeclaration → 0 < stage.expression.cells) :
    block.Neutral ↔ ∀ stage ∈ block.inner, stage.expression.isDeclaration = false := by
  obtain ⟨level, test, body, ordinal, cells, same, accepted, inside, opener, inner, closer⟩ :=
    block.exists_tree nested heads
  have header : block.header = ⟨kind.header test.skipping, block.header.state⟩ := by
    rw [← same, ← heads]
  have code : block.code =
      ((kind.tree test body .done).lines level block.header.state).map (·.instruction) := by
    rw [Enclosure.code, Stage.flatMap_code, ← Body.flatMap_lines_stages, Body.stages_tree,
      opener, inner, closer, ← header]
    rfl
  have declared : body.cells = 0 ↔
      ∀ stage ∈ block.inner, stage.expression.isDeclaration = false := by
    rw [inner]
    apply body.cells_eq_zero_iff
    intro stage member
    apply positive
    rw [← inner] at member
    exact block.mem_iff.mpr (by simp [member])
  have ended : block.closer.state.frame.level =
      block.header.state.frame.level + body.cells * cellSize := by
    rw [closer, Body.level_after, kind.into_frame]
  rw [← declared]
  constructor
  · intro neutral
    have skipped : ControlFlow.Path block.code 0 (block.code.length - 1) 0 := by
      rw [code]
      exact kind.path_skipping accepted.tree.1
    have counted := neutral.counted 0 skipped
    rw [ended, cellSize] at counted
    omega
  · intro empty
    obtain ⟨line, last, closing⟩ := kind.level_closing test body level block.header.state
    have reached : ∀ grown, ControlFlow.Path block.code 0 (block.code.length - 1) grown →
        block.closer.state.frame.level = block.header.state.frame.level + grown := by
      intro grown path
      rw [code, List.length_map] at path
      rw [← BlockKind.level_of_path inside accepted empty path last, closing, closer]
    obtain ⟨entry, first⟩ :
        ∃ entry, ((kind.tree test body .done).lines level block.header.state)[0]? = some entry := by
      cases lines : (kind.tree test body .done).lines level block.header.state with
      | nil =>
          rw [lines] at last
          cases last
      | cons entry rest => exact ⟨entry, rfl⟩
    have start := BlockKind.level_of_path inside accepted empty .here first
    rw [empty] at ended
    constructor
    · intro grown path
      rw [code] at path
      have again := BlockKind.level_of_path inside accepted empty path first
      omega
    · intro grown path
      have level := reached grown path
      omega
    · exact reached

end Lowering.Enclosure

theorem BlockKind.exists_of_header {expression : Expression}
    (heads : expression.isBranch ∨ expression.isLoop) :
    ∃ (kind : BlockKind) (condition : Condition), expression = kind.header condition := by
  rcases heads with heads | heads
  · obtain ⟨condition, rfl⟩ := Expression.exists_of_isBranch heads
    exact ⟨.branch, condition, rfl⟩
  · obtain ⟨condition, rfl⟩ := Expression.exists_of_isLoop heads
    exact ⟨.loop, condition, rfl⟩

theorem Source.cells_pos {sources : List Source} {outlines : List Outline}
    (reads : List.Forall₂ Source.Reads sources outlines) :
    ∀ expression ∈ (Outline.linked outlines).expressions,
      expression.isDeclaration → 0 < expression.cells := by
  intro expression member
  obtain ⟨item, linked, stands⟩ := List.mem_flatMap.mp member
  obtain ⟨outline, known, inside⟩ := Outline.mem_linked.mp linked
  obtain ⟨source, _, spelled⟩ := Source.exists_reads reads known
  exact spelled.program.cells_pos expression (List.mem_flatMap.mpr ⟨item, inside, stands⟩)

end Blocks

namespace Compilation

open Lowering (Stage Enclosure)

/-- A branch or loop leaves the stack as it finds it exactly if no variable is declared
in it. Amounts are those of 64 bits for fewer than `2 ^ 62` cells. -/
theorem block_neutral_iff {sources : List Source} {units : List SourceUnit}
    {compilation : Compilation} (analyzed : sources.mapM Source.analyze = .ok units)
    (compiled : ofSources sources = .ok compilation)
    (block : Enclosure (Program.stages (linkedExpressions units)))
    (heads : block.header.expression.isBranch ∨ block.header.expression.isLoop) :
    compilation.body =
      block.front.flatMap Stage.code ++ block.code ++ block.behind.flatMap Stage.code ∧
      (block.Neutral ↔ ∀ stage ∈ block.inner, stage.expression.isDeclaration = false) := by
  obtain ⟨outlines, reads, rfl⟩ := Source.mapM_analyze_eq_ok.mp analyzed
  obtain ⟨accepted, body⟩ := accepted_of_reads reads compiled
  obtain ⟨kind, condition, header⟩ := BlockKind.exists_of_header heads
  have linked := Outline.linkedExpressions_units outlines
  constructor
  · rw [← block.flatMap_code, body, (Outline.staged accepted).lines, linked, Stage.flatMap_code]
    rfl
  · apply block.neutral_iff _ header
    · intro stage member
      apply Source.cells_pos reads
      rw [← linked, ← Program.map_expression_stagesFrom .start (linkedExpressions _)]
      exact List.mem_map_of_mem member
    · rw [linked]
      exact Outline.nested_stages accepted

/-- A loop around a branch that returns. -/
theorem block_neutral_nested_return :
    let source : Source :=
      ⟨"", "cersva f x rinyv fal x niv 0 rinyv fi x clo 1 rinyv dosnud x situv situv situv"⟩
    let expressions : List Expression := [.function "f" [⟨"x", false⟩], .openBlock 1,
      .loop ⟨.variable "x" .zero, .clo, .constant "0"⟩, .openBlock 2,
      .branch ⟨.variable "x" .zero, .niv, .constant "1"⟩, .openBlock 3,
      .returnValue (.variable "x" .zero), .closeBlock 3, .closeBlock 2, .closeBlock 1]
    [source].mapM Source.analyze = .ok [⟨expressions⟩] ∧ (ofSources [source]).isOk ∧
      ∃ block : Enclosure (Program.stages expressions),
        block.header.expression.isLoop ∧ block.Neutral := by
  intro source expressions
  have analyzed : [source].mapM Source.analyze = .ok [⟨expressions⟩] := by decide +kernel
  have accepted : (ofSources [source]).isOk := by decide +kernel
  let stages := Program.stages expressions
  let block : Enclosure stages := {
    front := stages.take 2
    header := stages.get ⟨2, by decide +kernel⟩
    opener := stages.get ⟨3, by decide +kernel⟩
    inner := (stages.drop 4).take 4
    closer := stages.get ⟨8, by decide +kernel⟩
    behind := stages.drop 9
    depth := 2
    placed := by decide +kernel
    opens := by decide +kernel
    closes := by decide +kernel
    within := by decide +kernel }
  refine ⟨analyzed, accepted, block, by decide +kernel, ?_⟩
  cases compiled : ofSources [source] with
  | error error =>
      rw [compiled] at accepted
      cases accepted
  | ok compilation =>
      apply (block_neutral_iff analyzed compiled block (by decide +kernel)).2.mpr
      decide +kernel

/-- A variable that is declared in a branch: the label behind the branch is reached with
the cell taken and without it, and the function then gives back a cell that is not its own. -/
theorem closing_label_at_two_heights :
    let source : Source := ⟨"", "cersva f x rinyv fi x clo 1 rinyv anax y situv dosnud x situv"⟩
    let body : List Instruction := [.define (.named "f"), .move (.cell 4) (.register .f1),
      .compare (.literal "1") .niv, .jumpIf (.branchEnd 0), .reserve 4, .define (.branchEnd 0),
      .move (.cell 8) (.register .f0), .jump (.functionExit 1), .define (.functionExit 1),
      .release 4, .jumpBack]
    (ofSources [source]).map (·.body) = .ok body ∧ ControlFlow.Path body 0 5 0 ∧
      ControlFlow.Path body 0 5 4 ∧ body[10]? = some .jumpBack ∧
      ControlFlow.Path body 0 10 (-4) := by
  intro source body
  have entered : ControlFlow.Path body 0 3 0 :=
    ControlFlow.Path.here.fall [] (body.take 3) (body.drop 3) rfl (by decide)
  have skipped : ControlFlow.Path body 0 5 0 := entered.step rfl (.jump rfl rfl rfl rfl)
  have through : ControlFlow.Path body 0 5 4 :=
    entered.fall (body.take 3) ((body.drop 3).take 2) (body.drop 5) rfl (by decide)
  have returned : ControlFlow.Path body 0 7 0 :=
    skipped.fall (body.take 5) ((body.drop 5).take 2) (body.drop 7) rfl (by decide)
  have exit : ControlFlow.Path body 0 8 0 := returned.step rfl (.jump rfl rfl rfl rfl)
  have released : ControlFlow.Path body 0 10 (-4) :=
    exit.fall (body.take 8) ((body.drop 8).take 2) (body.drop 10) rfl (by decide)
  exact ⟨by decide +kernel, skipped, through, rfl, released⟩

end Compilation
end TinkaCompiler
