import TinkaCompiler.Proofs.Stages

/-! Jumps and the blocks they belong to.

A jump stands behind the header of a branch or loop, at the end of a loop, or where a
function returns. Its label is defined once in the whole program: by the closer of
its block, by the header of its loop, or by the exit of its function. -/

set_option autoImplicit false

namespace TinkaCompiler

namespace Label

def Made (expressions : List Expression) : Label → Prop
  | .named _ => False
  | .branchEnd number => number < expressions.countP Expression.isBranch
  | .loopHead number | .loopExit number => number < expressions.countP Expression.isLoop
  | .functionExit ordinal => 0 < ordinal ∧ ordinal ≤ expressions.countP Expression.isFunction

def number : Label → Nat
  | .named _ => 0
  | .branchEnd number | .loopHead number | .loopExit number | .functionExit number => number

variable {expressions : List Expression} {label : Label}

instance : Decidable (label.Made expressions) :=
  match label with
  | .named _ => inferInstanceAs (Decidable False)
  | .branchEnd _ | .loopHead _ | .loopExit _ => inferInstanceAs (Decidable (_ < _))
  | .functionExit _ => inferInstanceAs (Decidable (_ ∧ _))

theorem Made.isGenerated (made : label.Made expressions) : label.isGenerated := by
  cases label <;> first | rfl | cases made

theorem made_iff_within :
    label.Made expressions ↔ label.Within Lowering.State.start.counters
      (.ofExpressions expressions) := by
  cases label <;> simp [Made, Within, Lowering.State.start, Counters.ofExpressions]

theorem Made.number_le (made : label.Made expressions) : label.number ≤ expressions.length := by
  cases label with
  | named name => cases made
  | branchEnd number => exact Nat.le_of_lt (Nat.lt_of_lt_of_le made List.countP_le_length)
  | loopHead number => exact Nat.le_of_lt (Nat.lt_of_lt_of_le made List.countP_le_length)
  | loopExit number => exact Nat.le_of_lt (Nat.lt_of_lt_of_le made List.countP_le_length)
  | functionExit ordinal => exact Nat.le_trans made.2 List.countP_le_length

end Label

namespace Lowering

/-! Labels of blocks. -/

/-- The code of a block goes by the headers before it: labels of branches and loops are
numbered from zero, and functions from one. -/
structure Enclosure.Labelled {stages : List Stage} (block : Enclosure stages) : Prop where
  branch : ∀ condition, block.header.expression = .branch condition →
    block.opener.code = [.jumpIf (.branchEnd (block.front.countP (·.expression.isBranch)))] ∧
      block.closer.code = [.define (.branchEnd (block.front.countP (·.expression.isBranch)))]
  loop : ∀ condition, block.header.expression = .loop condition →
    block.header.code.head? =
      some (.define (.loopHead (block.front.countP (·.expression.isLoop)))) ∧
      block.opener.code = [.jumpIf (.loopExit (block.front.countP (·.expression.isLoop)))] ∧
      block.closer.code = [.jump (.loopHead (block.front.countP (·.expression.isLoop))),
        .define (.loopExit (block.front.countP (·.expression.isLoop)))]
  function : ∀ name parameters, block.header.expression = .function name parameters →
    block.closer.code.head? =
      some (.define (.functionExit (block.front.countP (·.expression.isFunction) + 1))) ∧
        ∀ stage ∈ block.inner, ∀ value,
          stage.expression = .returnValue value → ∃ loaded,
            (∀ instruction ∈ loaded, instruction.isStraight) ∧
            stage.code =
              loaded ++ [.jump (.functionExit (block.front.countP (·.expression.isFunction) + 1))]
  /-- A block does not reach into another function. -/
  within : block.header.expression.isBranch ∨ block.header.expression.isLoop ∨
    block.header.expression.isFunction → ∀ stage ∈ block.inner, stage.expression.isFunction = false

namespace Enclosure

variable {expressions : List Expression} {lines : List Line} {last : State}

theorem counters_header (staged : Program.Staged [] expressions .start lines last)
    (block : Enclosure (Program.stages expressions)) :
    block.header.state.counters =
      ⟨block.front.countP (·.expression.isBranch), block.front.countP (·.expression.isLoop),
        block.front.countP (·.expression.isLoop),
        block.front.countP (·.expression.isFunction)⟩ := by
  rw [staged.counters _ _ _ block.placed, List.nil_append, Counters.ofExpressions]
  simp only [List.countP_map]
  rfl

theorem code_of_tree {stages : List Stage} (block : Enclosure stages) (nested : Nested stages)
    {kind : BlockKind} {condition : Condition}
    (heads : block.header.expression = kind.header condition) :
    block.opener.code = [.jumpIf (kind.ending block.header.state.counters)] ∧
      block.closer.code = kind.closing block.header.state.counters ∧
      ∀ stage ∈ block.inner, stage.expression.isFunction = false := by
  obtain ⟨level, test, body, _, _, _, _, _, opener, inner, closer⟩ := block.exists_tree nested heads
  rw [opener, inner, closer, Stage.code, Stage.code, kind.lower_openBlock, kind.lower_closeBlock]
  exact ⟨rfl, rfl, fun stage member => (body.forall_mem_stages _ _ stage member).1⟩

theorem code_of_function (staged : Program.Staged [] expressions .start lines last)
    (block : Enclosure (Program.stages expressions)) (nested : Nested (Program.stages expressions))
    {name : String} {parameters : List Parameter}
    (heads : block.header.expression = .function name parameters) :
    block.closer.code.head? =
      some (.define (.functionExit (block.header.state.counters.functions + 1))) ∧
        ∀ stage ∈ block.inner, stage.expression.isFunction = false ∧ ∀ value,
          stage.expression = .returnValue value → ∃ loaded,
            (∀ instruction ∈ loaded, instruction.isStraight) ∧
            stage.code =
              loaded ++ [.jump (.functionExit (block.header.state.counters.functions + 1))] := by
  obtain ⟨state, body, header, inner, closer⟩ := block.exists_function nested heads
  have ordinal : block.header.state.counters.functions = state.counters.functions := by
    rw [header]
    rfl
  rw [closer, ordinal, Stage.code, Body.code_closeFunction]
  refine ⟨rfl, fun stage member => ?_⟩
  have known : stage ∈ Program.stages expressions := block.mem_iff.mpr (by simp [member])
  rw [inner] at member
  obtain ⟨plain, function, _⟩ := body.forall_mem_stages _ _ stage member
  refine ⟨plain, fun value returns => ?_⟩
  have success := staged.succeeds stage known
  rw [returns, State.error_returnValue] at success
  obtain ⟨loaded, straight, _, _, code⟩ := State.code_returnValue (failure_eq_none success)
  rw [State.returnJump_inside function, ← List.append_assoc] at code
  refine ⟨_, ?_, by rw [Stage.code, returns]; exact code⟩
  rw [List.forall_mem_append]
  exact ⟨straight, Instruction.isStraight_of_mem_reserveCells⟩

theorem labelled (staged : Program.Staged [] expressions .start lines last)
    (nested : Nested (Program.stages expressions))
    (block : Enclosure (Program.stages expressions)) :
    block.Labelled := by
  have counters := block.counters_header staged
  constructor
  · intro condition heads
    obtain ⟨opener, closer, _⟩ :=
      block.code_of_tree nested (show _ = BlockKind.branch.header condition from heads)
    rw [counters] at opener closer
    exact ⟨opener, closer⟩
  · intro condition heads
    obtain ⟨opener, closer, _⟩ :=
      block.code_of_tree nested (show _ = BlockKind.loop.header condition from heads)
    rw [counters] at opener closer
    refine ⟨?_, opener, closer⟩
    rw [Stage.code, heads, State.code_loop, counters]
    rfl
  · intro name parameters heads
    obtain ⟨closer, within⟩ := block.code_of_function staged nested heads
    rw [counters] at closer
    refine ⟨closer, fun stage member value returns => ?_⟩
    have jumps := (within stage member).2 value returns
    rwa [counters] at jumps
  · intro heads
    cases header : block.header.expression with
    | branch condition =>
        exact (block.code_of_tree nested
          (show _ = BlockKind.branch.header condition from header)).2.2
    | loop condition =>
        exact (block.code_of_tree nested (show _ = BlockKind.loop.header condition from header)).2.2
    | function name parameters =>
        exact fun stage member => ((block.code_of_function staged nested header).2 stage member).1
    | _ => simp [header, Expression.isBranch, Expression.isLoop, Expression.isFunction] at heads

end Enclosure

/-! Where jumps stand. -/

def Stage.jumps (stage : Stage) : Bool :=
  stage.code.any (·.target?.isSome)

theorem Stage.jumps_of_no_target {stage : Stage}
    (none : ∀ instruction ∈ stage.code, instruction.target? = none) :
    stage.jumps = false := by
  rw [jumps, List.any_eq_false]
  intro instruction member
  simp [none instruction member]

theorem Stage.jumps_of_straight {stage : Stage}
    (straight : ∀ instruction ∈ stage.code, instruction.isStraight) :
    stage.jumps = false :=
  jumps_of_no_target fun instruction member =>
    Instruction.target?_of_straight (straight instruction member)

/-- A stage that jumps, with the stages before it and the block it belongs to. -/
inductive Jump (stages : List Stage) : List Stage → Stage → Prop where
  | ahead (block : Enclosure stages) :
      block.header.expression.isBranch ∨ block.header.expression.isLoop →
      Jump stages (block.front ++ [block.header]) block.opener
  | back (block : Enclosure stages) :
      block.header.expression.isLoop →
      Jump stages (block.front ++ block.header :: block.opener :: block.inner) block.closer
  | out (block : Enclosure stages) {earlier later : List Stage} {stage : Stage} {value : Operand} :
      block.header.expression.isFunction → block.inner = earlier ++ stage :: later →
      stage.expression = .returnValue value →
      Jump stages (block.front ++ block.header :: block.opener :: earlier) stage

theorem Jump.extend {stages before : List Stage} {stage : Stage} (jump : Jump stages before stage)
    (front behind : List Stage) : Jump (front ++ (stages ++ behind)) (front ++ before) stage := by
  cases jump with
  | ahead block kind =>
      have jump : Jump _ (front ++ block.front ++ [block.header]) _ :=
        .ahead (block.extend front behind) kind
      rwa [List.append_assoc] at jump
  | back block kind =>
      have jump : Jump _ (front ++ block.front ++ block.header :: block.opener :: block.inner) _ :=
        .back (block.extend front behind) kind
      rwa [List.append_assoc] at jump
  | @out block earlier later stage value kind placed returns =>
      have jump : Jump _ (front ++ block.front ++ block.header :: block.opener :: earlier) _ :=
        .out (block.extend front behind) kind placed returns
      rwa [List.append_assoc] at jump

theorem Jump.prepend {stages before : List Stage} {stage : Stage} (jump : Jump stages before stage)
    (front : List Stage) : Jump (front ++ stages) (front ++ before) stage := by
  have extended := jump.extend front []
  rwa [List.append_nil] at extended

theorem Jump.cons {stages before : List Stage} {stage : Stage} (jump : Jump stages before stage)
    (first : Stage) :
    Jump (first :: stages) (first :: before) stage :=
  jump.prepend [first]

end Lowering

section Jumps

open Lowering (State Stage Jump)

variable {state : State} {before after : List Stage} {stage : Stage}

theorem BlockKind.header_jumps (kind : BlockKind) (condition : Condition) (state : State) :
    (Stage.mk (kind.header condition) state).jumps = false := by
  have straight := (state.frame.straight_compare condition).straight
  apply Stage.jumps_of_no_target
  cases kind with
  | branch =>
      rw [Stage.code, header, State.code_branch]
      exact fun instruction member => Instruction.target?_of_straight (straight instruction member)
  | loop =>
      rw [Stage.code, header, State.code_loop, List.forall_mem_cons]
      exact ⟨rfl, fun instruction member =>
        Instruction.target?_of_straight (straight instruction member)⟩

theorem BlockKind.isBranch_or_isLoop (kind : BlockKind) (condition : Condition) :
    (kind.header condition).isBranch ∨ (kind.header condition).isLoop := by
  cases kind with
  | branch => exact Or.inl rfl
  | loop => exact Or.inr rfl

theorem Body.jump_or_return (body : Body) (depth : Nat)
    (placed : body.stages depth state = before ++ stage :: after) (jumps : stage.jumps) :
    (∃ value, stage.expression = .returnValue value) ∨
      Jump (body.stages depth state) before stage := by
  induction body using Body.induction_by_kind generalizing depth state before after with
  | done => simp [stages] at placed
  | act leaf rest ih =>
      rw [stages] at placed ⊢
      cases before with
      | nil =>
          obtain ⟨rfl, _⟩ := List.cons.inj placed
          have straight : (Stage.mk leaf.expression state).jumps = false :=
            Stage.jumps_of_straight (state.straight_leaf leaf)
          rw [straight] at jumps
          cases jumps
      | cons first before =>
          obtain ⟨rfl, later⟩ := List.cons.inj placed
          exact (ih depth later).imp_right (·.cons _)
  | leave value rest ih =>
      rw [stages] at placed ⊢
      cases before with
      | nil =>
          obtain ⟨rfl, _⟩ := List.cons.inj placed
          exact Or.inl ⟨value, rfl⟩
      | cons first before =>
          obtain ⟨rfl, later⟩ := List.cons.inj placed
          exact (ih depth later).imp_right (·.cons _)
  | block kind test inner rest innerIh ih =>
      have split := split_block ((stages_tree kind test inner rest depth state).symm.trans placed)
      rcases split with ⟨rfl, rfl⟩ | ⟨rfl, rfl⟩ | ⟨less, more, rfl, inside⟩ | ⟨rfl, rfl⟩
        | ⟨less, rfl, behind⟩
      · rw [kind.header_jumps] at jumps
        cases jumps
      · right
        exact .ahead (kind.enclosure test inner rest depth state) (kind.isBranch_or_isLoop _)
      · apply (innerIh (depth + 1) inside).imp_right
        intro jump
        rw [stages_tree]
        exact jump.extend [_, _] _
      · -- Of the two kinds of closers, only that of a loop jumps.
        right
        cases kind with
        | branch =>
            rw [Stage.jumps, Stage.code, BlockKind.lower_closeBlock] at jumps
            cases jumps
        | loop => exact .back (BlockKind.loop.enclosure test inner rest depth state) rfl
      · apply (ih depth behind).imp_right
        intro jump
        rw [stages_tree]
        exact (((jump.cons _).prepend _).cons _).cons _

theorem Item.jump (item : Item) (placed : item.stages state = before ++ stage :: after)
    (jumps : stage.jumps) :
    Jump (item.stages state) before stage := by
  have alone : ∀ {single : Stage}, single.jumps = false → [single] ≠ before ++ stage :: after := by
    intro single still same
    have member : stage ∈ [single] := by simp [same]
    rw [List.mem_singleton.mp member, still] at jumps
    cases jumps
  cases item with
  | exportLabel label => exact absurd placed (alone rfl)
  | importLabel label => exact absurd placed (alone rfl)
  | function name parameters body =>
      rcases split_block placed with ⟨_, rfl⟩ | ⟨_, rfl⟩ | ⟨less, more, rfl, inside⟩ | ⟨_, rfl⟩
        | ⟨less, _, behind⟩
      · cases jumps
      · cases jumps
      · rcases body.jump_or_return 1 inside jumps with ⟨value, returns⟩ | jump
        · exact .out (Item.enclosure name parameters body state) rfl inside returns
        · exact jump.extend [_, _] _
      · -- The exit of the function goes back to the caller.
        rw [Stage.jumps_of_no_target] at jumps
        · cases jumps
        · rw [Stage.code, Body.code_closeFunction]
          exact State.no_target_leaveFunction _ _
      · simp at behind

theorem Outline.jump (outline : Outline)
    (placed : Outline.stages state outline = before ++ stage :: after) (jumps : stage.jumps) :
    Jump (Outline.stages state outline) before stage := by
  induction outline generalizing state before with
  | nil => simp [Outline.stages] at placed
  | cons item rest ih =>
      rw [Outline.stages] at placed ⊢
      rcases split_append placed with ⟨more, early, _⟩ | ⟨less, rfl, late⟩
      · exact (item.jump early jumps).extend [] _
      · exact (ih late).prepend _

end Jumps

/-! Definitions of labels. -/

namespace Program

open Lowering (State Stage Line Nested Enclosure)

variable {expressions : List Expression} {lines : List Line} {last : State}

theorem exists_stage {p : Expression → Bool} {number : Nat}
    (below : number < expressions.countP p) :
    ∃ front header behind, stages expressions = front ++ header :: behind ∧ p header.expression ∧
      front.countP (fun stage => p stage.expression) = number := by
  rw [← map_expression_stagesFrom .start expressions, List.countP_map] at below
  exact exists_split_of_lt_countP below

theorem Staged.define_mem (staged : Staged [] expressions .start lines last)
    {label : Label} {stage : Stage} (known : stage ∈ stages expressions)
    (defines : .define label ∈ stage.code) :
    .define label ∈ lines.map (·.instruction) := by
  rw [staged.lines, ← Stage.flatMap_code]
  exact List.mem_flatMap.mpr ⟨stage, known, defines⟩

/-- Every label that is made is defined by the header or the closer of its block. -/
theorem Staged.define_made (staged : Staged [] expressions .start lines last)
    (nested : Nested (stages expressions)) {label : Label} (made : label.Made expressions) :
    .define label ∈ lines.map (·.instruction) := by
  cases label with
  | named name => cases made
  | branchEnd number =>
      obtain ⟨front, header, behind, placed, heads, rfl⟩ := exists_stage made
      obtain ⟨condition, heads⟩ := Expression.exists_of_isBranch heads
      obtain ⟨block, rfl, rfl⟩ :=
        nested.exists_block placed (show _ = BlockKind.branch.header condition from heads)
      apply staged.define_mem block.closer_mem
      rw [((block.labelled staged nested).branch condition heads).2]
      exact List.mem_singleton.mpr rfl
  | loopHead number =>
      obtain ⟨front, header, behind, placed, heads, rfl⟩ := exists_stage made
      obtain ⟨condition, heads⟩ := Expression.exists_of_isLoop heads
      obtain ⟨block, rfl, rfl⟩ :=
        nested.exists_block placed (show _ = BlockKind.loop.header condition from heads)
      apply staged.define_mem block.header_mem
      exact List.mem_of_head? ((block.labelled staged nested).loop condition heads).1
  | loopExit number =>
      obtain ⟨front, header, behind, placed, heads, rfl⟩ := exists_stage made
      obtain ⟨condition, heads⟩ := Expression.exists_of_isLoop heads
      obtain ⟨block, rfl, rfl⟩ :=
        nested.exists_block placed (show _ = BlockKind.loop.header condition from heads)
      apply staged.define_mem block.closer_mem
      rw [((block.labelled staged nested).loop condition heads).2.2]
      exact List.mem_cons_of_mem _ (List.mem_singleton.mpr rfl)
  | functionExit ordinal =>
      obtain ⟨positive, most⟩ := made
      obtain ⟨previous, rfl⟩ := Nat.exists_eq_add_of_lt positive
      have below : previous < expressions.countP Expression.isFunction := by omega
      obtain ⟨front, header, behind, placed, heads, rfl⟩ := exists_stage below
      obtain ⟨name, parameters, heads⟩ := Expression.exists_of_isFunction heads
      obtain ⟨block, rfl, rfl⟩ := nested.exists_function placed heads
      apply staged.define_mem block.closer_mem
      have exit := ((block.labelled staged nested).function name parameters heads).1
      rw [Nat.zero_add]
      exact List.mem_of_head? exit

end Program

namespace Outline

variable {outline : Outline}

theorem define_mem_iff_made (accepted : outline.check = .ok ()) {label : Label}
    (generated : label.isGenerated) :
    .define label ∈ (outline.lines .start).map (·.instruction) ↔
      label.Made outline.expressions := by
  constructor
  · intro defines
    have known := Lowering.mem_definitions.mpr ⟨defines, generated⟩
    have within := (outline.fresh_definitions .start accepted).within label known
    rwa [(staged accepted).last, List.nil_append, ← Label.made_iff_within] at within
  · exact (staged accepted).define_made (nested_stages accepted)

theorem exists_unique_definition (accepted : outline.check = .ok ()) {label : Label}
    (made : label.Made outline.expressions) :
    ∃! position : Nat, ∃ found : Label, found.isGenerated ∧
      ((outline.lines .start).map (·.instruction))[position]? = some (.define found) ∧
      found.render = label.render := by
  obtain ⟨position, defined⟩ :=
    List.getElem?_of_mem ((define_mem_iff_made accepted made.isGenerated).mpr made)
  refine ⟨position, ⟨label, made.isGenerated, defined, rfl⟩, ?_⟩
  rintro other ⟨found, generated, again, text⟩
  cases Label.eq_of_render generated made.isGenerated text
  rw [List.getElem?_map, Option.map_eq_some_iff] at defined again
  obtain ⟨line, here, defines⟩ := defined
  obtain ⟨second, there, alsoDefines⟩ := again
  exact definedOnce accepted .start generated there here alsoDefines defines

end Outline

namespace Compilation

open Lowering (Stage Enclosure Jump)

/-- Every jump of a program belongs to a block, and goes to the one line that defines
its label: the end of its branch, the exit or the head of its loop, or the exit of its
function. Labels are numbered as in 32 bits for fewer than `2 ^ 32` of each kind. -/
theorem jumps_resolve {sources : List Source} {units : List SourceUnit} {compilation : Compilation}
    (analyzed : sources.mapM Source.analyze = .ok units)
    (compiled : ofSources sources = .ok compilation)
    (small : (linkedExpressions units).length < 4294967296) :
    let stages := Program.stages (linkedExpressions units)
    compilation.body = stages.flatMap Stage.code ∧
      (∀ label : Label, label.isGenerated →
        (.define label ∈ compilation.body ↔ label.Made (linkedExpressions units))) ∧
      (∀ label : Label, label.Made (linkedExpressions units) → label.number < 4294967296 ∧
        ∃! position : Nat, ∃ found : Label,
          found.isGenerated ∧ compilation.body[position]? = some (.define found) ∧
          found.render = label.render) ∧
      (∀ block : Enclosure stages, block.Labelled) ∧
      ∀ before stage after, stages = before ++ stage :: after → stage.jumps →
        Jump stages before stage := by
  obtain ⟨outlines, reads, rfl⟩ := Source.mapM_analyze_eq_ok.mp analyzed
  obtain ⟨accepted, body⟩ := accepted_of_reads reads compiled
  have staged := Outline.staged accepted
  rw [Outline.linkedExpressions_units] at small ⊢
  rw [body]
  refine ⟨?_, fun label generated => Outline.define_mem_iff_made accepted generated,
    fun label made => ?_, fun block => block.labelled staged (Outline.nested_stages accepted),
    fun before stage after placed jumps => ?_⟩
  · rw [Stage.flatMap_code]
    exact congrArg _ staged.lines
  · exact ⟨Nat.lt_of_le_of_lt made.number_le small, Outline.exists_unique_definition accepted made⟩
  · rw [Program.stages, Program.stagesFrom_outline _ _ accepted] at placed ⊢
    exact Outline.jump _ placed jumps

/-- A return from inside a branch inside a loop, in the second of two functions. -/
theorem jumps_resolve_nested_return :
    let source : Source :=
      ⟨"", "cersva g rinyv situv " ++
        "cersva f x rinyv fal x niv 0 rinyv fi x clo 1 rinyv dosnud x situv situv situv"⟩
    let body : List Instruction :=
      [.define (.named "g"), .define (.functionExit 1), .jumpBack, .define (.named "f"),
        .define (.loopHead 0), .move (.cell 4) (.register .f1), .compare (.literal "0") .clo,
        .jumpIf (.loopExit 0), .move (.cell 4) (.register .f1), .compare (.literal "1") .niv,
        .jumpIf (.branchEnd 0), .move (.cell 4) (.register .f0), .jump (.functionExit 2),
        .define (.branchEnd 0), .jump (.loopHead 0), .define (.loopExit 0),
        .define (.functionExit 2), .jumpBack]
    (ofSources [source]).map (·.body) = .ok body ∧
      ∀ label ∈ [Label.branchEnd 0, .loopHead 0, .loopExit 0, .functionExit 1, .functionExit 2],
        ∃! position : Nat, ∃ found : Label,
          found.isGenerated ∧ body[position]? = some (.define found) ∧
          found.render = label.render := by
  intro source body
  have analyzed : [source].mapM Source.analyze =
    .ok [⟨[.function "g" [], .openBlock 1, .closeBlock 1,
      .function "f" [⟨"x", false⟩], .openBlock 1, .loop ⟨.variable "x" .zero, .clo, .constant "0"⟩,
      .openBlock 2, .branch ⟨.variable "x" .zero, .niv, .constant "1"⟩, .openBlock 3,
      .returnValue (.variable "x" .zero), .closeBlock 3, .closeBlock 2, .closeBlock 1]⟩] := by
    decide +kernel
  have compiled : (ofSources [source]).map (·.body) = .ok body := by decide +kernel
  refine ⟨compiled, fun label member => ?_⟩
  obtain ⟨compilation, accepted, same⟩ := exists_of_map_body compiled
  obtain ⟨_, _, once, _, _⟩ := jumps_resolve analyzed accepted (by decide)
  rw [same] at once
  apply (once label _).2
  revert member
  revert label
  decide

end Compilation
end TinkaCompiler
