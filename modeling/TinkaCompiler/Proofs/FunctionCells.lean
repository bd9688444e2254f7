import TinkaCompiler.Proofs.BlockBalance
import TinkaCompiler.Proofs.Jumps

/-! Cells that a function takes in all.

The cells of a function are counted twice: ahead, from the expressions behind its header,
and step by step, in the frame. The exit releases what the frame has counted at the end, and a
return reserves what is then still missing. -/

set_option autoImplicit false

namespace TinkaCompiler

/-! What the frame has counted at a stage. -/

namespace Lowering

def Stage.declared (stages : List Stage) : Nat :=
  (stages.map (·.expression.cells)).sum

@[simp]
theorem Stage.declared_append (first second : List Stage) :
    declared (first ++ second) = declared first + declared second := by
  simp [declared]

/-- In one function, the frame has grown by the cells of the stages that were passed. -/
structure State.Passes (state : State) (passed : List Stage) (later : State) : Prop where
  height : later.frame.height = state.frame.height + Stage.declared passed
  callerCells : later.frame.callerCells = state.frame.callerCells
  functionCells : later.functionCells = state.functionCells

theorem State.Passes.trans {state middle later : State} {first second : List Stage}
    (start : state.Passes first middle) (rest : middle.Passes second later) :
    state.Passes (first ++ second) later where
  height := by rw [rest.height, start.height, Stage.declared_append, Nat.add_assoc]
  callerCells := rest.callerCells.trans start.callerCells
  functionCells := rest.functionCells.trans start.functionCells

/-- From the entry of a function on, all that has been passed are its own cells. -/
theorem State.Passes.locals {state later : State} {passed : List Stage}
    (passes : state.Passes passed later) (entry : state.frame.height = state.frame.callerCells) :
    later.frame.locals = Stage.declared passed := by
  rw [Frame.locals, passes.height, passes.callerCells, entry, Nat.add_sub_cancel_left]

def Counted (state : State) (stages : List Stage) : Prop :=
  ∀ before stage after, stages = before ++ stage :: after → state.Passes before stage.state

namespace Counted

variable {state middle : State} {stage : Stage} {first second : List Stage}

theorem nil : Counted state [] := by
  intro before stage after placed
  simp at placed

theorem append (start : Counted state first) (passes : state.Passes first middle)
    (rest : Counted middle second) :
    Counted state (first ++ second) := by
  intro before stage after placed
  rcases split_append placed with ⟨more, early, _⟩ | ⟨less, rfl, late⟩
  · exact start before stage more early
  · exact passes.trans (rest less stage after late)

theorem cons (start : state.Passes [] stage.state) (passes : state.Passes [stage] middle)
    (rest : Counted middle second) :
    Counted state (stage :: second) := by
  intro before other after placed
  cases before with
  | nil =>
      obtain ⟨rfl, _⟩ := List.cons.inj placed
      exact start
  | cons head before =>
      obtain ⟨rfl, behind⟩ := List.cons.inj placed
      exact passes.trans (rest before other after behind)

end Counted
end Lowering

section Bodies

open Lowering (State Stage Counted)

theorem Body.passes (body : Body) (depth : Nat) (state : State) :
    state.Passes (body.stages depth state) (body.after state) where
  height := by rw [body.height_after, body.cells_eq_sum depth state, Stage.declared]
  callerCells := body.callerCells_after state
  functionCells := body.after_functionCells state

theorem Body.counted (body : Body) (depth : Nat) (state : State) :
    Counted state (body.stages depth state) := by
  have here : ∀ state : State, state.Passes [] state := fun _ => ⟨rfl, rfl, rfl⟩
  induction body using Body.induction_by_kind generalizing depth state with
  | done => exact .nil
  | act leaf rest ih =>
      have taken : Stage.declared [⟨leaf.expression, state⟩] = leaf.cells := by cases leaf <;> rfl
      refine .cons (here state) ⟨?_, ?_, ?_⟩ (ih depth _)
      · rw [State.state_leaf, Frame.height_enter, taken]
      · rw [State.state_leaf, Frame.callerCells_enter]
      · rw [State.state_leaf]
  | leave value rest ih => exact .cons (here state) ⟨rfl, rfl, rfl⟩ (ih depth state)
  | block kind test inner rest innerIh ih =>
      rw [stages_tree]
      have entered : state.Passes [⟨kind.header test.skipping, state⟩] (kind.into state) := by
        cases kind <;> exact ⟨rfl, rfl, rfl⟩
      have within := innerIh (depth + 1) (kind.into state)
      have closed : (inner.after (kind.into state)).Passes
          [⟨.closeBlock (depth + 1), inner.after (kind.into state)⟩]
          ((inner.after (kind.into state)).outOfBlock state.blocks) := ⟨rfl, rfl, rfl⟩
      refine .cons (here state) entered (.cons (here _) ⟨rfl, rfl, rfl⟩ ?_)
      exact within.append (inner.passes (depth + 1) (kind.into state))
        (.cons (here _) closed (ih depth _))

end Bodies

/-! Functions. -/

namespace Lowering

variable {stages : List Stage}

/-- The exit of a function releases the cells that are declared in it. At each return, the cells
that are declared before and those that are reserved there make up the same number. -/
structure Enclosure.Accounts (block : Enclosure stages) (ordinal : Nat) : Prop where
  exit : block.closer.code =
    .define (.functionExit ordinal) ::
      (Instruction.releaseCells (Stage.declared block.inner) ++ [.jumpBack])
  returns : ∀ before stage after value, block.inner = before ++ stage :: after →
    stage.expression = .returnValue value → ∃ resolved missing,
      Frame.Resolves stage.state.frame 0 .f0 value resolved ∧
        stage.code = resolved.prelude ++ .move resolved.place (.register .f0) ::
          (Instruction.reserveCells missing ++ [.jump (.functionExit ordinal)]) ∧
      Stage.declared before + missing = Stage.declared block.inner ∧
      stage.state.frame.height = stage.state.frame.callerCells + Stage.declared before ∧
      stage.state.functionCells = Stage.declared block.inner
  alone : ∀ stage ∈ block.inner, stage.expression.isFunction = false

theorem Enclosure.accounts {expressions : List Expression} {lines : List Line} {last : State}
    (staged : Program.Staged [] expressions .start lines last)
    (nested : Nested (Program.stages expressions)) (block : Enclosure (Program.stages expressions))
    (heads : block.header.expression.isFunction) :
    block.Accounts (block.front.countP (·.expression.isFunction) + 1) := by
  obtain ⟨name, parameters, header⟩ := Expression.exists_of_isFunction heads
  obtain ⟨state, body, anticipated, inner, closer⟩ := block.exists_function nested header
  have ordinal : state.counters.functions = block.front.countP (·.expression.isFunction) := by
    have counters := block.counters_header staged
    rw [anticipated] at counters
    exact congrArg Counters.functions counters
  have total : Stage.declared block.inner = body.cells := by
    rw [inner, Stage.declared, ← body.cells_eq_sum]
  rw [← ordinal]
  constructor
  · have locals := (body.passes 1 (state.intoFunction name parameters body.cells)).locals rfl
    rw [closer, Stage.code, Body.code_closeFunction, State.leaveFunction, locals, inner]
    rfl
  · intro before stage after value placed returns
    have parts : Stage.declared block.inner =
        Stage.declared before + Stage.declared (stage :: after) := by
      rw [placed, Stage.declared_append]
    have known : stage ∈ block.inner := by simp [placed]
    have success := staged.succeeds stage (block.mem_iff.mpr (by simp [known]))
    rw [inner] at placed known
    have passes := body.counted 1 _ before stage after placed
    have function := (body.forall_mem_stages _ _ stage known).2.1
    have anticipates : stage.state.functionCells = Stage.declared block.inner :=
      passes.functionCells.trans total.symm
    rw [returns, State.error_returnValue] at success
    obtain ⟨resolved, found, _⟩ :=
      @Frame.load_of_check stage.state.frame 0 .f0 value (failure_eq_none success)
    have code := State.code_returnValue_inside function found
    rw [passes.locals rfl, anticipates] at code
    refine ⟨resolved, _, Frame.resolves_of_resolve found, by rw [Stage.code, returns]; exact code,
      ?_, ?_, anticipates⟩
    · rw [parts, Nat.add_sub_cancel_left]
    · rw [passes.height, passes.callerCells]
      rfl
  · intro stage member
    rw [inner] at member
    exact (body.forall_mem_stages _ _ stage member).1

def Enclosure.expressions (block : Enclosure stages) : List Expression :=
  (block.header :: block.opener :: (block.inner ++ [block.closer])).map (·.expression)

end Lowering

/-! A function is one item of one source. -/

section Items

open Lowering (State Stage Enclosure)

theorem Body.map_expression_stages (body : Body) (depth : Nat) (state : State) :
    (body.stages depth state).map (·.expression) = body.expressions depth := by
  induction body using Body.induction_by_kind generalizing depth state with
  | done => rfl
  | act leaf rest ih => rw [stages, List.map_cons, ih, expressions]
  | leave value rest ih => rw [stages, List.map_cons, ih, expressions]
  | block kind test inner rest innerIh ih =>
      rw [stages_tree, kind.expressions_tree]
      simp only [List.map_cons, List.map_append, innerIh, ih]

theorem Item.eq_header {item : Item} {state : State} {front behind : List Stage} {header : Stage}
    (placed : item.stages state = front ++ header :: behind)
    (heads : header.expression.isFunction) :
    front = [] ∧ ∃ name parameters body, item = .function name parameters body := by
  have member : header ∈ item.stages state := by simp [placed]
  cases item with
  | exportLabel label =>
      cases List.mem_singleton.mp member
      cases heads
  | importLabel label =>
      cases List.mem_singleton.mp member
      cases heads
  | function name parameters body =>
      refine ⟨?_, name, parameters, body, rfl⟩
      cases front with
      | nil => rfl
      | cons first front =>
          -- Behind its header no stage of a function opens another one.
          obtain ⟨_, behindHeader⟩ := List.cons.inj placed
          have inside : header ∈ front ++ header :: behind := by simp
          rw [show front ++ header :: behind = _ from behindHeader.symm, List.mem_cons,
            List.mem_append, List.mem_singleton] at inside
          rcases inside with rfl | inside | rfl
          · cases heads
          · rw [(body.forall_mem_stages _ _ header inside).1] at heads
            cases heads
          · cases heads

theorem Outline.exists_item {outline : Outline} {state : State} {front behind : List Stage}
    {header : Stage} (placed : outline.stages state = front ++ header :: behind)
    (heads : header.expression.isFunction) :
    ∃ name parameters body passed rest, Item.function name parameters body ∈ outline ∧
      header :: behind = (Item.function name parameters body).stages passed ++ rest := by
  induction outline generalizing state front with
  | nil => simp [stages] at placed
  | cons item rest ih =>
      rcases split_append placed with ⟨more, early, rfl⟩ | ⟨less, _, late⟩
      · obtain ⟨rfl, name, parameters, body, rfl⟩ := Item.eq_header early heads
        exact ⟨name, parameters, body, state, _, List.mem_cons_self, congrArg (· ++ _) early.symm⟩
      · obtain ⟨name, parameters, body, passed, others, member, split⟩ := ih late
        exact ⟨name, parameters, body, passed, others, List.mem_cons_of_mem _ member, split⟩

theorem Lowering.Enclosure.exists_item {outline : Outline} (accepted : outline.check = .ok ())
    (block : Enclosure (Program.stages outline.expressions))
    (heads : block.header.expression.isFunction) :
    ∃ item ∈ outline, block.expressions = item.expressions := by
  have placed := (Program.stagesFrom_outline outline .start accepted).symm.trans block.placed
  obtain ⟨name, parameters, body, passed, rest, member, split⟩ := Outline.exists_item placed heads
  simp only [Item.stages, List.cons_append, List.append_assoc, List.nil_append] at split
  obtain ⟨header, split⟩ := List.cons.inj split
  obtain ⟨opener, inner, closer⟩ := block.eq_of_split split
  refine ⟨_, member, ?_⟩
  rw [expressions, header, opener, inner, closer, Item.expressions]
  simp only [List.map_cons, List.map_append, Body.map_expression_stages, List.map_nil,
    List.cons_append]

theorem Item.infix_expressions {item : Item} {outline : Outline} (member : item ∈ outline) :
    item.expressions <:+: outline.expressions := by
  obtain ⟨before, after, rfl⟩ := List.append_of_mem member
  refine ⟨Outline.expressions before, Outline.expressions after, ?_⟩
  rw [Outline.expressions_append, Outline.expressions_cons, List.append_assoc]

end Items

namespace Compilation

open Lowering (Stage Enclosure)

/-- Every function of a program is a block. Its exit and its returns account for the cells that
are declared between its header and its closer, and these stand in one source. Amounts are natural
numbers: those of 64 bits for fewer than `2 ^ 62` cells. -/
theorem function_cells_accounted {sources : List Source} {units : List SourceUnit}
    {compilation : Compilation} (analyzed : sources.mapM Source.analyze = .ok units)
    (compiled : ofSources sources = .ok compilation) :
    let stages := Program.stages (linkedExpressions units)
    (∀ front header behind, stages = front ++ header :: behind → header.expression.isFunction →
        ∃ block : Enclosure stages, block.front = front ∧ block.header = header) ∧
      ∀ block : Enclosure stages, block.header.expression.isFunction →
        compilation.body =
          block.front.flatMap Stage.code ++ block.code ++ block.behind.flatMap Stage.code ∧
        block.Accounts (block.front.countP (·.expression.isFunction) + 1) ∧
        ∃ unit ∈ units, block.expressions <:+: unit.expressions := by
  obtain ⟨outlines, reads, rfl⟩ := Source.mapM_analyze_eq_ok.mp analyzed
  obtain ⟨accepted, body⟩ := accepted_of_reads reads compiled
  intro stages
  have linked := Outline.linkedExpressions_units outlines
  have nested := Outline.nested_stages accepted
  have staged := Outline.staged accepted
  simp only [stages]
  rw [linked]
  constructor
  · intro front header behind placed heads
    obtain ⟨name, parameters, same⟩ := Expression.exists_of_isFunction heads
    exact nested.exists_function placed same
  · intro block heads
    refine ⟨?_, block.accounts staged nested heads, ?_⟩
    · rw [← block.flatMap_code, body, staged.lines, Stage.flatMap_code]
      rfl
    · obtain ⟨item, member, same⟩ := block.exists_item accepted heads
      obtain ⟨outline, known, inside⟩ := Outline.mem_linked.mp member
      rw [same]
      exact ⟨outline.unit, List.mem_map_of_mem known, Item.infix_expressions inside⟩

/-- A function that declares a variable in a branch, returns there and declares one more behind
it. Functions around it and in another source declare cells of their own. -/
theorem function_cells_accounted_nested_return :
    let first : Source := ⟨"", "cersva g rinyv anax k@9 situv
      cersva f x rinyv anax a@2 fi x clo 1 rinyv anax b@3 dosnud x situv anax c situv"⟩
    let second : Source := ⟨"", "cersva h rinyv anax k@5 situv"⟩
    let branch : Condition := ⟨.variable "x" .zero, .niv, .constant "1"⟩
    let units : List SourceUnit := [
      ⟨[.function "g" [], .openBlock 1, .declare "k" true 9, .closeBlock 1,
        .function "f" [⟨"x", false⟩], .openBlock 1, .declare "a" true 2, .branch branch,
        .openBlock 2, .declare "b" true 3, .returnValue (.variable "x" .zero), .closeBlock 2,
        .declare "c" false 1, .closeBlock 1]⟩,
      ⟨[.function "h" [], .openBlock 1, .declare "k" true 5, .closeBlock 1]⟩]
    [first, second].mapM Source.analyze = .ok units ∧ (ofSources [first, second]).isOk ∧
      ∃ block : Enclosure (Program.stages (linkedExpressions units)),
        block.header.expression = .function "f" [⟨"x", false⟩] ∧
        block.closer.code = [.define (.functionExit 2), .release 24, .jumpBack] ∧
        ∃ stage ∈ block.inner, ∃ loaded,
          stage.code = loaded ++ [.reserve 4, .jump (.functionExit 2)] := by
  intro first second branch units
  have analyzed : [first, second].mapM Source.analyze = .ok units := by decide +kernel
  have accepted : (ofSources [first, second]).isOk := by decide +kernel
  let stages := Program.stages (linkedExpressions units)
  let block : Enclosure stages := {
    front := stages.take 4
    header := stages.get ⟨4, by decide +kernel⟩
    opener := stages.get ⟨5, by decide +kernel⟩
    inner := (stages.drop 6).take 7
    closer := stages.get ⟨13, by decide +kernel⟩
    behind := stages.drop 14
    depth := 1
    placed := by decide +kernel
    opens := by decide +kernel
    closes := by decide +kernel
    within := by decide +kernel }
  refine ⟨analyzed, accepted, block, by decide +kernel, ?_⟩
  cases compiled : ofSources [first, second] with
  | error error =>
      rw [compiled] at accepted
      cases accepted
  | ok compilation =>
      have accounts :=
        ((function_cells_accounted analyzed compiled).2 block (by decide +kernel)).2.1
      have ordinal : block.front.countP (·.expression.isFunction) + 1 = 2 := by decide +kernel
      have total : Stage.declared block.inner = 6 := by decide +kernel
      rw [ordinal] at accounts
      constructor
      · rw [accounts.exit, total]
        rfl
      · let index : Fin block.inner.length := ⟨4, by decide +kernel⟩
        obtain ⟨resolved, missing, _, code, sum, _⟩ :=
          accounts.returns (block.inner.take 4) (block.inner.get index) (block.inner.drop 5)
            (.variable "x" .zero) (by decide +kernel) (by decide +kernel)
        have before : Stage.declared (block.inner.take 4) = 5 := by decide +kernel
        have one : missing = 1 := by omega
        refine ⟨_, List.get_mem _ index,
          resolved.prelude ++ [.move resolved.place (.register .f0)], ?_⟩
        rw [code, one, List.append_assoc]
        rfl

end Compilation
end TinkaCompiler
