import TinkaCompiler.Proofs.StackBalance

/-! The stages of lowering a program.

A stage is an expression with the state from which it is lowered. The counters of a
stage count the headers before it, and every header is followed by its whole block,
so a block that is found by its marks alone is a block of the tree. -/

set_option autoImplicit false

namespace TinkaCompiler

/-! Where an element stands in a list. -/

section Splits

variable {α : Type}

theorem split_append {first second before after : List α} {item : α}
    (same : first ++ second = before ++ item :: after) :
    (∃ more, first = before ++ item :: more ∧ after = more ++ second) ∨
      ∃ less, before = first ++ less ∧ second = less ++ item :: after := by
  rcases List.append_eq_append_iff.mp same with ⟨less, front, behind⟩ | ⟨more, front, behind⟩
  · exact Or.inr ⟨less, front, behind⟩
  · cases more with
    | nil => exact Or.inr ⟨[], by simpa using front.symm, by simpa using behind.symm⟩
    | cons head more =>
        obtain ⟨rfl, rfl⟩ := List.cons.inj behind
        exact Or.inl ⟨more, front, rfl⟩

/-- An element of a block with what follows it is one of its marks, or stands inside, or
behind. -/
theorem split_block {header opener closer item : α} {inner behind before after : List α}
    (placed : header :: opener :: (inner ++ closer :: behind) = before ++ item :: after) :
    before = [] ∧ item = header ∨ before = [header] ∧ item = opener ∨
      (∃ less more, before = header :: opener :: less ∧ inner = less ++ item :: more) ∨
      before = header :: opener :: inner ∧ item = closer ∨
      ∃ less, before = header :: opener :: (inner ++ closer :: less) ∧
        behind = less ++ item :: after := by
  rcases split_append (show [header, opener] ++ (inner ++ closer :: behind) = _ from placed) with
    ⟨more, marks, _⟩ | ⟨rest, rfl, enclosed⟩
  · rcases before with _ | ⟨first, _ | ⟨second, before⟩⟩
    · exact Or.inl ⟨rfl, (List.cons.inj marks).1.symm⟩
    · obtain ⟨rfl, second⟩ := List.cons.inj marks
      exact Or.inr (Or.inl ⟨rfl, (List.cons.inj second).1.symm⟩)
    · simp at marks
  · right; right
    rcases split_append enclosed with ⟨more, inside, _⟩ | ⟨less, rfl, closing⟩
    · exact Or.inl ⟨rest, more, rfl, inside⟩
    · right
      cases less with
      | nil => exact Or.inl ⟨by simp, (List.cons.inj closing).1.symm⟩
      | cons first less =>
          obtain ⟨rfl, closed⟩ := List.cons.inj closing
          exact Or.inr ⟨less, rfl, closed⟩

theorem split_unique {p : α → Prop} {first second rest others : List α} {item other : α}
    (same : first ++ item :: rest = second ++ other :: others) (found : p item)
    (alsoFound : p other) (none : ∀ before ∈ first, ¬p before)
    (alsoNone : ∀ before ∈ second, ¬p before) :
    first = second ∧ item = other ∧ rest = others := by
  rcases split_append same with ⟨more, rfl, _⟩ | ⟨less, rfl, behind⟩
  · exact absurd alsoFound (none other (by simp))
  · cases less with
    | nil =>
        obtain ⟨rfl, rfl⟩ := List.cons.inj behind
        exact ⟨(List.append_nil first).symm, rfl, rfl⟩
    | cons head less =>
        obtain ⟨rfl, _⟩ := List.cons.inj behind
        exact absurd found (alsoNone item (by simp))

theorem exists_split_of_lt_countP {p : α → Bool} {items : List α} {number : Nat}
    (below : number < items.countP p) :
    ∃ front item behind, items = front ++ item :: behind ∧ p item ∧ front.countP p = number := by
  induction items generalizing number with
  | nil => simp at below
  | cons first rest ih =>
      cases counts : p first with
      | false =>
          rw [List.countP_cons_of_neg (by simp [counts])] at below
          obtain ⟨front, item, behind, rfl, found, count⟩ := ih below
          refine ⟨first :: front, item, behind, rfl, found, ?_⟩
          rwa [List.countP_cons_of_neg (by simp [counts])]
      | true =>
          rw [List.countP_cons_of_pos counts] at below
          cases number with
          | zero => exact ⟨[], first, rest, rfl, counts, rfl⟩
          | succ number =>
              obtain ⟨front, item, behind, rfl, found, count⟩ := ih (Nat.lt_of_succ_lt_succ below)
              refine ⟨first :: front, item, behind, rfl, found, ?_⟩
              rw [List.countP_cons_of_pos counts, count]

end Splits

/-! Branches and loops. -/

inductive BlockKind where
  | branch
  | loop
  deriving DecidableEq, Repr

namespace BlockKind

open Lowering (State)

def header : BlockKind → Condition → Expression
  | .branch => .branch
  | .loop => .loop

def tree : BlockKind → Test → Body → Body → Body
  | .branch => .branch
  | .loop => .loop

def into : BlockKind → State → State
  | .branch => State.intoBranch
  | .loop => State.intoLoop

def ending : BlockKind → Counters → Label
  | .branch, counters => .branchEnd counters.branches
  | .loop, counters => .loopExit counters.loopExits

def closing : BlockKind → Counters → List Instruction
  | .branch, counters => [.define (.branchEnd counters.branches)]
  | .loop, counters => [.jump (.loopHead counters.loopHeads),
      .define (.loopExit counters.loopExits)]

variable (kind : BlockKind) (state : State)

@[simp]
theorem into_frame : (kind.into state).frame = state.frame := by
  cases kind <;> rfl

@[simp]
theorem into_function : (kind.into state).function = state.function := by
  cases kind <;> rfl

theorem header_injective {kind other : BlockKind} {condition another : Condition}
    (same : kind.header condition = other.header another) : kind = other ∧ condition = another := by
  cases kind <;> cases other <;> cases same <;> exact ⟨rfl, rfl⟩

theorem state_header {kind : BlockKind} {state : State} {condition : Condition}
    (success : state.frame.check (kind.header condition).uses = .ok ()) :
    (state.lower (kind.header condition)).state = kind.into state := by
  cases kind with
  | branch => exact State.state_branch success
  | loop => exact State.state_loop success

theorem lower_openBlock (depth : Nat) :
    (kind.into state).lower (.openBlock depth) =
      .done (kind.into state) [.jumpIf (kind.ending state.counters)] := by
  cases kind <;> rfl

theorem lower_closeBlock (inner : Body) (depth : Nat) :
    (inner.after (kind.into state)).lower (.closeBlock depth) =
      .done ((inner.after (kind.into state)).outOfBlock state.blocks)
        (kind.closing state.counters) := by
  rw [State.lower, State.closeBlock, Body.after_blocks]
  cases kind <;> rfl

variable (test : Test) (inner rest : Body)

theorem expressions_tree (depth : Nat) :
    (kind.tree test inner rest).expressions depth =
      kind.header test.skipping :: .openBlock (depth + 1) :: (inner.expressions (depth + 1) ++
        .closeBlock (depth + 1) :: rest.expressions depth) := by
  cases kind <;> rfl

theorem after_tree :
    (kind.tree test inner rest).after state =
      rest.after ((inner.after (kind.into state)).outOfBlock state.blocks) := by
  cases kind <;> rfl

theorem lines_tree (depth : Nat) :
    (kind.tree test inner rest).lines depth state =
      state.lines (kind.header test.skipping) ++ (kind.into state).lines (.openBlock (depth + 1)) ++
        inner.lines (depth + 1) (kind.into state) ++
        (inner.after (kind.into state)).lines (.closeBlock (depth + 1)) ++
        rest.lines depth ((inner.after (kind.into state)).outOfBlock state.blocks) := by
  cases kind <;> rfl

theorem cells_tree : (kind.tree test inner rest).cells = inner.cells + rest.cells := by
  cases kind <;> rfl

end BlockKind

/-- Induction over a body, with branches and loops as one case. -/
@[elab_as_elim]
theorem Body.induction_by_kind {motive : Body → Prop} (body : Body) (done : motive .done)
    (act : ∀ leaf rest, motive rest → motive (.act leaf rest))
    (leave : ∀ value rest, motive rest → motive (.leave value rest))
    (block : ∀ (kind : BlockKind) test inner rest, motive inner → motive rest →
      motive (kind.tree test inner rest)) : motive body := by
  induction body with
  | done => exact done
  | act leaf rest ih => exact act leaf rest ih
  | leave value rest ih => exact leave value rest ih
  | branch test inner rest innerIh ih => exact block .branch test inner rest innerIh ih
  | loop test inner rest innerIh ih => exact block .loop test inner rest innerIh ih

section Accepted

open Lowering (State)

variable {kind : BlockKind} {test : Test} {inner rest : Body} {depth : Nat} {state : State}

theorem Body.Accepted.tree (accepted : (kind.tree test inner rest).Accepted depth state) :
    state.frame.check (kind.header test.skipping).uses = .ok () ∧
      inner.Accepted (depth + 1) (kind.into state) ∧
      rest.Accepted depth ((inner.after (kind.into state)).outOfBlock state.blocks) := by
  cases kind with
  | branch => exact accepted.branch
  | loop => exact accepted.loop

theorem Body.Accepted.alone (accepted : (kind.tree test inner rest).Accepted depth state) :
    (kind.tree test inner .done).Accepted depth state := by
  obtain ⟨headed, entered, _⟩ := accepted.tree
  rw [Accepted, kind.into_frame] at entered
  have unchanged : state.frame.enter (kind.header test.skipping) = state.frame := by
    cases kind <;> rfl
  rw [Accepted, kind.expressions_tree, Program.checkAll_block _ _ _ _ unchanged, headed, entered]
  rfl

theorem Lowering.State.Inside.into {ordinal cells remaining : Nat}
    (inside : state.Inside ordinal cells remaining) (kind : BlockKind) :
    (kind.into state).Inside ordinal cells remaining := by
  cases kind with
  | branch => exact inside.intoBranch
  | loop => exact inside.intoLoop

end Accepted

/-! Stages. -/

namespace Lowering

structure Stage where
  expression : Expression
  state : State
  deriving DecidableEq, Repr

def Stage.code (stage : Stage) : List Instruction :=
  (stage.state.lower stage.expression).code

def Stage.lines (stage : Stage) : List Line :=
  stage.state.lines stage.expression

theorem Stage.flatMap_code (stages : List Stage) :
    stages.flatMap Stage.code = (stages.flatMap Stage.lines).map (·.instruction) := by
  rw [List.map_flatMap]
  congr 1
  funext stage
  exact (stage.state.map_instruction_lines stage.expression).symm

end Lowering

namespace Program

open Lowering (State Stage Line)

def stagesFrom (state : State) : List Expression → List Stage
  | [] => []
  | expression :: rest =>
    ⟨expression, anticipate state rest expression⟩ ::
      stagesFrom ((anticipate state rest expression).lower expression).state rest

def stages (expressions : List Expression) : List Stage :=
  stagesFrom .start expressions

@[simp]
theorem map_expression_stagesFrom (state : State) (expressions : List Expression) :
    (stagesFrom state expressions).map (·.expression) = expressions := by
  induction expressions generalizing state with
  | nil => rfl
  | cons expression rest ih => rw [stagesFrom, List.map_cons, ih]

end Program

/-! What the counters of a stage count. -/

def Expression.isBranch : Expression → Bool
  | .branch _ => true
  | _ => false

def Expression.isLoop : Expression → Bool
  | .loop _ => true
  | _ => false

def Expression.isHeader (expression : Expression) : Bool :=
  expression.isBranch || expression.isLoop || expression.isFunction

theorem Expression.exists_of_isBranch {expression : Expression} (header : expression.isBranch) :
    ∃ condition, expression = .branch condition := by
  cases expression <;> first | exact ⟨_, rfl⟩ | cases header

theorem Expression.exists_of_isLoop {expression : Expression} (header : expression.isLoop) :
    ∃ condition, expression = .loop condition := by
  cases expression <;> first | exact ⟨_, rfl⟩ | cases header

theorem Expression.exists_of_isFunction {expression : Expression} (header : expression.isFunction) :
    ∃ name parameters, expression = .function name parameters := by
  cases expression <;> first | exact ⟨_, _, rfl⟩ | cases header

def Counters.pass (counters : Counters) : Expression → Counters
  | .branch _ => { counters with branches := counters.branches + 1 }
  | .loop _ =>
      { counters with
        loopHeads := counters.loopHeads + 1
        loopExits := counters.loopExits + 1 }
  | .function _ _ => { counters with functions := counters.functions + 1 }
  | _ => counters

def Counters.ofExpressions (expressions : List Expression) : Counters :=
  ⟨expressions.countP Expression.isBranch, expressions.countP Expression.isLoop,
    expressions.countP Expression.isLoop, expressions.countP Expression.isFunction⟩

theorem Counters.ofExpressions_append_singleton (expressions : List Expression)
    (expression : Expression) :
    ofExpressions (expressions ++ [expression]) = (ofExpressions expressions).pass expression := by
  cases expression <;>
    simp [ofExpressions, pass, Expression.isBranch, Expression.isLoop, Expression.isFunction]

namespace Lowering

theorem failure_eq_none {checked : Except GenerationError Unit} (none : failure checked = none) :
    checked = .ok () := by
  cases checked with
  | ok _ => rfl
  | error error => cases none

theorem Step.counters_ofEmission (emission : Emission Unit) {kept next : State}
    (same : kept.counters = next.counters) :
    (Step.ofEmission emission kept next).state.counters = next.counters := by
  unfold Step.ofEmission
  cases emission.outcome with
  | ok _ => rfl
  | error _ => exact same

theorem State.counters_lower {state : State} {expression : Expression}
    (success : (state.lower expression).error = none) :
    (state.lower expression).state.counters = state.counters.pass expression := by
  cases expression with
  | branch condition =>
      rw [error_branch] at success
      rw [state_branch (failure_eq_none success)]
      rfl
  | loop condition =>
      rw [error_loop] at success
      rw [state_loop (failure_eq_none success)]
      rfl
  | openBlock depth =>
      rw [lower, openBlock]
      split <;> rfl
  | closeBlock depth =>
      rw [lower, closeBlock]
      split <;> rfl
  | returnValue value => exact Step.counters_ofEmission _ rfl
  | call function arguments destination => exact Step.counters_ofEmission _ rfl
  | raw mnemonic operands => exact Step.counters_ofEmission _ rfl
  | _ => rfl

end Lowering

namespace Program

open Lowering (State Stage Line)

theorem counters_anticipate (state : State) (rest : List Expression) (expression : Expression) :
    (anticipate state rest expression).counters = state.counters := by
  cases expression <;> rfl

theorem traceFrom_cons_eq_ok {state last : State} {expression : Expression} {rest : List Expression}
    {lines : List Line} (traced : traceFrom state (expression :: rest) = .ok (lines, last)) :
    ((anticipate state rest expression).lower expression).error = none ∧
      ∃ later, traceFrom ((anticipate state rest expression).lower expression).state rest =
          .ok (later, last) ∧
        lines = (anticipate state rest expression).lines expression ++ later := by
  rw [traceFrom] at traced
  cases error : ((anticipate state rest expression).lower expression).error with
  | some failure =>
      simp only [error] at traced
      cases traced
  | none =>
      simp only [error] at traced
      cases behind : traceFrom ((anticipate state rest expression).lower expression).state rest with
      | error failure =>
          rw [behind] at traced
          cases traced
      | ok result =>
          rw [behind] at traced
          cases traced
          exact ⟨rfl, _, rfl, rfl⟩

/-- What a trace of some expressions says about their stages, when other expressions
were passed before. -/
structure Staged (passed expressions : List Expression) (state : State) (lines : List Line)
    (last : State) : Prop where
  lines : lines = (stagesFrom state expressions).flatMap Stage.lines
  last : last.counters = .ofExpressions (passed ++ expressions)
  succeeds : ∀ stage ∈ stagesFrom state expressions,
    (stage.state.lower stage.expression).error = none
  counters : ∀ front stage behind, stagesFrom state expressions = front ++ stage :: behind →
    stage.state.counters = .ofExpressions (passed ++ front.map (·.expression))

theorem staged_of_traceFrom {passed expressions : List Expression} {state last : State}
    {lines : List Line} (start : state.counters = .ofExpressions passed)
    (traced : traceFrom state expressions = .ok (lines, last)) :
    Staged passed expressions state lines last := by
  -- The expressions that were passed grow by one at each step.
  induction expressions generalizing passed state lines with
  | nil =>
      cases traced
      exact ⟨rfl, by rw [start, List.append_nil], by simp [stagesFrom], by simp [stagesFrom]⟩
  | cons expression rest ih =>
      obtain ⟨success, later, behind, rfl⟩ := traceFrom_cons_eq_ok traced
      have counted : (anticipate state rest expression).counters = .ofExpressions passed :=
        (counters_anticipate state rest expression).trans start
      have next : ((anticipate state rest expression).lower expression).state.counters =
          .ofExpressions (passed ++ [expression]) := by
        rw [State.counters_lower success, counted, Counters.ofExpressions_append_singleton]
      have staged := ih next behind
      constructor
      · rw [stagesFrom, List.flatMap_cons, ← staged.lines]
        rfl
      · rw [staged.last, List.append_assoc, List.singleton_append]
      · rw [stagesFrom, List.forall_mem_cons]
        exact ⟨success, staged.succeeds⟩
      · intro front stage after placed
        rw [stagesFrom] at placed
        cases front with
        | nil =>
            obtain ⟨rfl, _⟩ := List.cons.inj placed
            simpa using counted
        | cons first front =>
            obtain ⟨rfl, later⟩ := List.cons.inj placed
            rw [staged.counters front stage after later, List.append_assoc]
            rfl

end Program

/-! The stages of a tree. -/

namespace Body

open Lowering (State Stage Line)

def stages (depth : Nat) (state : State) : Body → List Stage
  | .done => []
  | .act leaf rest => ⟨leaf.expression, state⟩ :: rest.stages depth
      (state.lower leaf.expression).state
  | .leave value rest => ⟨.returnValue value, state⟩ :: rest.stages depth state
  | .branch test inner rest =>
    let closing := inner.after state.intoBranch
    ⟨.branch test.skipping, state⟩ :: ⟨.openBlock (depth + 1), state.intoBranch⟩ ::
      (inner.stages (depth + 1) state.intoBranch ++ ⟨.closeBlock (depth + 1), closing⟩ ::
        rest.stages depth (closing.outOfBlock state.blocks))
  | .loop test inner rest =>
    let closing := inner.after state.intoLoop
    ⟨.loop test.skipping, state⟩ :: ⟨.openBlock (depth + 1), state.intoLoop⟩ ::
      (inner.stages (depth + 1) state.intoLoop ++ ⟨.closeBlock (depth + 1), closing⟩ ::
        rest.stages depth (closing.outOfBlock state.blocks))

theorem stages_tree (kind : BlockKind) (test : Test) (inner rest : Body) (depth : Nat)
    (state : State) :
    (kind.tree test inner rest).stages depth state =
      ⟨kind.header test.skipping, state⟩ :: ⟨.openBlock (depth + 1), kind.into state⟩ ::
        (inner.stages (depth + 1) (kind.into state) ++
          ⟨.closeBlock (depth + 1), inner.after (kind.into state)⟩ ::
            rest.stages depth ((inner.after (kind.into state)).outOfBlock state.blocks)) := by
  cases kind <;> rfl

theorem flatMap_lines_stages (body : Body) (depth : Nat) (state : State) :
    (body.stages depth state).flatMap Stage.lines = body.lines depth state := by
  induction body using Body.induction_by_kind generalizing depth state with
  | done => rfl
  | act leaf rest ih => rw [stages, List.flatMap_cons, ih, lines, Stage.lines]
  | leave value rest ih => rw [stages, List.flatMap_cons, ih, lines, Stage.lines]
  | block kind test inner rest innerIh ih =>
      simp only [stages_tree, kind.lines_tree, List.flatMap_cons, List.flatMap_append, innerIh,
        ih, Stage.lines, List.append_assoc]

/-- The statements of a body neither open a function nor close a block around them. -/
theorem forall_mem_stages (body : Body) (depth : Nat) (state : State) :
    ∀ stage ∈ body.stages depth state, stage.expression.isFunction = false ∧
      stage.state.function = state.function ∧ ∀ opened ≤ depth,
        stage.expression ≠ .closeBlock opened := by
  induction body using Body.induction_by_kind generalizing depth state with
  | done => simp [stages]
  | act leaf rest ih =>
      rw [stages, List.forall_mem_cons]
      have behind := ih depth (state.lower leaf.expression).state
      rw [State.state_leaf] at behind ⊢
      exact ⟨by cases leaf <;> simp [Leaf.expression, Expression.isFunction], behind⟩
  | leave value rest ih =>
      rw [stages, List.forall_mem_cons]
      exact ⟨by simp [Expression.isFunction], ih depth state⟩
  | block kind test inner rest innerIh ih =>
      have within := innerIh (depth + 1) (kind.into state)
      have behind := ih depth ((inner.after (kind.into state)).outOfBlock state.blocks)
      simp only [State.outOfBlock_function, after_function, kind.into_function] at within behind
      rw [stages_tree]
      simp only [List.forall_mem_cons, List.forall_mem_append]
      refine ⟨?_, ?_, ?_, ?_, behind⟩
      · cases kind <;> simp [BlockKind.header, Expression.isFunction]
      · simp [Expression.isFunction]
      · intro stage member
        obtain ⟨plain, same, deeper⟩ := within stage member
        exact ⟨plain, same, fun opened below => deeper opened (Nat.le_succ_of_le below)⟩
      · -- The closer of the block is deeper than the body it stands in.
        refine ⟨rfl, by simp, fun opened below same => ?_⟩
        cases same
        omega

end Body

def Item.stages (state : Lowering.State) : Item → List Lowering.Stage
  | .exportLabel label => [⟨.exportLabel label, state⟩]
  | .importLabel label => [⟨.importLabel label, state⟩]
  | .function name parameters body =>
    let inside := state.intoFunction name parameters body.cells
    ⟨.function name parameters, Item.anticipated state (.function name parameters body)⟩ ::
      ⟨.openBlock 1, inside⟩ :: (body.stages 1 inside ++ [⟨.closeBlock 1, body.after inside⟩])

def Outline.stages (state : Lowering.State) : Outline → List Lowering.Stage
  | [] => []
  | item :: rest => item.stages state ++ Outline.stages (item.after state) rest

namespace Program

open Lowering (State Stage)

/-- Only the header of a function is lowered from another state than the one before. -/
theorem stagesFrom_cons {state next : State} {expression : Expression} (rest : List Expression)
    (plain : expression.isFunction = false) (step : (state.lower expression).state = next) :
    stagesFrom state (expression :: rest) = ⟨expression, state⟩ :: stagesFrom next rest := by
  have unchanged : anticipate state rest expression = state := by
    cases expression <;> first | rfl | cases plain
  rw [stagesFrom, unchanged, step]

theorem stagesFrom_body (body : Body) (depth : Nat) (state : State) (inside : state.function.isSome)
    (accepted : body.Accepted depth state) (rest : List Expression) :
    stagesFrom state (body.expressions depth ++ rest) =
      body.stages depth state ++ stagesFrom (body.after state) rest := by
  induction body using Body.induction_by_kind generalizing depth state rest with
  | done => rfl
  | act leaf more ih =>
      rw [Body.expressions, List.cons_append, stagesFrom_cons _ (by cases leaf <;> rfl) rfl,
        ih depth _ (by rw [State.state_leaf]; exact inside) accepted.act.2]
      rfl
  | leave value more ih =>
      obtain ⟨success, behind⟩ := accepted.leave
      rw [Body.expressions, List.cons_append,
        stagesFrom_cons _ rfl (State.state_returnValue inside success),
        ih depth state inside behind]
      rfl
  | block kind test inner more innerIh ih =>
      obtain ⟨success, entered, behind⟩ := accepted.tree
      have opened : ((kind.into state).lower (.openBlock (depth + 1))).state = kind.into state := by
        rw [kind.lower_openBlock]
        rfl
      have closed : ((inner.after (kind.into state)).lower (.closeBlock (depth + 1))).state =
          (inner.after (kind.into state)).outOfBlock state.blocks := by
        rw [kind.lower_closeBlock]
        rfl
      rw [kind.expressions_tree, Body.stages_tree, kind.after_tree]
      simp only [List.cons_append, List.append_assoc]
      rw [stagesFrom_cons _ (by cases kind <;> rfl) (BlockKind.state_header success),
        stagesFrom_cons _ rfl opened, innerIh (depth + 1) _ (by simpa using inside) entered,
        stagesFrom_cons _ rfl closed, ih depth _ (by simpa using inside) behind]

theorem stagesFrom_item (item : Item) (state : State) (accepted : item.check = .ok ())
    (rest : List Expression) :
    stagesFrom state (item.expressions ++ rest) =
      item.stages state ++ stagesFrom (item.after state) rest := by
  cases item with
  | exportLabel label => exact stagesFrom_cons rest rfl rfl
  | importLabel label => exact stagesFrom_cons rest rfl rfl
  | function name parameters body =>
      have counted : anticipate state
          (.openBlock 1 :: (body.expressions 1 ++ .closeBlock 1 :: rest))
            (.function name parameters) =
              Item.anticipated state (.function name parameters body) := by
        rw [anticipate, declaredCells_body]
        rfl
      have entered : ((Item.anticipated state (.function name parameters body)).lower
          (.function name parameters)).state = state.intoFunction name parameters body.cells := rfl
      have opened : ((state.intoFunction name parameters body.cells).lower (.openBlock 1)).state =
          state.intoFunction name parameters body.cells := rfl
      have closed : ((body.after (state.intoFunction name parameters body.cells)).lower
        (.closeBlock 1)).state =
          Item.after state (.function name parameters body) := by
        rw [State.lower, State.closeBlock, Body.after_blocks]
        rfl
      simp only [Item.expressions, List.cons_append, List.append_assoc, List.nil_append]
      rw [stagesFrom, counted, entered, stagesFrom_cons _ rfl opened,
        stagesFrom_body body 1 (state.intoFunction name parameters body.cells) rfl accepted,
        stagesFrom_cons _ rfl closed]
      simp [Item.stages]

theorem stagesFrom_outline (outline : Outline) (state : State) (accepted : outline.check = .ok ()) :
    stagesFrom state outline.expressions = outline.stages state := by
  induction outline generalizing state with
  | nil => rfl
  | cons item rest ih =>
      obtain ⟨first, others⟩ := List.forall_mem_cons.mp (Outline.check_eq_ok_iff.mp accepted)
      rw [Outline.expressions_cons, stagesFrom_item item state first,
        ih _ (Outline.check_eq_ok_iff.mpr others)]
      rfl

end Program

/-! Headers and their blocks. -/

namespace Lowering

/-- The stages behind a header start with the rest of its block. -/
structure Stage.Heads (stage : Stage) (behind : List Stage) : Prop where
  block : ∀ (kind : BlockKind) (condition : Condition), stage.expression = kind.header condition →
    ∃ depth test inner rest ordinal cells, (kind.tree test inner .done).Accepted depth stage.state ∧
      stage.state.Inside ordinal cells inner.cells ∧
      stage :: behind = (kind.tree test inner .done).stages depth stage.state ++ rest
  function : ∀ (name : String) (parameters : List Parameter),
    stage.expression = .function name parameters → ∃ state body rest,
      stage :: behind = (Item.function name parameters body).stages state ++ rest

def Nested (stages : List Stage) : Prop :=
  ∀ front stage behind, stages = front ++ stage :: behind → stage.Heads behind

theorem Stage.Heads.of_plain {stage : Stage} (behind : List Stage)
    (plain : stage.expression.isHeader = false) :
    stage.Heads behind where
  block kind condition same := by
    rw [same] at plain
    cases kind <;> cases plain
  function name parameters same := by
    rw [same] at plain
    cases plain

theorem Stage.Heads.append {stage : Stage} {behind : List Stage} (heads : stage.Heads behind)
    (more : List Stage) :
    stage.Heads (behind ++ more) where
  block kind condition same := by
    obtain ⟨depth, test, inner, rest, ordinal, cells, accepted, inside, split⟩ :=
      heads.block kind condition same
    refine ⟨depth, test, inner, rest ++ more, ordinal, cells, accepted, inside, ?_⟩
    rw [← List.cons_append, split, List.append_assoc]
  function name parameters same := by
    obtain ⟨state, body, rest, split⟩ := heads.function name parameters same
    refine ⟨state, body, rest ++ more, ?_⟩
    rw [← List.cons_append, split, List.append_assoc]

namespace Nested

theorem nil : Nested [] := by
  intro front stage behind placed
  simp at placed

theorem append {first second : List Stage} (start : Nested first) (rest : Nested second) :
    Nested (first ++ second) := by
  intro front stage behind placed
  rcases split_append placed with ⟨more, early, rfl⟩ | ⟨less, _, late⟩
  · exact (start front stage more early).append second
  · exact rest less stage behind late

theorem cons {stage : Stage} {behind : List Stage} (heads : stage.Heads behind)
    (rest : Nested behind) :
    Nested (stage :: behind) := by
  intro front other after placed
  cases front with
  | nil =>
      obtain ⟨rfl, rfl⟩ := List.cons.inj placed
      exact heads
  | cons first front =>
      obtain ⟨_, placed⟩ := List.cons.inj placed
      exact rest front other after placed

theorem cons_plain {stage : Stage} {behind : List Stage} (plain : stage.expression.isHeader = false)
    (rest : Nested behind) : Nested (stage :: behind) :=
  cons (.of_plain behind plain) rest

end Nested
end Lowering

section Nested

open Lowering (State Stage Nested)

theorem Body.nested (body : Body) (depth : Nat) (state : State) {ordinal cells : Nat}
    (inside : state.Inside ordinal cells body.cells) (accepted : body.Accepted depth state) :
    Nested (body.stages depth state) := by
  induction body using Body.induction_by_kind generalizing depth state with
  | done => exact .nil
  | act leaf rest ih =>
      apply Nested.cons_plain
      · cases leaf <;> rfl
      · exact ih depth _ inside.leaf accepted.act.2
  | leave value rest ih => exact .cons_plain rfl (ih depth state inside accepted.leave.2)
  | block kind test inner rest innerIh ih =>
      obtain ⟨_, entered, behind⟩ := accepted.tree
      rw [kind.cells_tree] at inside
      have within := innerIh (depth + 1) _ (inside.into kind).inner entered
      have after := ih depth _ (inside.into kind).behind behind
      rw [stages_tree]
      apply Nested.cons
      · constructor
        · intro other condition same
          obtain ⟨rfl, rfl⟩ := BlockKind.header_injective same
          refine ⟨depth, test, inner,
            rest.stages depth ((inner.after (kind.into state)).outOfBlock state.blocks), ordinal,
            cells, accepted.alone, inside.inner, ?_⟩
          simp only [stages_tree, stages, List.cons_append, List.append_assoc, List.nil_append]
        · intro name parameters same
          cases kind <;> cases same
      · exact .cons_plain rfl (within.append (.cons_plain rfl after))

theorem Item.nested (item : Item) (state : State) (accepted : item.check = .ok ()) :
    Nested (item.stages state) := by
  cases item with
  | exportLabel label => exact .cons_plain rfl .nil
  | importLabel label => exact .cons_plain rfl .nil
  | function name parameters body =>
      have within := body.nested 1 _ (state.inside_intoFunction name parameters body.cells) accepted
      apply Nested.cons
      · constructor
        · intro kind condition same
          cases kind <;> cases same
        · intro other others same
          cases same
          exact ⟨state, body, [], (List.append_nil _).symm⟩
      · exact .cons_plain rfl (within.append (.cons_plain rfl .nil))

theorem Outline.nested (outline : Outline) (state : State) (accepted : outline.check = .ok ()) :
    Nested (Outline.stages state outline) := by
  induction outline generalizing state with
  | nil => exact .nil
  | cons item rest ih =>
      obtain ⟨first, others⟩ := List.forall_mem_cons.mp (Outline.check_eq_ok_iff.mp accepted)
      exact (item.nested state first).append (ih _ (Outline.check_eq_ok_iff.mpr others))

namespace Outline

variable {outline : Outline}

theorem staged (accepted : outline.check = .ok ()) :
    Program.Staged [] outline.expressions .start (outline.lines .start) (outline.after .start) := by
  apply Program.staged_of_traceFrom rfl
  rw [Program.traceFrom_outline, accepted]
  rfl

theorem nested_stages (accepted : outline.check = .ok ()) :
    Nested (Program.stages outline.expressions) := by
  rw [Program.stages, Program.stagesFrom_outline outline .start accepted]
  exact outline.nested .start accepted

end Outline
end Nested

/-! Blocks that are found by their marks. -/

namespace Lowering

/-- A header, the mark behind it and the first mark that closes at the same depth. -/
structure Enclosure (stages : List Stage) where
  front : List Stage
  header : Stage
  opener : Stage
  inner : List Stage
  closer : Stage
  behind : List Stage
  depth : Nat
  placed : stages = front ++ header :: opener :: (inner ++ closer :: behind)
  opens : opener.expression = .openBlock depth
  closes : closer.expression = .closeBlock depth
  within : ∀ stage ∈ inner, stage.expression ≠ .closeBlock depth

namespace Enclosure

variable {stages : List Stage}

theorem mem_iff (block : Enclosure stages) {stage : Stage} :
    stage ∈ stages ↔ stage ∈ block.front ∨ stage = block.header ∨ stage = block.opener ∨
      stage ∈ block.inner ∨ stage = block.closer ∨ stage ∈ block.behind := by
  have same : stage ∈ stages ↔
      stage ∈ block.front ++ block.header :: block.opener ::
        (block.inner ++ block.closer :: block.behind) := by
    rw [← block.placed]
  simpa using same

theorem header_mem (block : Enclosure stages) : block.header ∈ stages :=
  block.mem_iff.mpr (by simp)

theorem closer_mem (block : Enclosure stages) : block.closer ∈ stages :=
  block.mem_iff.mpr (by simp)

def extend (block : Enclosure stages) (before after : List Stage) :
    Enclosure (before ++ (stages ++ after)) where
  front := before ++ block.front
  header := block.header
  opener := block.opener
  inner := block.inner
  closer := block.closer
  behind := block.behind ++ after
  depth := block.depth
  placed := by
    have placed := congrArg (fun stages => before ++ (stages ++ after)) block.placed
    simpa using placed
  opens := block.opens
  closes := block.closes
  within := block.within

/-- The marks of a block enclose what they enclose in the tree: both end at the first closer
of their depth. -/
theorem eq_of_split (block : Enclosure stages) {depth : Nat} {entered left : State} {body : Body}
    {rest : List Stage}
    (split : block.opener :: (block.inner ++ block.closer :: block.behind) =
      ⟨.openBlock depth, entered⟩ ::
        (body.stages depth entered ++ ⟨.closeBlock depth, left⟩ :: rest)) :
    block.opener = ⟨.openBlock depth, entered⟩ ∧ block.inner = body.stages depth entered ∧
      block.closer = ⟨.closeBlock depth, left⟩ := by
  obtain ⟨opener, split⟩ := List.cons.inj split
  have same : block.depth = depth := by
    have opens := block.opens
    rw [opener] at opens
    exact (Expression.openBlock.inj opens).symm
  obtain ⟨inner, closer, _⟩ :=
    split_unique (p := fun stage => stage.expression = .closeBlock depth) split
      (same ▸ block.closes) rfl (same ▸ block.within)
      (fun stage member => (body.forall_mem_stages _ _ stage member).2.2 _ (Nat.le_refl _))
  exact ⟨opener, inner, closer⟩

theorem exists_tree (block : Enclosure stages) (nested : Nested stages) {kind : BlockKind}
    {condition : Condition} (heads : block.header.expression = kind.header condition) :
    ∃ level test body ordinal cells, condition = test.skipping ∧
      (kind.tree test body .done).Accepted level block.header.state ∧
      block.header.state.Inside ordinal cells body.cells ∧
      block.opener = ⟨.openBlock (level + 1), kind.into block.header.state⟩ ∧
      block.inner = body.stages (level + 1) (kind.into block.header.state) ∧
      block.closer = ⟨.closeBlock (level + 1), body.after (kind.into block.header.state)⟩ := by
  obtain ⟨level, test, body, rest, ordinal, cells, accepted, inside, split⟩ :=
    (nested _ _ _ block.placed).block kind condition heads
  rw [Body.stages_tree] at split
  simp only [Body.stages, List.cons_append, List.append_assoc, List.nil_append] at split
  obtain ⟨header, split⟩ := List.cons.inj split
  have same : condition = test.skipping := by
    rw [header] at heads
    exact (BlockKind.header_injective heads).2.symm
  exact ⟨level, test, body, ordinal, cells, same, accepted, inside, block.eq_of_split split⟩

theorem exists_function (block : Enclosure stages) (nested : Nested stages) {name : String}
    {parameters : List Parameter} (heads : block.header.expression = .function name parameters) :
    ∃ state body, block.header.state = Item.anticipated state (.function name parameters body) ∧
      block.inner = body.stages 1 (state.intoFunction name parameters body.cells) ∧
      block.closer = ⟨.closeBlock 1,
        body.after (state.intoFunction name parameters body.cells)⟩ := by
  obtain ⟨state, body, rest, split⟩ := (nested _ _ _ block.placed).function name parameters heads
  simp only [Item.stages, List.cons_append, List.append_assoc, List.nil_append] at split
  obtain ⟨header, split⟩ := List.cons.inj split
  exact ⟨state, body, congrArg Stage.state header, (block.eq_of_split split).2⟩

end Enclosure
end Lowering

/-! Every header has such a block. -/

section Enclosures

open Lowering (State Stage Nested Enclosure)

def BlockKind.enclosure (kind : BlockKind) (test : Test) (inner rest : Body) (depth : Nat)
    (state : State) :
    Enclosure ((kind.tree test inner rest).stages depth state) where
  front := []
  header := ⟨kind.header test.skipping, state⟩
  opener := ⟨.openBlock (depth + 1), kind.into state⟩
  inner := inner.stages (depth + 1) (kind.into state)
  closer := ⟨.closeBlock (depth + 1), inner.after (kind.into state)⟩
  behind := rest.stages depth ((inner.after (kind.into state)).outOfBlock state.blocks)
  depth := depth + 1
  placed := Body.stages_tree kind test inner rest depth state
  opens := rfl
  closes := rfl
  within stage member := (inner.forall_mem_stages _ _ stage member).2.2 _ (Nat.le_refl _)

def Item.enclosure (name : String) (parameters : List Parameter) (body : Body) (state : State) :
    Enclosure ((Item.function name parameters body).stages state) where
  front := []
  header := ⟨.function name parameters, Item.anticipated state (.function name parameters body)⟩
  opener := ⟨.openBlock 1, state.intoFunction name parameters body.cells⟩
  inner := body.stages 1 (state.intoFunction name parameters body.cells)
  closer := ⟨.closeBlock 1, body.after (state.intoFunction name parameters body.cells)⟩
  behind := []
  depth := 1
  placed := rfl
  opens := rfl
  closes := rfl
  within stage member := (body.forall_mem_stages _ _ stage member).2.2 _ (Nat.le_refl _)

variable {stages front behind : List Stage} {header : Stage}

theorem Lowering.Nested.exists_block (nested : Nested stages)
    (placed : stages = front ++ header :: behind) {kind : BlockKind} {condition : Condition}
    (heads : header.expression = kind.header condition) :
    ∃ block : Enclosure stages, block.front = front ∧ block.header = header := by
  obtain ⟨depth, test, inner, rest, _, _, _, _, split⟩ :=
    (nested _ _ _ placed).block kind condition heads
  rw [split] at placed
  subst placed
  refine ⟨(kind.enclosure test inner .done depth header.state).extend front rest,
    List.append_nil front, ?_⟩
  rw [Body.stages_tree] at split
  exact (List.cons.inj split).1.symm

theorem Lowering.Nested.exists_function (nested : Nested stages)
    (placed : stages = front ++ header :: behind) {name : String} {parameters : List Parameter}
    (heads : header.expression = .function name parameters) :
    ∃ block : Enclosure stages, block.front = front ∧ block.header = header := by
  obtain ⟨state, body, rest, split⟩ := (nested _ _ _ placed).function name parameters heads
  rw [split] at placed
  subst placed
  exact ⟨(Item.enclosure name parameters body state).extend front rest, List.append_nil front,
    (List.cons.inj split).1.symm⟩

end Enclosures
end TinkaCompiler
