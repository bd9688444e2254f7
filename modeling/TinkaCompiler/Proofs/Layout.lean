import TinkaCompiler.Proofs.Outline
import TinkaCompiler.Proofs.Uses

/-! The layout of a program's code.

A line is an instruction together with the expression it was emitted for and the
state from which that expression was lowered. For an outline the lines and the
states follow the tree: lowering fails exactly if a check of the tree fails, and
otherwise gives the lines of the tree. -/

set_option autoImplicit false

namespace TinkaCompiler

/-! What stands at a position, when all that follows it is known. -/

section Positions

variable {α : Type} {items : List α} {position : Nat}

theorem getElem?_of_drop {item : α} {rest : List α} (placed : items.drop position = item :: rest) :
    items[position]? = some item := by
  rw [← List.head?_drop, placed, List.head?_cons]

theorem drop_of_append (first : List α) {rest : List α}
    (placed : items.drop position = first ++ rest) :
    items.drop (position + first.length) = rest := by
  rw [← List.drop_drop, placed, List.drop_left]

end Positions

namespace Lowering

structure Line where
  instruction : Instruction
  expression : Expression
  /-- The state from which the expression was lowered. -/
  state : State
  /-- Its place among the instructions of the expression. -/
  index : Nat
  deriving DecidableEq, Repr

namespace State

def numbered (state : State) (expression : Expression) (first : Nat) : List Instruction → List Line
  | [] => []
  | instruction :: rest =>
      ⟨instruction, expression, state, first⟩ :: state.numbered expression (first + 1) rest

def lines (state : State) (expression : Expression) : List Line :=
  state.numbered expression 0 (state.lower expression).code

theorem numbered_append (state : State) (expression : Expression) (first : Nat)
    (code more : List Instruction) :
    state.numbered expression first (code ++ more) =
      state.numbered expression first code ++
        state.numbered expression (first + code.length) more := by
  induction code generalizing first with
  | nil => rfl
  | cons instruction rest ih =>
      rw [List.cons_append, numbered, numbered, ih, List.cons_append,
        List.length_cons, Nat.add_assoc, Nat.add_comm 1]

theorem map_instruction_numbered (state : State) (expression : Expression) (first : Nat)
    (code : List Instruction) :
    (state.numbered expression first code).map (·.instruction) = code := by
  induction code generalizing first with
  | nil => rfl
  | cons instruction rest ih => rw [numbered, List.map_cons, ih]

@[simp]
theorem length_numbered (state : State) (expression : Expression) (first : Nat)
    (code : List Instruction) :
    (state.numbered expression first code).length = code.length := by
  have length := congrArg List.length (state.map_instruction_numbered expression first code)
  rwa [List.length_map] at length

@[simp]
theorem map_instruction_lines (state : State) (expression : Expression) :
    (state.lines expression).map (·.instruction) = (state.lower expression).code :=
  state.map_instruction_numbered expression 0 _

theorem code_of_mem_numbered {state : State} {expression : Expression} {first : Nat}
    {code : List Instruction} {line : Line} (member : line ∈ state.numbered expression first code) :
    ∃ before after, code = before ++ line.instruction :: after ∧
      line = ⟨line.instruction, expression, state, first + before.length⟩ := by
  induction code generalizing first with
  | nil => cases member
  | cons instruction rest ih =>
      cases member with
      | head => exact ⟨[], rest, rfl, rfl⟩
      | tail _ member =>
          obtain ⟨before, after, split, same⟩ := ih member
          refine ⟨instruction :: before, after, by rw [split]; rfl, same.trans ?_⟩
          rw [List.length_cons, Nat.add_assoc, Nat.add_comm 1]

theorem mem_numbered_of_code (state : State) (expression : Expression) (first : Nat)
    (instruction : Instruction) (before after : List Instruction) :
    ⟨instruction, expression, state, first + before.length⟩ ∈
      state.numbered expression first (before ++ instruction :: after) := by
  rw [numbered_append, numbered]
  exact List.mem_append_right _ List.mem_cons_self

def intoBranch (state : State) : State :=
  { state with
    blocks := .branch state.counters.branches :: state.blocks
    counters := { state.counters with branches := state.counters.branches + 1 } }

def intoLoop (state : State) : State :=
  { state with
    blocks :=
      .loopExit state.counters.loopExits :: .loopHead state.counters.loopHeads :: state.blocks
    counters := { state.counters with
      loopHeads := state.counters.loopHeads + 1
      loopExits := state.counters.loopExits + 1 } }

/-- After the closer of a branch or loop: the blocks are those from before its header. -/
def outOfBlock (state : State) (blocks : List Block) : State :=
  { state with blocks }

def intoFunction (state : State) (name : String) (parameters : List Parameter)
    (cells : Nat) : State :=
  { state with
    frame := .ofParameters parameters
    blocks := .function name (state.counters.functions + 1) :: state.blocks
    counters := { state.counters with functions := state.counters.functions + 1 }
    function := some (state.counters.functions + 1)
    functionCells := cells }

def outOfFunction (state : State) (blocks : List Block) : State :=
  { state with frame := .empty, blocks, function := none, functionCells := 0 }

@[simp]
theorem intoBranch_frame (state : State) : state.intoBranch.frame = state.frame :=
  rfl

@[simp]
theorem intoBranch_function (state : State) : state.intoBranch.function = state.function :=
  rfl

@[simp]
theorem intoLoop_frame (state : State) : state.intoLoop.frame = state.frame :=
  rfl

@[simp]
theorem intoLoop_function (state : State) : state.intoLoop.function = state.function :=
  rfl

@[simp]
theorem outOfBlock_frame (state : State) (blocks : List Block) :
    (state.outOfBlock blocks).frame = state.frame :=
  rfl

@[simp]
theorem outOfBlock_function (state : State) (blocks : List Block) :
    (state.outOfBlock blocks).function = state.function :=
  rfl

end State
end Lowering

namespace Program

open Lowering (State Line)

def traceFrom (state : State) : List Expression → Except GenerationError (List Line × State)
  | [] => .ok ([], state)
  | expression :: rest =>
    let state := anticipate state rest expression
    match (state.lower expression).error with
    | some error => .error error
    | none => do
      let (lines, last) ← traceFrom (state.lower expression).state rest
      .ok (state.lines expression ++ lines, last)

def trace (expressions : List Expression) : Except GenerationError (List Line × State) :=
  traceFrom .start expressions

def prepend (lines : List Line) (result : List Line × State) : List Line × State :=
  (lines ++ result.1, result.2)

theorem prepend_append (first second : List Line) (result : List Line × State) :
    prepend (first ++ second) result = prepend first (prepend second result) := by
  simp [prepend]

/-- The instructions of a program are those of its lines, and its end. -/
theorem generateFrom_eq_traceFrom (state : State) (expressions : List Expression) :
    generateFrom state expressions =
      traceFrom state expressions >>= fun (lines, last) =>
        last.finish >>= fun final => .ok (lines.map (·.instruction) ++ final) := by
  induction expressions generalizing state with
  | nil =>
      rw [generateFrom, traceFrom]
      simp only [bind, Except.bind]
      cases state.finish <;> rfl
  | cons expression rest ih =>
      rw [generateFrom, traceFrom]
      dsimp only
      cases ((anticipate state rest expression).lower expression).error with
      | some error => rfl
      | none =>
          dsimp only
          rw [ih]
          cases traceFrom ((anticipate state rest expression).lower expression).state rest with
          | error error => rfl
          | ok result =>
              obtain ⟨lines, last⟩ := result
              simp only [bind, Except.bind]
              cases last.finish with
              | error error => rfl
              | ok final => simp

end Program

/-- The frame after an expression. A function starts with its parameters alone. -/
def Frame.enter (frame : Frame) : Expression → Frame
  | .declare name _ length => frame.declare name length
  | .function _ parameters => .ofParameters parameters
  | _ => frame

theorem Frame.Covers.enter {frame : Frame} (covers : frame.Covers) (expression : Expression) :
    (frame.enter expression).Covers := by
  cases expression with
  | declare name pointer length => exact covers.declare name length
  | function name parameters => exact covers_ofParameters parameters
  | _ => exact covers

def Expression.isFunction : Expression → Bool
  | .function _ _ => true
  | _ => false

/-- Checks the uses of expressions, each in the frame that the expressions before it
leave. -/
def Frame.checkAll (frame : Frame) : List Expression → Except GenerationError Unit
  | [] => .ok ()
  | expression :: rest => do
    frame.check expression.uses
    (frame.enter expression).checkAll rest

theorem Frame.checkAll_append (frame : Frame) (first second : List Expression) :
    frame.checkAll (first ++ second) =
      frame.checkAll first >>= fun _ => (first.foldl Frame.enter frame).checkAll second := by
  induction first generalizing frame with
  | nil => rfl
  | cons expression rest ih =>
      simp only [List.cons_append, checkAll, ih, List.foldl_cons]
      cases frame.check expression.uses <;> rfl

namespace Lowering

def failure : Except GenerationError Unit → Option GenerationError
  | .ok _ => none
  | .error error => some error

theorem Step.error_ofEmission (emission : Emission Unit) (kept next : State) :
    (Step.ofEmission emission kept next).error = failure emission.verdict := by
  rw [← emission.outcome_eq_verdict]
  unfold Step.ofEmission
  cases emission.outcome <;> rfl

theorem Step.state_ofEmission {emission : Emission Unit} (kept next : State)
    (success : emission.verdict = .ok ()) : (Step.ofEmission emission kept next).state = next := by
  rw [← emission.outcome_eq_verdict] at success
  simp only [Step.ofEmission, success]

theorem Step.code_ofEmission (emission : Emission Unit) (kept next : State) :
    (Step.ofEmission emission kept next).code = emission.code := by
  unfold Step.ofEmission
  cases emission.outcome <;> rfl

namespace State

theorem error_branch (state : State) (condition : Condition) :
    (state.lower (.branch condition)).error =
      failure (state.frame.check (Expression.branch condition).uses) := by
  rw [lower, branch, Step.error_ofEmission, Frame.verdict_compare]
  rfl

theorem error_loop (state : State) (condition : Condition) :
    (state.lower (.loop condition)).error =
      failure (state.frame.check (Expression.loop condition).uses) := by
  rw [lower, loop, Step.error_ofEmission,
    Emission.verdict_bind _ fun _ => Frame.verdict_compare _ _]
  rfl

theorem error_returnValue (state : State) (value : Operand) :
    (state.lower (.returnValue value)).error =
      failure (state.frame.check (Expression.returnValue value).uses) := by
  rw [lower, returnValue, Step.error_ofEmission, Emission.verdict_bind (.ok ()) fun _ => rfl,
    Frame.verdict_load, Expression.uses]
  cases state.frame.check [⟨0, value⟩] <;> rfl

theorem error_leaf (state : State) (leaf : Leaf) :
    (state.lower leaf.expression).error = failure (state.frame.check leaf.expression.uses) := by
  cases leaf with
  | declare name pointer length => rfl
  | call function arguments destination =>
      rw [Leaf.expression, lower, Step.error_ofEmission, Frame.verdict_call]
      rfl
  | raw mnemonic operands =>
      rw [Leaf.expression, lower, Step.error_ofEmission, Frame.verdict_raw]
      rfl

theorem state_branch {state : State} {condition : Condition}
    (success : state.frame.check (Expression.branch condition).uses = .ok ()) :
    (state.lower (.branch condition)).state = state.intoBranch :=
  Step.state_ofEmission _ _ ((Frame.verdict_compare _ _).trans success)

theorem state_loop {state : State} {condition : Condition}
    (success : state.frame.check (Expression.loop condition).uses = .ok ()) :
    (state.lower (.loop condition)).state = state.intoLoop := by
  refine Step.state_ofEmission _ _ ?_
  rw [Emission.verdict_bind _ fun _ => Frame.verdict_compare _ _]
  exact success

theorem state_returnValue {state : State} {value : Operand} (inside : state.function.isSome)
    (success : state.frame.check (Expression.returnValue value).uses = .ok ()) :
    (state.lower (.returnValue value)).state = state := by
  rw [lower, returnValue, Step.state_ofEmission]
  · cases found : state.function with
    | none => simp [found] at inside
    | some ordinal =>
        cases state
        simp_all
  · rw [Emission.verdict_bind (.ok ()) fun _ => rfl, Frame.verdict_load]
    rw [Expression.uses] at success
    rw [success]
    rfl

theorem state_leaf (state : State) (leaf : Leaf) :
    (state.lower leaf.expression).state =
      { state with frame := state.frame.enter leaf.expression } := by
  cases leaf with
  | declare name pointer length => rfl
  | call function arguments destination =>
      rw [Leaf.expression, lower]
      unfold Step.ofEmission
      cases (state.frame.call function arguments destination).outcome <;> rfl
  | raw mnemonic operands =>
      rw [Leaf.expression, lower]
      unfold Step.ofEmission
      cases (state.frame.raw mnemonic operands).outcome <;> rfl

end State
end Lowering

def Leaf.cells : Leaf → Nat
  | .declare _ _ length => length
  | .call _ _ _ | .raw _ _ => 0

namespace Body

open Lowering (State Line)

def cells : Body → Nat
  | .done => 0
  | .act leaf rest => leaf.cells + rest.cells
  | .leave _ rest => rest.cells
  | .branch _ inner rest | .loop _ inner rest => inner.cells + rest.cells

def after (state : State) : Body → State
  | .done => state
  | .act leaf rest => rest.after (state.lower leaf.expression).state
  | .leave _ rest => rest.after state
  | .branch _ inner rest => rest.after ((inner.after state.intoBranch).outOfBlock state.blocks)
  | .loop _ inner rest => rest.after ((inner.after state.intoLoop).outOfBlock state.blocks)

def lines (depth : Nat) (state : State) : Body → List Line
  | .done => []
  | .act leaf rest => state.lines leaf.expression ++
      rest.lines depth (state.lower leaf.expression).state
  | .leave value rest => state.lines (.returnValue value) ++ rest.lines depth state
  | .branch test inner rest =>
    let closing := inner.after state.intoBranch
    state.lines (.branch test.skipping) ++ state.intoBranch.lines (.openBlock (depth + 1)) ++
      inner.lines (depth + 1) state.intoBranch ++ closing.lines (.closeBlock (depth + 1)) ++
      rest.lines depth (closing.outOfBlock state.blocks)
  | .loop test inner rest =>
    let closing := inner.after state.intoLoop
    state.lines (.loop test.skipping) ++ state.intoLoop.lines (.openBlock (depth + 1)) ++
      inner.lines (depth + 1) state.intoLoop ++ closing.lines (.closeBlock (depth + 1)) ++
      rest.lines depth (closing.outOfBlock state.blocks)

theorem after_eq (body : Body) (state : State) :
    ∃ frame counters, body.after state = { state with frame, counters } := by
  induction body generalizing state with
  | done => exact ⟨state.frame, state.counters, rfl⟩
  | act leaf rest ih =>
      obtain ⟨frame, counters, same⟩ := ih (state.lower leaf.expression).state
      rw [State.state_leaf] at same
      exact ⟨frame, counters, by rw [after, State.state_leaf, same]⟩
  | leave value rest ih => exact ih state
  | branch test inner rest innerEq ih =>
      obtain ⟨_, _, innerSame⟩ := innerEq state.intoBranch
      obtain ⟨frame, counters, same⟩ := ih ((inner.after state.intoBranch).outOfBlock state.blocks)
      rw [innerSame] at same
      exact ⟨frame, counters, by rw [after, innerSame, same]; rfl⟩
  | loop test inner rest innerEq ih =>
      obtain ⟨_, _, innerSame⟩ := innerEq state.intoLoop
      obtain ⟨frame, counters, same⟩ := ih ((inner.after state.intoLoop).outOfBlock state.blocks)
      rw [innerSame] at same
      exact ⟨frame, counters, by rw [after, innerSame, same]; rfl⟩

@[simp]
theorem after_blocks (body : Body) (state : State) : (body.after state).blocks = state.blocks := by
  obtain ⟨_, _, same⟩ := body.after_eq state
  rw [same]

@[simp]
theorem after_function (body : Body) (state : State) :
    (body.after state).function = state.function := by
  obtain ⟨_, _, same⟩ := body.after_eq state
  rw [same]

@[simp]
theorem after_functionCells (body : Body) (state : State) :
    (body.after state).functionCells = state.functionCells := by
  obtain ⟨_, _, same⟩ := body.after_eq state
  rw [same]

@[simp]
theorem after_returnedOutside (body : Body) (state : State) :
    (body.after state).returnedOutside = state.returnedOutside := by
  obtain ⟨_, _, same⟩ := body.after_eq state
  rw [same]

theorem after_frame (body : Body) (state : State) (depth : Nat) :
    (body.after state).frame = (body.expressions depth).foldl Frame.enter state.frame := by
  induction body generalizing state depth with
  | done => rfl
  | act leaf rest ih => rw [after, ih _ depth, State.state_leaf, expressions, List.foldl_cons]
  | leave value rest ih => exact ih state depth
  | branch test inner rest innerFrame ih =>
      rw [after, ih _ depth, State.outOfBlock_frame, innerFrame _ (depth + 1), expressions]
      simp [Frame.enter]
  | loop test inner rest innerFrame ih =>
      rw [after, ih _ depth, State.outOfBlock_frame, innerFrame _ (depth + 1), expressions]
      simp [Frame.enter]

end Body

namespace Program

open Lowering (State Line failure)

theorem map_prepend (first second : List Line)
    (result : Except GenerationError (List Line × State)) :
    (result.map (prepend second)).map (prepend first) = result.map (prepend (first ++ second)) := by
  cases result with
  | error error => rfl
  | ok value => exact congrArg Except.ok (prepend_append first second value).symm

theorem map_bind {checked : Except GenerationError Unit}
    {result : Except GenerationError (List Line × State)} (lines : List Line) :
    (checked >>= fun _ => result).map (prepend lines) = checked >>= fun _ =>
      result.map (prepend lines) := by
  cases checked <;> rfl

theorem traceFrom_cons {state counted : State} {expression : Expression} {rest : List Expression}
    {checked : Except GenerationError Unit}
    (error : (counted.lower expression).error = failure checked)
    (anticipated : anticipate state rest expression = counted) :
    traceFrom state (expression :: rest) = checked >>= fun _ =>
      (traceFrom (counted.lower expression).state rest).map
        (prepend (counted.lines expression)) := by
  rw [traceFrom, anticipated]
  simp only [error]
  cases checked with
  | error error => rfl
  | ok _ =>
      cases traceFrom (counted.lower expression).state rest <;> rfl

theorem traceFrom_cons_of_done {state counted next : State} {expression : Expression}
    {rest : List Expression} {code : List Instruction}
    (step : counted.lower expression = .done next code)
    (anticipated : anticipate state rest expression = counted) :
    traceFrom state (expression :: rest) =
      (traceFrom next rest).map (prepend (counted.lines expression)) := by
  have succeeds : (counted.lower expression).error = failure (.ok ()) := by rw [step]; rfl
  rw [traceFrom_cons succeeds anticipated, step]
  rfl

theorem traceFrom_block {inner : Body} {depth : Nat} {into behind : State} {rest : List Expression}
    {opening closing : List Instruction}
    (opened : into.lower (.openBlock depth) = .done into opening)
    (closed : (inner.after into).lower (.closeBlock depth) = .done behind closing)
    (innerTrace : ∀ tail, traceFrom into (inner.expressions depth ++ tail) =
      into.frame.checkAll (inner.expressions depth) >>= fun _ =>
        (traceFrom (inner.after into) tail).map (prepend (inner.lines depth into))) :
    traceFrom into (.openBlock depth :: (inner.expressions depth ++ .closeBlock depth :: rest)) =
      into.frame.checkAll (inner.expressions depth) >>= fun _ =>
        (traceFrom behind rest).map
          (prepend (into.lines (.openBlock depth) ++
            (inner.lines depth into ++ (inner.after into).lines (.closeBlock depth)))) := by
  rw [traceFrom_cons_of_done opened rfl, innerTrace, traceFrom_cons_of_done closed rfl]
  simp only [map_bind, map_prepend]

theorem checkAll_block {header : Expression} (frame : Frame) (depth : Nat)
    (within rest : List Expression) (unchanged : frame.enter header = frame) :
    frame.checkAll (header :: .openBlock depth :: (within ++ .closeBlock depth :: rest)) =
      frame.check header.uses >>= fun _ => frame.checkAll within >>= fun _ =>
        (within.foldl Frame.enter frame).checkAll rest := by
  rw [Frame.checkAll, unchanged, Frame.checkAll, Frame.checkAll_append]
  rfl

/-- Tracing a body checks its expressions and gives its lines. -/
theorem traceFrom_body (body : Body) (depth : Nat) (state : State) (inside : state.function.isSome)
    (rest : List Expression) :
    traceFrom state (body.expressions depth ++ rest) =
      state.frame.checkAll (body.expressions depth) >>= fun _ =>
        (traceFrom (body.after state) rest).map (prepend (body.lines depth state)) := by
  -- What follows the body is arbitrary, because a block is followed by its closer and by
  -- the statements of the body around it.
  induction body generalizing depth state rest with
  | done =>
      simp only [Body.expressions, Body.after, Body.lines, Frame.checkAll, List.nil_append,
        bind, Except.bind]
      cases traceFrom state rest <;> rfl
  | act leaf more ih =>
      have unchanged : anticipate state (more.expressions depth ++ rest) leaf.expression =
          state := by
        cases leaf <;> rfl
      rw [Body.expressions, List.cons_append, traceFrom_cons (state.error_leaf leaf) unchanged,
        ih depth _ (by rw [State.state_leaf]; exact inside), map_bind, map_prepend, Frame.checkAll]
      rw [State.state_leaf, Body.after, Body.lines, State.state_leaf]
      cases state.frame.check leaf.expression.uses <;> rfl
  | leave value more ih =>
      rw [Body.expressions, List.cons_append, traceFrom_cons (state.error_returnValue value) rfl,
        Frame.checkAll]
      cases success : state.frame.check (Expression.returnValue value).uses with
      | error error => rfl
      | ok _ =>
          -- Inside a function a return leaves the state as it is.
          rw [State.state_returnValue inside success, ih depth state inside, map_bind, map_prepend]
          rfl
  | branch test inner more innerTrace ih =>
      have closed : (inner.after state.intoBranch).lower (.closeBlock (depth + 1)) =
          .done ((inner.after state.intoBranch).outOfBlock state.blocks)
            [.define (.branchEnd state.counters.branches)] := by
        rw [State.lower, State.closeBlock, Body.after_blocks]
        rfl
      simp only [Body.expressions, List.cons_append, List.append_assoc]
      rw [checkAll_block _ _ _ _ rfl, traceFrom_cons (state.error_branch test.skipping) rfl]
      cases success : state.frame.check (Expression.branch test.skipping).uses with
      | error error => rfl
      | ok _ =>
          -- What follows the block is checked in the frame that the block leaves.
          rw [State.state_branch success,
            traceFrom_block rfl closed (innerTrace (depth + 1) state.intoBranch inside),
            ih depth _ (by simpa using inside), State.outOfBlock_frame,
            Body.after_frame inner state.intoBranch (depth + 1), State.intoBranch_frame]
          simp only [map_bind, map_prepend, Body.lines, Body.after, List.append_assoc]
          cases state.frame.checkAll (inner.expressions (depth + 1)) <;> rfl
  | loop test inner more innerTrace ih =>
      have closed : (inner.after state.intoLoop).lower (.closeBlock (depth + 1)) =
          .done ((inner.after state.intoLoop).outOfBlock state.blocks)
            [.jump (.loopHead state.counters.loopHeads),
              .define (.loopExit state.counters.loopExits)] := by
        rw [State.lower, State.closeBlock, Body.after_blocks]
        rfl
      simp only [Body.expressions, List.cons_append, List.append_assoc]
      rw [checkAll_block _ _ _ _ rfl, traceFrom_cons (state.error_loop test.skipping) rfl]
      cases success : state.frame.check (Expression.loop test.skipping).uses with
      | error error => rfl
      | ok _ =>
          rw [State.state_loop success,
            traceFrom_block rfl closed (innerTrace (depth + 1) state.intoLoop inside),
            ih depth _ (by simpa using inside), State.outOfBlock_frame,
            Body.after_frame inner state.intoLoop (depth + 1), State.intoLoop_frame]
          simp only [map_bind, map_prepend, Body.lines, Body.after, List.append_assoc]
          cases state.frame.checkAll (inner.expressions (depth + 1)) <;> rfl

end Program

/-! Bodies whose checks succeed, taken apart as the lowering goes through them. -/

namespace Body

open Lowering (State)

def Accepted (depth : Nat) (state : State) (body : Body) : Prop :=
  state.frame.checkAll (body.expressions depth) = .ok ()

variable {depth : Nat} {state : State} {test : Test} {inner rest : Body}

theorem Accepted.act {leaf : Leaf} (accepted : (Body.act leaf rest).Accepted depth state) :
    state.frame.check leaf.expression.uses = .ok () ∧
      rest.Accepted depth (state.lower leaf.expression).state := by
  obtain ⟨checked, others⟩ := checks_eq_ok.mp accepted
  refine ⟨checked, ?_⟩
  rw [Accepted, State.state_leaf]
  exact others

theorem Accepted.leave {value : Operand} (accepted : (Body.leave value rest).Accepted depth state) :
    state.frame.check (Expression.returnValue value).uses = .ok () ∧ rest.Accepted depth state := by
  exact checks_eq_ok.mp accepted

theorem check_block_eq_ok {header : Expression} {frame : Frame} {within behind : List Expression}
    (unchanged : frame.enter header = frame)
    (accepted : frame.checkAll
      (header :: .openBlock depth :: (within ++ .closeBlock depth :: behind)) = .ok ()) :
    frame.check header.uses = .ok () ∧ frame.checkAll within = .ok () ∧
      (within.foldl Frame.enter frame).checkAll behind = .ok () := by
  rw [Program.checkAll_block _ _ _ _ unchanged] at accepted
  obtain ⟨headed, inside⟩ := checks_eq_ok.mp accepted
  exact ⟨headed, checks_eq_ok.mp inside⟩

theorem Accepted.branch (accepted : (Body.branch test inner rest).Accepted depth state) :
    state.frame.check (Expression.branch test.skipping).uses = .ok () ∧
      inner.Accepted (depth + 1) state.intoBranch ∧
      rest.Accepted depth ((inner.after state.intoBranch).outOfBlock state.blocks) := by
  obtain ⟨headed, entered, left⟩ := check_block_eq_ok rfl accepted
  refine ⟨headed, entered, ?_⟩
  rw [Accepted, State.outOfBlock_frame, after_frame inner _ (depth + 1)]
  exact left

theorem Accepted.loop (accepted : (Body.loop test inner rest).Accepted depth state) :
    state.frame.check (Expression.loop test.skipping).uses = .ok () ∧
      inner.Accepted (depth + 1) state.intoLoop ∧
      rest.Accepted depth ((inner.after state.intoLoop).outOfBlock state.blocks) := by
  obtain ⟨headed, entered, left⟩ := check_block_eq_ok rfl accepted
  refine ⟨headed, entered, ?_⟩
  rw [Accepted, State.outOfBlock_frame, after_frame inner _ (depth + 1)]
  exact left

end Body

namespace Program

open Lowering (State Line)

/-! Cells of a function. Blocks inside the body close at a greater depth, so the
count goes on to the closer of the body itself. -/

theorem cellsUntilClose_leaf (opened : Nat) (leaf : Leaf) (rest : List Expression) :
    cellsUntilClose opened (leaf.expression :: rest) =
      leaf.cells + cellsUntilClose opened rest := by
  cases leaf <;> simp [Leaf.expression, cellsUntilClose, Leaf.cells]

theorem cellsUntilClose_body (body : Body) {opened depth : Nat} (below : opened ≤ depth)
    (rest : List Expression) :
    cellsUntilClose opened (body.expressions depth ++ rest) =
      body.cells + cellsUntilClose opened rest := by
  induction body generalizing depth rest with
  | done => simp [Body.expressions, Body.cells]
  | act leaf more ih =>
      rw [Body.expressions, List.cons_append, cellsUntilClose_leaf, ih below,
        Body.cells, Nat.add_assoc]
  | leave value more ih => exact ih below rest
  | branch test inner more innerCells ih =>
      have deeper : depth + 1 ≠ opened := by omega
      simp only [Body.expressions, List.cons_append, List.append_assoc, cellsUntilClose]
      rw [innerCells (by omega), cellsUntilClose, if_neg deeper, ih below,
        Body.cells, Nat.add_assoc]
  | loop test inner more innerCells ih =>
      have deeper : depth + 1 ≠ opened := by omega
      simp only [Body.expressions, List.cons_append, List.append_assoc, cellsUntilClose]
      rw [innerCells (by omega), cellsUntilClose, if_neg deeper, ih below,
        Body.cells, Nat.add_assoc]

theorem declaredCells_body (body : Body) (rest : List Expression) :
    declaredCells (.openBlock 1 :: (body.expressions 1 ++ .closeBlock 1 :: rest)) = body.cells := by
  rw [declaredCells, cellsUntilClose_body body (Nat.le_refl 1), cellsUntilClose,
    if_pos rfl, Nat.add_zero]

end Program

namespace Item

open Lowering (State Line)

def check : Item → Except GenerationError Unit
  | .exportLabel _ | .importLabel _ => .ok ()
  | .function _ parameters body => (Frame.ofParameters parameters).checkAll (body.expressions 1)

def after (state : State) : Item → State
  | .exportLabel _ | .importLabel _ => state
  | .function name parameters body =>
    (body.after (state.intoFunction name parameters body.cells)).outOfFunction state.blocks

/-- The state from which an item is lowered: the cells of a function are counted in
advance. -/
def anticipated (state : State) : Item → State
  | .exportLabel _ | .importLabel _ => state
  | .function _ _ body => { state with functionCells := body.cells }

def lines (state : State) : Item → List Line
  | .exportLabel label => state.lines (.exportLabel label)
  | .importLabel label => state.lines (.importLabel label)
  | .function name parameters body =>
    let inside := state.intoFunction name parameters body.cells
    (Item.anticipated state (.function name parameters body)).lines (.function name parameters) ++
      inside.lines (.openBlock 1) ++ body.lines 1 inside ++
      (body.after inside).lines (.closeBlock 1)

end Item

namespace Outline

open Lowering (State Line)

def check : Outline → Except GenerationError Unit
  | [] => .ok ()
  | item :: rest => do
    item.check
    check rest

theorem check_eq_ok_iff {outline : Outline} :
    outline.check = .ok () ↔ ∀ item ∈ outline, item.check = .ok () := by
  induction outline with
  | nil => simp [check]
  | cons item rest ih =>
      rw [List.forall_mem_cons, ← ih, check, checks_eq_ok]

def after (state : State) : Outline → State
  | [] => state
  | item :: rest => after (item.after state) rest

def lines (state : State) : Outline → List Line
  | [] => []
  | item :: rest => item.lines state ++ lines (item.after state) rest

theorem lines_append (state : State) (first second : Outline) :
    lines state (first ++ second) = lines state first ++ lines (after state first) second := by
  induction first generalizing state with
  | nil => rfl
  | cons item rest ih => rw [List.cons_append, lines, ih, lines, List.append_assoc, after]

end Outline

namespace Program

open Lowering (State Line)

theorem traceFrom_item (item : Item) (state : State) (rest : List Expression) :
    traceFrom state (item.expressions ++ rest) =
      item.check >>= fun _ => (traceFrom (item.after state) rest).map
        (prepend (item.lines state)) := by
  cases item with
  | exportLabel label => exact traceFrom_cons_of_done rfl rfl
  | importLabel label => exact traceFrom_cons_of_done rfl rfl
  | function name parameters body =>
      -- Looking ahead from the header finds the cells of this body and no others.
      have counted : anticipate state
          (.openBlock 1 :: (body.expressions 1 ++ .closeBlock 1 :: rest))
            (.function name parameters) =
              Item.anticipated state (.function name parameters body) := by
        rw [anticipate, declaredCells_body]
        rfl
      have entered : (Item.anticipated state (.function name parameters body)).lower
          (.function name parameters) =
            .done (state.intoFunction name parameters body.cells) [.define (.named name)] := rfl
      have closed : (body.after (state.intoFunction name parameters body.cells)).lower
          (.closeBlock 1) =
            .done
              ((body.after (state.intoFunction name parameters body.cells)).outOfFunction
                state.blocks)
              ((body.after (state.intoFunction name parameters body.cells)).leaveFunction
                (state.counters.functions + 1)) := by
        rw [State.lower, State.closeBlock, Body.after_blocks]
        rfl
      simp only [Item.expressions, List.cons_append, List.append_assoc, List.nil_append]
      rw [traceFrom_cons_of_done entered counted,
        traceFrom_block rfl closed (traceFrom_body body 1 _ rfl)]
      simp only [map_bind, map_prepend, Item.lines, List.append_assoc]
      rfl

theorem traceFrom_outline (outline : Outline) (state : State) :
    traceFrom state outline.expressions =
      outline.check >>= fun _ => .ok (outline.lines state, outline.after state) := by
  induction outline generalizing state with
  | nil => rfl
  | cons item rest ih =>
      rw [Outline.expressions_cons, traceFrom_item, ih, map_bind, Outline.check]
      cases item.check <;> rfl

end Program

namespace Lowering

/-- Outside all blocks, with nothing left over from earlier functions. -/
structure State.Idle (state : State) : Prop where
  frame : state.frame = .empty
  blocks : state.blocks = []
  function : state.function = none
  returnedOutside : state.returnedOutside = false

theorem State.start_idle : State.start.Idle :=
  ⟨rfl, rfl, rfl, rfl⟩

theorem State.Idle.finish {state : State} (idle : state.Idle) : state.finish = .ok [] := by
  simp [State.finish, idle.blocks, idle.returnedOutside]

theorem State.Idle.after_item {state : State} (idle : state.Idle) (item : Item) :
    (item.after state).Idle := by
  cases item with
  | exportLabel label => exact idle
  | importLabel label => exact idle
  | function name parameters body =>
      refine ⟨rfl, idle.blocks, rfl, ?_⟩
      exact (body.after_returnedOutside _).trans idle.returnedOutside

theorem State.Idle.after_outline {state : State} (idle : state.Idle) (outline : Outline) :
    (outline.after state).Idle := by
  induction outline generalizing state with
  | nil => exact idle
  | cons item rest ih => exact ih (idle.after_item item)

end Lowering

namespace Program

open Lowering (State Line)

theorem trace_outline (outline : Outline) :
    trace outline.expressions = outline.check >>= fun _ =>
      .ok (outline.lines .start, outline.after .start) :=
  traceFrom_outline outline .start

/-- The instructions of an outline, or the first check that fails. -/
theorem generate_outline (outline : Outline) :
    generate outline.expressions =
      outline.check >>= fun _ => .ok ((outline.lines .start).map (·.instruction)) := by
  have ended := (State.start_idle.after_outline outline).finish
  rw [generate, generateFrom_eq_traceFrom, traceFrom_outline]
  cases outline.check with
  | error error => rfl
  | ok _ => simp [bind, Except.bind, ended]

end Program
end TinkaCompiler
