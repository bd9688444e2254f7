import TinkaCompiler.Proofs.Labels
import TinkaCompiler.Proofs.Linking

/-! The height of the stack along the lines of a program.

Every line has a level: the bytes that its function has taken when the line is
reached. Levels follow the code from line to line and across jumps, so a path
through a function finds the stack at the level of each line it reaches, whichever
way it came, and finds it at level zero where the function jumps back. -/

set_option autoImplicit false

namespace TinkaCompiler

/-! Control flow. Jumps go to every line that defines a label of the same text. -/

namespace ControlFlow

inductive Edge (code : List Instruction) : Nat → Nat → Prop where
  | next {position : Nat} {instruction : Instruction} :
      code[position]? = some instruction → instruction.fallsThrough →
        Edge code position (position + 1)
  | jump {position destination : Nat} {instruction : Instruction} {label found : Label} :
      code[position]? = some instruction → instruction.target? = some label →
      code[destination]? = some (.define found) → found.render = label.render →
      Edge code position destination

/-- A path to a position, with the bytes by which the stack has grown on it. -/
inductive Path (code : List Instruction) (start : Nat) : Nat → Int → Prop where
  | here : Path code start start 0
  | step {position destination : Nat} {grown : Int} {instruction : Instruction} :
      Path code start position grown → code[position]? = some instruction →
      Edge code position destination →
      Path code start destination (grown + instruction.growth)

end ControlFlow

def Frame.level (frame : Frame) : Int :=
  ((frame.height : Int) - frame.callerCells) * cellSize

namespace Lowering

open Instruction (totalGrowth)

def Line.level (line : Line) : Int :=
  line.state.frame.level + totalGrowth ((line.state.lower line.expression).code.take line.index)

namespace State

variable {state : State} {expression : Expression}

theorem code_of_mem_lines {line : Line} (member : line ∈ state.lines expression) :
    ∃ before after, (state.lower expression).code = before ++ line.instruction :: after ∧
      line = ⟨line.instruction, expression, state, before.length⟩ := by
  obtain ⟨before, after, split, same⟩ := code_of_mem_numbered member
  exact ⟨before, after, split, by rwa [Nat.zero_add] at same⟩

theorem mem_lines_of_code {instruction : Instruction} {before after : List Instruction}
    (code : (state.lower expression).code = before ++ instruction :: after) :
    ⟨instruction, expression, state, before.length⟩ ∈ state.lines expression := by
  have member := state.mem_numbered_of_code expression 0 instruction before after
  rwa [Nat.zero_add, ← code] at member

theorem level_of_code {instruction : Instruction} {before after : List Instruction}
    (code : (state.lower expression).code = before ++ instruction :: after) :
    (Line.mk instruction expression state before.length).level =
      state.frame.level + totalGrowth before := by
  simp [Line.level, code]

end State

/-- Lines in a row. The level after a line is known if control may fall through. -/
inductive Flow : Int → List Line → Int → Prop where
  | nil {level : Int} : Flow level [] level
  | cons {line : Line} {rest : List Line} {next last : Int} :
      (line.instruction.fallsThrough → next = line.level + line.instruction.growth) →
      Flow next rest last →
      Flow line.level (line :: rest) last

namespace Flow

theorem append {first middle last : Int} {lines others : List Line}
    (start : Flow first lines middle) (rest : Flow middle others last) :
    Flow first (lines ++ others) last := by
  induction start with
  | nil => exact rest
  | cons falls _ ih => exact .cons falls (ih rest)

theorem level_head {first last : Int} {line : Line} {rest : List Line}
    (flow : Flow first (line :: rest) last) :
    line.level = first := by
  cases flow
  rfl

/-- After a jump the level is free. -/
theorem redirect {first last : Int} {lines : List Line} {line : Line}
    (flow : Flow first (lines ++ [line]) last) (jumps : line.instruction.fallsThrough = false)
    (other : Int) : Flow first (lines ++ [line]) other := by
  induction lines generalizing first with
  | nil =>
      cases flow with
      | cons falls _ =>
          exact .cons (fun fallsThrough => absurd (jumps.symm.trans fallsThrough) (by decide)) .nil
  | cons head rest ih =>
      cases flow with
      | cons falls flow => exact .cons falls (ih flow)

theorem next {first last : Int} {lines : List Line} (flow : Flow first lines last) {position : Nat}
    {line following : Line} (here : lines[position]? = some line)
    (there : lines[position + 1]? = some following) (falls : line.instruction.fallsThrough) :
    following.level = line.level + line.instruction.growth := by
  induction flow generalizing position with
  | nil => simp at here
  | @cons head rest middle last step flow ih =>
      cases position with
      | zero =>
          cases Option.some.inj here
          cases flow with
          | nil => simp at there
          | cons _ _ =>
              cases Option.some.inj there
              exact step falls
      | succ position => exact ih here there

end Flow

theorem State.flow_suffix {state : State} {expression : Expression} (before : List Instruction)
    {rest : List Instruction} (code : (state.lower expression).code = before ++ rest) :
    Flow (state.frame.level + totalGrowth before) (state.numbered expression before.length rest)
      (state.frame.level + totalGrowth (before ++ rest)) := by
  induction rest generalizing before with
  | nil =>
      rw [List.append_nil]
      exact .nil
  | cons instruction rest ih =>
      have behind := ih (before ++ [instruction]) (by simpa using code)
      have level := level_of_code code
      rw [List.append_assoc, List.singleton_append, List.length_append,
        List.length_singleton] at behind
      rw [← level, numbered]
      refine .cons (fun _ => ?_) behind
      rw [level]
      simp [Int.add_assoc]

theorem State.flow_lines (state : State) (expression : Expression) :
    Flow state.frame.level (state.lines expression)
      (state.frame.level + totalGrowth (state.lower expression).code) := by
  have flow := @State.flow_suffix state expression [] _ rfl
  rwa [Instruction.totalGrowth_nil, Int.add_zero] at flow

end Lowering

/-! Levels and the cells of a body. -/

section Levels

open Lowering (State Line Flow)
open Instruction (totalGrowth)

theorem Frame.height_enter (frame : Frame) (leaf : Leaf) :
    (frame.enter leaf.expression).height = frame.height + leaf.cells := by
  cases leaf <;> rfl

theorem Frame.callerCells_enter (frame : Frame) (leaf : Leaf) :
    (frame.enter leaf.expression).callerCells = frame.callerCells := by
  cases leaf <;> rfl

@[simp]
theorem Body.height_after (body : Body) (state : State) :
    (body.after state).frame.height = state.frame.height + body.cells := by
  induction body generalizing state with
  | done => rfl
  | act leaf rest ih => rw [after, ih, State.state_leaf, Frame.height_enter, cells, Nat.add_assoc]
  | leave value rest ih => exact ih state
  | branch test inner rest innerHeight ih =>
      rw [after, ih, State.outOfBlock_frame, innerHeight, State.intoBranch_frame,
        cells, Nat.add_assoc]
  | loop test inner rest innerHeight ih =>
      rw [after, ih, State.outOfBlock_frame, innerHeight, State.intoLoop_frame,
        cells, Nat.add_assoc]

@[simp]
theorem Body.callerCells_after (body : Body) (state : State) :
    (body.after state).frame.callerCells = state.frame.callerCells := by
  induction body generalizing state with
  | done => rfl
  | act leaf rest ih => rw [after, ih, State.state_leaf, Frame.callerCells_enter]
  | leave value rest ih => exact ih state
  | branch test inner rest innerSame ih =>
      rw [after, ih, State.outOfBlock_frame, innerSame, State.intoBranch_frame]
  | loop test inner rest innerSame ih =>
      rw [after, ih, State.outOfBlock_frame, innerSame, State.intoLoop_frame]

theorem Body.level_after (body : Body) (state : State) :
    (body.after state).frame.level = state.frame.level + body.cells * cellSize := by
  rw [Frame.level, Frame.level, height_after, callerCells_after, ← Int.add_mul]
  congr 1
  omega

theorem Frame.level_enter (frame : Frame) (leaf : Leaf) :
    (frame.enter leaf.expression).level = frame.level + leaf.cells * cellSize := by
  rw [level, level, height_enter, callerCells_enter, ← Int.add_mul]
  congr 1
  omega

theorem Frame.level_eq_locals {frame : Frame} (covers : frame.callerCells ≤ frame.height) :
    frame.level = frame.locals * cellSize := by
  rw [level, locals, Int.natCast_sub covers]

theorem Lowering.State.growth_leaf {state : State} {leaf : Leaf}
    (success : state.frame.check leaf.expression.uses = .ok ()) :
    totalGrowth (state.lower leaf.expression).code = leaf.cells * cellSize := by
  cases leaf with
  | declare name pointer length =>
      simp [Leaf.expression, lower, Step.done, Leaf.cells, Instruction.growth]
  | call function arguments destination =>
      rw [Leaf.expression, lower, Step.code_ofEmission]
      refine ((state.frame.straight_call function arguments destination).growth () ?_).trans
        (by simp [Leaf.cells])
      rw [Emission.outcome_eq_verdict, Frame.verdict_call]
      exact success
  | raw mnemonic operands =>
      rw [Leaf.expression, lower, Step.code_ofEmission]
      refine ((state.frame.straight_raw mnemonic operands).growth () ?_).trans
        (by simp [Leaf.cells])
      rw [Emission.outcome_eq_verdict, Frame.verdict_raw]
      exact success

theorem Lowering.State.growth_compare {state : State} {condition : Condition}
    (success : state.frame.check [⟨0, condition.left⟩, ⟨0, condition.right⟩] = .ok ()) :
    totalGrowth (state.frame.compare condition).code = 0 := by
  refine (state.frame.straight_compare condition).growth () ?_
  rw [Emission.outcome_eq_verdict, Frame.verdict_compare]
  exact success

theorem Lowering.State.flow_level (state : State) {expression : Expression}
    {code : List Instruction} (emitted : (state.lower expression).code = code)
    (balanced : totalGrowth code = 0) :
    Flow state.frame.level (state.lines expression) state.frame.level := by
  have flow := state.flow_lines expression
  rwa [emitted, balanced, Int.add_zero] at flow

theorem Lowering.State.flow_jump (state : State) {expression : Expression}
    {before : List Instruction} {instruction : Instruction}
    (emitted : (state.lower expression).code = before ++ [instruction])
    (jumps : instruction.fallsThrough = false) (level : Int) :
    Flow state.frame.level (state.lines expression) level := by
  have flow := state.flow_lines expression
  rw [lines, emitted, numbered_append] at flow ⊢
  exact flow.redirect jumps level

theorem Body.flow (body : Body) (depth : Nat) (state : State) {ordinal : Nat}
    (inside : state.function = some ordinal) (accepted : body.Accepted depth state) :
    Flow state.frame.level (body.lines depth state) (body.after state).frame.level := by
  induction body generalizing depth state with
  | done => exact .nil
  | act leaf rest ih =>
      obtain ⟨success, behind⟩ := accepted.act
      have start := state.flow_lines leaf.expression
      rw [State.state_leaf] at behind
      rw [State.growth_leaf success, ← Frame.level_enter] at start
      rw [lines, after, State.state_leaf]
      refine start.append (ih depth _ ?_ behind)
      exact inside
  | leave value rest ih =>
      obtain ⟨success, behind⟩ := accepted.leave
      obtain ⟨loaded, _, _, _, code⟩ := State.code_returnValue success
      rw [State.returnJump_inside inside, ← List.append_assoc] at code
      exact (state.flow_jump code rfl _).append (ih depth state inside behind)
  | branch test inner rest innerFlow ih =>
      obtain ⟨success, entered, behind⟩ := accepted.branch
      have header := state.flow_level (state.code_branch test.skipping)
        (State.growth_compare success)
      have opener := @State.flow_level state.intoBranch (.openBlock (depth + 1)) _ rfl rfl
      have closer := (inner.after state.intoBranch).flow_level
        (code_closeBranch inner state (depth + 1)) rfl
      have block := (header.append opener).append (innerFlow (depth + 1) _ inside entered)
      exact (block.append closer).append (ih depth _ (by simpa using inside) behind)
  | loop test inner rest innerFlow ih =>
      obtain ⟨success, entered, behind⟩ := accepted.loop
      have header := state.flow_level (state.code_loop test.skipping)
        (by rw [Instruction.totalGrowth_cons, State.growth_compare success]; rfl)
      have opener := @State.flow_level state.intoLoop (.openBlock (depth + 1)) _ rfl rfl
      have closer := (inner.after state.intoLoop).flow_level
        (code_closeLoop inner state (depth + 1)) rfl
      have block := (header.append opener).append (innerFlow (depth + 1) _ inside entered)
      exact (block.append closer).append (ih depth _ (by simpa using inside) behind)

def Body.Shallow : Body → Prop
  | .done => True
  | .act _ rest | .leave _ rest => rest.Shallow
  | .branch _ inner rest | .loop _ inner rest => inner.cells = 0 ∧ inner.Shallow ∧ rest.Shallow

/-- In the body of a function that takes `cells` cells in all, with some of them still
to be taken. -/
structure Lowering.State.Inside (state : State) (ordinal cells remaining : Nat) : Prop where
  function : state.function = some ordinal
  functionCells : state.functionCells = cells
  covers : state.frame.callerCells ≤ state.frame.height
  counted : state.frame.locals + remaining ≤ cells

namespace Lowering.State.Inside

variable {state : State} {ordinal cells taken remaining : Nat}

theorem inner (inside : state.Inside ordinal cells (taken + remaining)) :
    state.Inside ordinal cells taken :=
  ⟨inside.function, inside.functionCells, inside.covers,
    Nat.le_trans (Nat.add_le_add_left (Nat.le_add_right _ _) _) inside.counted⟩

theorem next {later : State} (inside : state.Inside ordinal cells (taken + remaining))
    (function : later.function = state.function)
    (functionCells : later.functionCells = state.functionCells)
    (height : later.frame.height = state.frame.height + taken)
    (callerCells : later.frame.callerCells = state.frame.callerCells) :
    later.Inside ordinal cells remaining where
  function := function.trans inside.function
  functionCells := functionCells.trans inside.functionCells
  covers := by
    rw [height, callerCells]
    exact Nat.le_add_right_of_le inside.covers
  counted := by
    have counted := inside.counted
    have covers := inside.covers
    rw [Frame.locals] at counted ⊢
    rw [height, callerCells]
    omega

theorem leaf {leaf : Leaf} (inside : state.Inside ordinal cells (leaf.cells + remaining)) :
    (state.lower leaf.expression).state.Inside ordinal cells remaining :=
  inside.next (by rw [state_leaf]) (by rw [state_leaf]) (by rw [state_leaf, Frame.height_enter])
    (by rw [state_leaf, Frame.callerCells_enter])

theorem intoBranch (inside : state.Inside ordinal cells remaining) :
    state.intoBranch.Inside ordinal cells remaining :=
  ⟨inside.function, inside.functionCells, inside.covers, inside.counted⟩

theorem intoLoop (inside : state.Inside ordinal cells remaining) :
    state.intoLoop.Inside ordinal cells remaining :=
  ⟨inside.function, inside.functionCells, inside.covers, inside.counted⟩

theorem behind {body : Body} {blocks : List Block}
    (inside : state.Inside ordinal cells (body.cells + remaining)) :
    ((body.after state).outOfBlock blocks).Inside ordinal cells remaining :=
  inside.next (body.after_function state) (body.after_functionCells state) (body.height_after state)
    (body.callerCells_after state)

end Lowering.State.Inside

def Lowering.Defines (lines : List Line) (label : Label) (level : Int) : Prop :=
  ∃ line ∈ lines, line.instruction = .define label ∧ line.level = level

/-- Jumps on some lines go to labels that are defined among all lines at the same
level, or to the exit of the function with all its cells taken. -/
def Lowering.Lands (ordinal cells : Nat) (lines all : List Line) : Prop :=
  ∀ line ∈ lines, ∀ label, line.instruction.target? = some label → label.isGenerated ∧
    (Defines all label line.level ∨ label = .functionExit ordinal ∧ line.level = cells * cellSize)

section Lands

open Lowering (Defines Lands)

variable {ordinal cells : Nat} {lines more all : List Line}

theorem Lowering.Defines.mono {label : Label} {level : Int} (defines : Defines lines label level)
    (subset : lines ⊆ all) : Defines all label level := by
  obtain ⟨line, member, found⟩ := defines
  exact ⟨line, subset member, found⟩

theorem Lowering.Lands.append (first : Lands ordinal cells lines all)
    (second : Lands ordinal cells more all) :
    Lands ordinal cells (lines ++ more) all := by
  intro line member
  rcases List.mem_append.mp member with member | member
  · exact first line member
  · exact second line member

theorem Lowering.Lands.mono (lands : Lands ordinal cells lines more) (subset : more ⊆ all) :
    Lands ordinal cells lines all := by
  intro line member label target
  obtain ⟨generated, found⟩ := lands line member label target
  exact ⟨generated, found.imp_left (·.mono subset)⟩

theorem Lowering.Lands.of_no_target {state : State} {expression : Expression}
    (none : ∀ instruction ∈ (state.lower expression).code, instruction.target? = none) :
    Lands ordinal cells (state.lines expression) all := by
  intro line member label target
  obtain ⟨before, after, code, _⟩ := State.code_of_mem_lines member
  rw [none line.instruction (by simp [code])] at target
  cases target

theorem Lowering.Lands.of_straight {state : State} {expression : Expression}
    (straight : ∀ instruction ∈ (state.lower expression).code, instruction.isStraight) :
    Lands ordinal cells (state.lines expression) all :=
  .of_no_target fun instruction member =>
    Instruction.target?_of_straight (straight instruction member)

theorem Lowering.mem_or_last {before after front : List Instruction}
    {instruction last : Instruction} (same : before ++ instruction :: after = front ++ [last]) :
    instruction ∈ front ∨ before = front ∧ instruction = last := by
  rcases List.eq_nil_or_concat after with rfl | ⟨middle, final, rfl⟩
  · obtain ⟨fronts, lasts⟩ := List.append_inj' same rfl
    exact Or.inr ⟨fronts, List.singleton_inj.mp lasts⟩
  · rw [List.concat_eq_append, ← List.cons_append, ← List.append_assoc] at same
    obtain ⟨rfl, _⟩ := List.append_inj' same rfl
    exact Or.inl (by simp)

theorem Lowering.Lands.returnValue {state : State} {value : Operand} {remaining : Nat}
    (inside : state.Inside ordinal cells remaining)
    (success : state.frame.check (Expression.returnValue value).uses = .ok ()) :
    Lands ordinal cells (state.lines (.returnValue value)) all := by
  intro line member label target
  obtain ⟨loaded, straight, balanced, _, code⟩ := State.code_returnValue success
  obtain ⟨before, after, split, same⟩ := State.code_of_mem_lines member
  have level := State.level_of_code split
  rw [State.returnJump_inside inside.function, ← List.append_assoc, split] at code
  rcases Lowering.mem_or_last code with early | ⟨rfl, last⟩
  · -- Loading the value and taking cells do not jump.
    have plain : line.instruction.isStraight := by
      rcases List.mem_append.mp early with early | early
      · exact straight _ early
      · exact Instruction.isStraight_of_mem_reserveCells _ early
    rw [Instruction.target?_of_straight plain] at target
    cases target
  · rw [last] at target
    cases target
    refine ⟨rfl, Or.inr ⟨rfl, ?_⟩⟩
    -- The cells that are still to be declared were taken before the jump.
    have counted : state.frame.locals ≤ cells := Nat.le_trans (Nat.le_add_right _ _) inside.counted
    rw [same, level, Frame.level_eq_locals inside.covers, Instruction.totalGrowth_append, balanced,
      Instruction.totalGrowth_reserveCells, inside.functionCells, Int.zero_add, ← Int.add_mul,
      Int.natCast_sub counted]
    congr 1
    omega

theorem Lowering.Defines.of_code {state : State} {expression : Expression} {label : Label}
    (before : List Instruction) {after : List Instruction}
    (code : (state.lower expression).code = before ++ .define label :: after) :
    Defines (state.lines expression) label (state.frame.level + totalGrowth before) :=
  ⟨_, State.mem_lines_of_code code, rfl, State.level_of_code code⟩

theorem Lowering.Lands.of_first (state : State) {expression : Expression}
    {instruction : Instruction} {rest : List Instruction} {label : Label}
    (code : (state.lower expression).code = instruction :: rest)
    (target : instruction.target? = some label) (others : ∀ other ∈ rest, other.target? = none)
    (generated : label.isGenerated) (defines : Defines all label state.frame.level) :
    Lands ordinal cells (state.lines expression) all := by
  intro line member found jumps
  obtain ⟨before, after, split, same⟩ := State.code_of_mem_lines member
  have level := State.level_of_code split
  rw [code] at split
  cases before with
  | nil =>
      obtain ⟨rfl, _⟩ := List.cons.inj split
      cases target.symm.trans jumps
      rw [Instruction.totalGrowth_nil, Int.add_zero, ← same] at level
      exact ⟨generated, Or.inl (level ▸ defines)⟩
  | cons head before =>
      obtain ⟨_, rfl⟩ := List.cons.inj split
      rw [others line.instruction (by simp)] at jumps
      cases jumps

theorem Lowering.Lands.block {header opener within closer behind : List Line}
    (all : List Line) (same : all = header ++ opener ++ within ++ closer ++ behind)
    (headerLands : Lands ordinal cells header all) (openerLands : Lands ordinal cells opener all)
    (withinLands : Lands ordinal cells within within) (closerLands : Lands ordinal cells closer all)
    (behindLands : Lands ordinal cells behind behind) : Lands ordinal cells all all := by
  have withinAll : within ⊆ all := by
    rw [same]
    intro line member
    simp [member]
  have behindAll : behind ⊆ all := by
    rw [same]
    exact List.subset_append_right _ _
  have parts :=
    (((headerLands.append openerLands).append (withinLands.mono withinAll)).append
      closerLands).append (behindLands.mono behindAll)
  rwa [← same] at parts

/-- Jumps of a body land in the body or leave the function. -/
theorem Body.lands (body : Body) (depth : Nat) (state : State)
    (inside : state.Inside ordinal cells body.cells) (accepted : body.Accepted depth state)
    (shallow : body.Shallow) :
    Lands ordinal cells (body.lines depth state) (body.lines depth state) := by
  -- The cells still to be taken shrink along the body, so a return anywhere in it can
  -- fill up to the cells of the whole function.
  induction body generalizing depth state with
  | done =>
      intro line member
      cases member
  | act leaf rest ih =>
      have behind := ih depth _ inside.leaf accepted.act.2 shallow
      rw [Body.lines]
      exact (Lands.of_straight (state.straight_leaf leaf)).append
        (behind.mono (List.subset_append_right _ _))
  | leave value rest ih =>
      obtain ⟨success, behind⟩ := accepted.leave
      have jump : Lands ordinal cells (state.lines (.returnValue value))
          ((Body.leave value rest).lines depth state) :=
        .returnValue inside success
      exact jump.append ((ih depth state inside behind shallow).mono (List.subset_append_right _ _))
  | branch test inner rest innerLands ih =>
      obtain ⟨success, entered, behind⟩ := accepted.branch
      obtain ⟨none, innerShallow, restShallow⟩ := shallow
      -- The block takes no cells, so its end stands at the level of the jump over it.
      have level : (inner.after state.intoBranch).frame.level = state.frame.level := by
        simp [level_after, none]
      have closer := code_closeBranch inner state (depth + 1)
      have closes := Defines.of_code [] closer
      rw [Instruction.totalGrowth_nil, Int.add_zero, level] at closes
      refine Lands.block _ rfl (.of_straight ?_)
        (.of_first state.intoBranch rfl rfl (by simp) rfl ?_)
        (innerLands (depth + 1) _ inside.intoBranch.inner entered innerShallow) (.of_no_target ?_)
        (ih depth _ inside.intoBranch.behind behind restShallow)
      · rw [State.code_branch]
        exact (state.frame.straight_compare _).straight
      · exact closes.mono fun line member => by simp [Body.lines, member]
      · simp [closer, Instruction.target?]
  | loop test inner rest innerLands ih =>
      obtain ⟨success, entered, behind⟩ := accepted.loop
      obtain ⟨none, innerShallow, restShallow⟩ := shallow
      have level : (inner.after state.intoLoop).frame.level = state.frame.level := by
        simp [level_after, none]
      have closer := code_closeLoop inner state (depth + 1)
      have opens := Defines.of_code [] (state.code_loop test.skipping)
      have closes := Defines.of_code [.jump _] closer
      -- The same holds both for the jump behind the loop and for the jump to its head.
      rw [Instruction.totalGrowth_nil, Int.add_zero, ← level] at opens
      rw [show totalGrowth [.jump (.loopHead state.counters.loopHeads)] = 0 from rfl, Int.add_zero,
        level] at closes
      refine Lands.block _ rfl (.of_no_target ?_)
        (.of_first state.intoLoop rfl rfl (by simp) rfl ?_)
        (innerLands (depth + 1) _ inside.intoLoop.inner entered innerShallow)
        (.of_first (inner.after state.intoLoop) closer rfl (by simp [Instruction.target?]) rfl ?_)
        (ih depth _ inside.intoLoop.behind behind restShallow)
      · rw [State.code_loop, List.forall_mem_cons]
        exact ⟨rfl, fun instruction member =>
          Instruction.target?_of_straight
            ((state.frame.straight_compare _).straight instruction member)⟩
      · exact closes.mono fun line member => by simp [Body.lines, member]
      · exact opens.mono fun line member => by simp [Body.lines, member]

end Lands

/-! Functions. Their first line and their jump back stand at level zero. -/

def Instruction.isBoundary : Instruction → Bool
  | .define (.named _) | .jumpBack => true
  | _ => false

theorem Instruction.not_boundary_of_straight {instruction : Instruction}
    (straight : instruction.isStraight) :
    instruction.isBoundary = false := by
  cases instruction <;> first | rfl | cases straight

theorem Lowering.State.not_boundary {state : State} {expression : Expression}
    (none : ∀ instruction ∈ (state.lower expression).code, instruction.isBoundary = false) :
    ∀ line ∈ state.lines expression, line.instruction.isBoundary = false := by
  intro line member
  obtain ⟨before, after, code, _⟩ := code_of_mem_lines member
  exact none line.instruction (by simp [code])

theorem Body.not_boundary (body : Body) (depth : Nat) (state : State) {ordinal : Nat}
    (inside : state.function = some ordinal) (accepted : body.Accepted depth state) :
    ∀ line ∈ body.lines depth state, line.instruction.isBoundary = false := by
  induction body generalizing depth state with
  | done =>
      intro line member
      cases member
  | act leaf rest ih =>
      rw [lines, List.forall_mem_append]
      refine ⟨State.not_boundary fun instruction member =>
        Instruction.not_boundary_of_straight (state.straight_leaf leaf instruction member),
        ih depth _ ?_ accepted.act.2⟩
      rw [State.state_leaf]
      exact inside
  | leave value rest ih =>
      obtain ⟨success, behind⟩ := accepted.leave
      obtain ⟨loaded, straight, _, _, code⟩ := State.code_returnValue success
      rw [State.returnJump_inside inside] at code
      rw [lines, List.forall_mem_append]
      refine ⟨State.not_boundary ?_, ih depth state inside behind⟩
      rw [code, List.forall_mem_append, List.forall_mem_append, List.forall_mem_singleton]
      exact ⟨fun instruction member =>
          Instruction.not_boundary_of_straight (straight instruction member),
        fun instruction member =>
          Instruction.not_boundary_of_straight
            (Instruction.isStraight_of_mem_reserveCells instruction member), rfl⟩
  | branch test inner rest innerAll ih =>
      obtain ⟨_, entered, behind⟩ := accepted.branch
      simp only [lines, List.forall_mem_append]
      refine ⟨⟨⟨⟨State.not_boundary ?_, ?_⟩, innerAll (depth + 1) _ inside entered⟩,
        State.not_boundary ?_⟩,
        ih depth _ (by simpa using inside) behind⟩
      · rw [State.code_branch]
        exact fun instruction member => Instruction.not_boundary_of_straight
          ((state.frame.straight_compare _).straight instruction member)
      · exact @State.not_boundary state.intoBranch (.openBlock (depth + 1))
          (List.forall_mem_singleton.mpr rfl)
      · rw [code_closeBranch, List.forall_mem_singleton]
        rfl
  | loop test inner rest innerAll ih =>
      obtain ⟨_, entered, behind⟩ := accepted.loop
      simp only [lines, List.forall_mem_append]
      refine ⟨⟨⟨⟨State.not_boundary ?_, ?_⟩, innerAll (depth + 1) _ inside entered⟩,
        State.not_boundary ?_⟩,
        ih depth _ (by simpa using inside) behind⟩
      · rw [State.code_loop, List.forall_mem_cons]
        exact ⟨rfl, fun instruction member => Instruction.not_boundary_of_straight
          ((state.frame.straight_compare _).straight instruction member)⟩
      · exact @State.not_boundary state.intoLoop (.openBlock (depth + 1))
          (List.forall_mem_singleton.mpr rfl)
      · rw [code_closeLoop, List.forall_mem_cons, List.forall_mem_singleton]
        exact ⟨rfl, rfl⟩

structure Lowering.Balanced (lines : List Line) : Prop where
  flow : Flow 0 lines 0
  lands : ∀ line ∈ lines, ∀ label, line.instruction.target? = some label →
    label.isGenerated ∧ Defines lines label line.level
  boundary : ∀ line ∈ lines, line.instruction.isBoundary → line.level = 0

theorem Lowering.Balanced.nil : Balanced [] :=
  ⟨.nil, by simp, by simp⟩

theorem Lowering.Balanced.append {first second : List Line} (start : Balanced first)
    (rest : Balanced second) :
    Balanced (first ++ second) where
  flow := start.flow.append rest.flow
  lands := by
    intro line member label target
    rcases List.mem_append.mp member with member | member
    · obtain ⟨generated, defines⟩ := start.lands line member label target
      exact ⟨generated, defines.mono (List.subset_append_left _ _)⟩
    · obtain ⟨generated, defines⟩ := rest.lands line member label target
      exact ⟨generated, defines.mono (List.subset_append_right _ _)⟩
  boundary := List.forall_mem_append.mpr ⟨start.boundary, rest.boundary⟩

def Item.Shallow : Item → Prop
  | .exportLabel _ | .importLabel _ => True
  | .function _ _ body => body.Shallow

theorem Frame.level_ofParameters (parameters : List Parameter) :
    (ofParameters parameters).level = 0 := by
  simp [level, ofParameters]

theorem Lowering.State.inside_intoFunction (state : State) (name : String)
    (parameters : List Parameter) (cells : Nat) :
    (state.intoFunction name parameters cells).Inside (state.counters.functions + 1) cells cells :=
  ⟨rfl, rfl, Nat.le_refl _,
    Nat.le_of_eq ((congrArg (· + cells) (Nat.sub_self _)).trans (Nat.zero_add cells))⟩

theorem Lowering.Balanced.single {state : State} {expression : Expression}
    {instruction : Instruction} (ground : state.frame.level = 0)
    (code : (state.lower expression).code = [instruction]) (still : instruction.growth = 0)
    (stays : instruction.target? = none) :
    Balanced (state.lines expression) where
  flow := by
    have flow := state.flow_level code (by simp [still])
    rwa [ground] at flow
  lands := by simp [State.lines, State.numbered, code, stays]
  boundary := by simp [State.lines, State.numbered, code, Line.level, ground]

section Exit

variable {left : State} {ordinal : Nat} (covers : left.frame.callerCells ≤ left.frame.height)
  (code : (left.lower (.closeBlock 1)).code = left.leaveFunction ordinal)

include covers

theorem Lowering.State.release_level :
    left.frame.level + totalGrowth
      (.define (.functionExit ordinal) :: Instruction.releaseCells left.frame.locals) = 0 := by
  have still : (Instruction.define (.functionExit ordinal)).growth = 0 := rfl
  rw [Frame.level_eq_locals covers, Instruction.totalGrowth_cons,
    Instruction.totalGrowth_releaseCells, still, Int.zero_add, Int.add_right_neg]

include code

theorem Lowering.State.flow_leaveFunction :
    Flow left.frame.level (left.lines (.closeBlock 1)) 0 := by
  have flow := left.flow_lines (.closeBlock 1)
  rwa [code, leaveFunction, Instruction.totalGrowth_append, ← Int.add_assoc, List.singleton_append,
    release_level covers] at flow

theorem Lowering.State.boundary_leaveFunction :
    ∀ line ∈ left.lines (.closeBlock 1), line.instruction.isBoundary → line.level = 0 := by
  intro line member boundary
  obtain ⟨before, after, split, same⟩ := code_of_mem_lines member
  have level := level_of_code split
  rw [code, leaveFunction, List.singleton_append] at split
  rcases mem_or_last split.symm with early | ⟨rfl, _⟩
  · rcases List.mem_cons.mp early with first | early
    · rw [first] at boundary
      cases boundary
    · rw [Instruction.not_boundary_of_straight (Instruction.isStraight_of_mem_releaseCells _ early)]
        at boundary
      cases boundary
  · rw [same, level]
    exact release_level covers

end Exit

theorem Lowering.State.no_target_leaveFunction (state : State) (ordinal : Nat) :
    ∀ instruction ∈ state.leaveFunction ordinal, instruction.target? = none := by
  rw [leaveFunction, List.forall_mem_append, List.forall_mem_append, List.forall_mem_singleton,
    List.forall_mem_singleton]
  exact ⟨⟨rfl, fun instruction member => Instruction.target?_of_straight
    (Instruction.isStraight_of_mem_releaseCells instruction member)⟩, rfl⟩

theorem Body.balanced_function (body : Body) {entered : State} {ordinal : Nat}
    (inside : entered.Inside ordinal body.cells body.cells) (entry : entered.frame.level = 0)
    (accepted : body.Accepted 1 entered) (shallow : body.Shallow)
    (code : ((body.after entered).lower (.closeBlock 1)).code =
      (body.after entered).leaveFunction ordinal) :
    Lowering.Balanced (body.lines 1 entered ++ (body.after entered).lines (.closeBlock 1)) := by
  have covers : (body.after entered).frame.callerCells ≤ (body.after entered).frame.height := by
    rw [callerCells_after, height_after]
    exact Nat.le_add_right_of_le inside.covers
  have exit : Lowering.Defines ((body.after entered).lines (.closeBlock 1)) (.functionExit ordinal)
      (body.cells * cellSize) := by
    have defines := Lowering.Defines.of_code [] code
    rwa [Instruction.totalGrowth_nil, Int.add_zero, level_after, entry, Int.zero_add] at defines
  constructor
  · -- Levels run from zero through the body to the cells that the exit releases.
    have flow := body.flow 1 entered inside.function accepted
    rw [entry] at flow
    exact flow.append (State.flow_leaveFunction covers code)
  · intro line member label target
    rcases List.mem_append.mp member with member | member
    · obtain ⟨generated, found⟩ :=
        body.lands 1 entered inside accepted shallow line member label target
      refine ⟨generated, ?_⟩
      rcases found with defines | ⟨rfl, level⟩
      · exact defines.mono (List.subset_append_left _ _)
      · rw [level]
        exact exit.mono (List.subset_append_right _ _)
    · obtain ⟨before, after, split, _⟩ := State.code_of_mem_lines member
      rw [(body.after entered).no_target_leaveFunction ordinal line.instruction
        (by simp [← code, split])] at target
      cases target
  · rw [List.forall_mem_append]
    refine ⟨fun line member boundary => ?_, State.boundary_leaveFunction covers code⟩
    rw [body.not_boundary 1 entered inside.function accepted line member] at boundary
    cases boundary

theorem Item.balanced (item : Item) {state : State} (idle : state.Idle)
    (accepted : item.check = .ok ()) (shallow : item.Shallow) :
    Lowering.Balanced (item.lines state) := by
  have ground : state.frame.level = 0 := by
    rw [idle.frame]
    rfl
  cases item with
  | exportLabel label => exact .single ground rfl rfl rfl
  | importLabel label => exact .single ground rfl rfl rfl
  | function name parameters body =>
      have header : Lowering.Balanced
          ((Item.anticipated state (.function name parameters body)).lines
            (.function name parameters)) :=
        .single ground rfl rfl rfl
      have behind := body.balanced_function (state.inside_intoFunction name parameters body.cells)
        (Frame.level_ofParameters parameters) accepted shallow
          (body.code_closeFunction state 1 name parameters _)
      have all := header.append behind
      rw [← List.append_assoc] at all
      simp only [Item.lines]
      rw [show (state.intoFunction name parameters body.cells).lines (.openBlock 1) = [] from rfl,
        List.append_nil]
      exact all

theorem Outline.balanced (outline : Outline) {state : State} (idle : state.Idle)
    (accepted : outline.check = .ok ()) (shallow : ∀ item ∈ outline, item.Shallow) :
    Lowering.Balanced (outline.lines state) := by
  induction outline generalizing state with
  | nil => exact .nil
  | cons item rest ih =>
      obtain ⟨first, others⟩ := List.forall_mem_cons.mp (check_eq_ok_iff.mp accepted)
      rw [List.forall_mem_cons] at shallow
      exact (item.balanced idle first shallow.1).append
        (ih (idle.after_item item) (check_eq_ok_iff.mpr others) shallow.2)

end Levels

/-! Programs in which variables are declared outside all inner blocks. -/

/-- Every declaration stands directly in the body of its function, when as many
blocks are open as given. -/
def Expression.declaredDirectly (blocks : Nat) : List Expression → Bool
  | [] => true
  | .declare _ _ _ :: rest => blocks = 1 && declaredDirectly blocks rest
  | .openBlock _ :: rest => declaredDirectly (blocks + 1) rest
  | .closeBlock _ :: rest => declaredDirectly (blocks - 1) rest
  | _ :: rest => declaredDirectly blocks rest

section Shallow

open Expression (declaredDirectly)

theorem Expression.declaredDirectly_leaf {blocks : Nat} {leaf : Leaf} {rest : List Expression}
    (direct : declaredDirectly blocks (leaf.expression :: rest)) :
    (leaf.cells = 0 ∨ blocks = 1) ∧ declaredDirectly blocks rest := by
  cases leaf with
  | declare name pointer length =>
      simp only [Leaf.expression, declaredDirectly, Bool.and_eq_true, decide_eq_true_eq] at direct
      exact ⟨Or.inr direct.1, direct.2⟩
  | call function arguments destination => exact ⟨Or.inl rfl, direct⟩
  | raw mnemonic operands => exact ⟨Or.inl rfl, direct⟩

theorem Body.shallow_block {inner more : Body} {blocks : Nat} (inside : 0 < blocks)
    (within : inner.Shallow ∧ (inner.cells = 0 ∨ blocks + 1 = 1))
    (behind : more.Shallow ∧ (more.cells = 0 ∨ blocks = 1)) :
    (inner.cells = 0 ∧ inner.Shallow ∧ more.Shallow) ∧
      (inner.cells + more.cells = 0 ∨ blocks = 1) := by
  have empty : inner.cells = 0 := by omega
  refine ⟨⟨empty, within.1, behind.1⟩, ?_⟩
  rw [empty, Nat.zero_add]
  exact behind.2

theorem Body.shallow_of_declaredDirectly (body : Body) {blocks depth : Nat} (inside : 0 < blocks)
    {rest : List Expression} (direct : declaredDirectly blocks (body.expressions depth ++ rest)) :
    body.Shallow ∧ (body.cells = 0 ∨ blocks = 1) ∧ declaredDirectly blocks rest := by
  induction body generalizing blocks depth rest with
  | done => exact ⟨trivial, Or.inl rfl, direct⟩
  | act leaf more ih =>
      rw [expressions, List.cons_append] at direct
      obtain ⟨none, direct⟩ := Expression.declaredDirectly_leaf direct
      obtain ⟨shallow, others, direct⟩ := ih inside direct
      refine ⟨shallow, ?_, direct⟩
      rw [cells]
      omega
  | leave value more ih => exact ih inside direct
  | branch test inner more innerShallow ih =>
      simp only [expressions, List.cons_append, List.append_assoc, declaredDirectly] at direct
      obtain ⟨innerIs, innerCells, direct⟩ := innerShallow (Nat.succ_pos blocks) direct
      obtain ⟨moreIs, moreCells, direct⟩ := ih inside direct
      obtain ⟨shallow, none⟩ := shallow_block inside ⟨innerIs, innerCells⟩ ⟨moreIs, moreCells⟩
      exact ⟨shallow, none, direct⟩
  | loop test inner more innerShallow ih =>
      simp only [expressions, List.cons_append, List.append_assoc, declaredDirectly] at direct
      obtain ⟨innerIs, innerCells, direct⟩ := innerShallow (Nat.succ_pos blocks) direct
      obtain ⟨moreIs, moreCells, direct⟩ := ih inside direct
      obtain ⟨shallow, none⟩ := shallow_block inside ⟨innerIs, innerCells⟩ ⟨moreIs, moreCells⟩
      exact ⟨shallow, none, direct⟩

theorem Outline.shallow_of_declaredDirectly {outline : Outline}
    (direct : declaredDirectly 0 outline.expressions) :
    ∀ item ∈ outline, item.Shallow := by
  induction outline with
  | nil => simp
  | cons item rest ih =>
      rw [expressions_cons] at direct
      rw [List.forall_mem_cons]
      cases item with
      | exportLabel label => exact ⟨trivial, ih direct⟩
      | importLabel label => exact ⟨trivial, ih direct⟩
      | function name parameters body =>
          simp only [Item.expressions, List.cons_append, List.append_assoc, List.nil_append,
            declaredDirectly] at direct
          obtain ⟨shallow, _, direct⟩ := body.shallow_of_declaredDirectly (Nat.succ_pos 0) direct
          exact ⟨shallow, ih direct⟩

end Shallow

theorem Instruction.growth_of_target {instruction : Instruction} {label : Label}
    (target : instruction.target? = some label) : instruction.growth = 0 := by
  cases instruction <;> first | rfl | cases target

namespace Lowering

/-- Each generated label is defined on one line, and no function has its text. -/
structure Unambiguous (lines : List Line) : Prop where
  once : DefinedOnce lines
  distinct : ∀ name label, .define (.named name) ∈ lines.map (·.instruction) →
    .define label ∈ lines.map (·.instruction) → label.isGenerated → label.render ≠ name

theorem Unambiguous.level_of_text {lines : List Line} (unambiguous : Unambiguous lines)
    {label found : Label} {level : Int} (generated : label.isGenerated)
    (defines : Defines lines label level) {position : Nat} {line : Line}
    (reached : lines[position]? = some line) (definition : line.instruction = .define found)
    (text : found.render = label.render) : line.level = level := by
  obtain ⟨target, member, targetDefines, rfl⟩ := defines
  -- Texts decide between generated labels; a function cannot have the text of one.
  have same : found = label := by
    cases kind : found.isGenerated with
    | true => exact Label.eq_of_render kind generated text
    | false =>
        cases found with
        | named name =>
            refine absurd text.symm (unambiguous.distinct name label ?_ ?_ generated)
            · exact List.mem_map.mpr ⟨line, List.mem_of_getElem? reached, definition⟩
            · exact List.mem_map.mpr ⟨target, member, targetDefines⟩
        | _ => cases kind
  rw [same] at definition
  obtain ⟨other, targetReached⟩ := List.getElem?_of_mem member
  cases unambiguous.once generated reached targetReached definition targetDefines
  rw [Option.some.inj (reached.symm.trans targetReached)]

/-- Jumps go between lines at one level, whichever line with their text they find. -/
def Steady (lines : List Line) : Prop :=
  ∀ line ∈ lines, ∀ label, line.instruction.target? = some label →
    ∀ {position : Nat} {other : Line} {found : Label}, lines[position]? = some other →
      other.instruction = .define found → found.render = label.render → other.level = line.level

/-- A path finds the stack at the level of the line it reaches. -/
theorem Steady.level_of_path {lines : List Line} (steady : Steady lines) {first last : Int}
    (flow : Flow first lines last) {start : Nat} {entry : Line}
    (started : lines[start]? = some entry) {position : Nat} {grown : Int}
    (path : ControlFlow.Path (lines.map (·.instruction)) start position grown) {line : Line}
    (reached : lines[position]? = some line) : line.level = entry.level + grown := by
  -- Along the path the growth so far is the way from the level of the first line.
  induction path generalizing line with
  | here =>
      cases started.symm.trans reached
      exact (Int.add_zero _).symm
  | @step position destination grown instruction path fetched edge ih =>
      rw [List.getElem?_map, Option.map_eq_some_iff] at fetched
      obtain ⟨current, here, rfl⟩ := fetched
      have level := ih here
      cases edge with
      | next fetched falls =>
          rw [List.getElem?_map, here] at fetched
          cases fetched
          rw [← Int.add_assoc, ← level]
          exact flow.next here reached falls
      | jump fetched target arrives text =>
          rw [List.getElem?_map, here] at fetched
          cases fetched
          rw [List.getElem?_map, reached] at arrives
          rw [Instruction.growth_of_target target, Int.add_zero, ← level]
          exact steady current (List.mem_of_getElem? here) _ target reached
            (Option.some.inj arrives) text

theorem Balanced.level_of_path {lines : List Line} (balanced : Balanced lines)
    (unambiguous : Unambiguous lines) {start : Nat} {name : String}
    (entry : (lines.map (·.instruction))[start]? = some (.define (.named name))) {position : Nat}
    {grown : Int} (path : ControlFlow.Path (lines.map (·.instruction)) start position grown)
    {line : Line} (reached : lines[position]? = some line) : line.level = grown := by
  have steady : Steady lines := by
    intro line member label target position other found reached definition text
    obtain ⟨generated, defines⟩ := balanced.lands line member label target
    exact unambiguous.level_of_text generated defines reached definition text
  rw [List.getElem?_map, Option.map_eq_some_iff] at entry
  obtain ⟨first, started, named⟩ := entry
  have level := balanced.boundary first (List.mem_of_getElem? started) (by rw [named]; rfl)
  rw [steady.level_of_path balanced.flow started path reached, level, Int.zero_add]

end Lowering

namespace Compilation

/-- Whichever way control takes through a function, the stack has grown by the cells
that the frame counts when an expression is reached, and not at all when the function
jumps back. Amounts are those of 64 bits for fewer than `2 ^ 62` cells. -/
theorem stack_balanced {sources : List Source} {units : List SourceUnit} {compilation : Compilation}
    (analyzed : sources.mapM Source.analyze = .ok units)
    (compiled : ofSources sources = .ok compilation)
    (direct : ∀ unit ∈ units, Expression.declaredDirectly 0 unit.expressions)
    (distinct : ∀ name label,
      .define (.named name) ∈ compilation.body → .define label ∈ compilation.body →
      label.isGenerated → label.render ≠ name) :
    ∃ lines last, Program.trace (linkedExpressions units) = .ok (lines, last) ∧
      lines.map (·.instruction) = compilation.body ∧
      ∀ start name, compilation.body[start]? = some (.define (.named name)) →
        ∀ position grown, ControlFlow.Path compilation.body start position grown →
          (∀ line, lines[position]? = some line → line.index = 0 →
            grown = 4 * ((line.state.frame.height : Int) - line.state.frame.callerCells)) ∧
          (compilation.body[position]? = some .jumpBack → grown = 0) := by
  obtain ⟨outlines, reads, rfl⟩ := Source.mapM_analyze_eq_ok.mp analyzed
  obtain ⟨checked, body⟩ := accepted_of_reads reads compiled
  have shallow : ∀ item ∈ Outline.linked outlines, item.Shallow := by
    intro item member
    obtain ⟨outline, known, stands⟩ := Outline.mem_linked.mp member
    exact Outline.shallow_of_declaredDirectly
      (direct outline.unit (List.mem_map_of_mem known)) item stands
  rw [body] at distinct ⊢
  have balanced := (Outline.linked outlines).balanced Lowering.State.start_idle checked shallow
  have unambiguous : Lowering.Unambiguous ((Outline.linked outlines).lines .start) :=
    ⟨Outline.definedOnce checked .start, distinct⟩
  refine ⟨(Outline.linked outlines).lines .start, (Outline.linked outlines).after .start, ?_, rfl,
    fun start name entry position grown path => ⟨fun line reached first => ?_, fun back => ?_⟩⟩
  · rw [Outline.linkedExpressions_units, Program.trace_outline, checked]
    rfl
  · have level := balanced.level_of_path unambiguous entry path reached
    rw [← level, Lowering.Line.level, first, List.take_zero, Instruction.totalGrowth_nil,
      Int.add_zero, Frame.level, Int.mul_comm]
    rfl
  · rw [List.getElem?_map, Option.map_eq_some_iff] at back
    obtain ⟨line, reached, leaves⟩ := back
    rw [← balanced.level_of_path unambiguous entry path reached]
    exact balanced.boundary line (List.mem_of_getElem? reached) (by rw [leaves]; rfl)

/-- A return that stands before a declaration leaves the stack as the last return does. -/
theorem stack_balanced_early_return :
    let source : Source :=
      ⟨"", "cersva f x rinyv fi x niv 3 rinyv dosnud x situv anax y@2 dosnud y situv"⟩
    let body : List Instruction := [.define (.named "f"), .move (.cell 4) (.register .f1),
      .compare (.literal "3") .clo, .jumpIf (.branchEnd 0), .move (.cell 4) (.register .f0),
      .reserve 8, .jump (.functionExit 1), .define (.branchEnd 0), .reserve 8,
      .move (.cell 0) (.register .f0), .jump (.functionExit 1), .define (.functionExit 1),
      .release 8, .jumpBack]
    (ofSources [source]).map (·.body) = .ok body ∧
      ∀ position grown, ControlFlow.Path body 0 position grown → body[position]? = some .jumpBack →
        grown = 0 := by
  intro source body
  have analyzed : [source].mapM Source.analyze = .ok [⟨[.function "f" [⟨"x", false⟩], .openBlock 1,
      .branch ⟨.variable "x" .zero, .clo, .constant "3"⟩, .openBlock 2,
      .returnValue (.variable "x" .zero), .closeBlock 2, .declare "y" true 2,
      .returnValue (.variable "y" .zero), .closeBlock 1]⟩] := by
    decide +kernel
  have compiled : (ofSources [source]).map (·.body) = .ok body := by decide +kernel
  have distinct : ∀ name label,
      .define (.named name) ∈ body → .define label ∈ body → label.isGenerated →
      label.render ≠ name := by
    intro name label named defined generated
    have first : name = "f" := by simpa [body] using named
    have labels : label = .named "f" ∨ label = .branchEnd 0 ∨ label = .functionExit 1 := by
      simpa [body] using defined
    rw [first]
    rcases labels with rfl | rfl | rfl
    · cases generated
    · decide +kernel
    · decide +kernel
  refine ⟨compiled, fun position grown path => ?_⟩
  cases accepted : ofSources [source] with
  | error error =>
      rw [accepted] at compiled
      cases compiled
  | ok compilation =>
      rw [accepted] at compiled
      have same : compilation.body = body := Except.ok.inj compiled
      obtain ⟨lines, last, _, _, balanced⟩ :=
        stack_balanced analyzed accepted (by decide) (same ▸ distinct)
      rw [same] at balanced
      exact (balanced 0 "f" rfl position grown path).2

end Compilation
end TinkaCompiler
