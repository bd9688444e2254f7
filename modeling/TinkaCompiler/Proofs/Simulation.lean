import TinkaCompiler.Proofs.Execution
import TinkaCompiler.Proofs.Linking

/-! The lines of a function run like its tree.

A position in the lines stands for the statements that are still to run. From such a
position the lines take some steps at which nothing is performed, and perform what
the tree performs next, so the two runs go through the same statements and end
together. -/

set_option autoImplicit false

namespace TinkaCompiler

variable {S V : Type}

namespace Lowering

def Line.isQuiet (line : Line) : Bool :=
  line.instruction.fallsThrough && line.instruction.target?.isNone &&
    match line.expression.condition? with
    | some _ =>
      match line.instruction with
      | .move _ (.register .f1) | .compare _ _ => false
      | _ => true
    | none => !(line.index = 0 && line.expression.isStatement)

theorem Line.effect_of_quiet {line : Line} (quiet : line.isQuiet) (reading : Reading S V)
    (config : Line.Config S V) : line.effect reading config = config := by
  unfold isQuiet at quiet
  unfold effect
  cases condition : line.expression.condition? with
  | some _ =>
      rw [condition] at quiet
      dsimp only
      split
      · simp_all
      · simp_all
      · rfl
  | none =>
      rw [condition] at quiet
      simp only [Bool.and_eq_true, Bool.not_eq_true', Bool.and_eq_false_iff,
        decide_eq_false_iff_not] at quiet
      dsimp only
      rw [if_neg]
      rintro ⟨first, statement⟩
      rcases quiet.2 with later | other
      · exact later first
      · rw [other] at statement
        cases statement

theorem Line.effect_of_mark {line : Line} (plain : line.expression.condition? = none)
    (mark : line.expression.isStatement = false) (reading : Reading S V)
    (config : Line.Config S V) :
    line.effect reading config = config := by
  rw [effect]
  simp [plain, mark]

theorem resolve_eq_some {lines : List Line} (once : DefinedOnce lines) {label : Label} {line : Line}
    {position : Nat} (generated : label.isGenerated) (here : lines[position]? = some line)
    (defines : line.instruction = .define label) : resolve lines label = some position := by
  obtain ⟨bound, same⟩ := List.getElem?_eq_some_iff.mp here
  rw [resolve, List.findIdx?_eq_some_iff_getElem]
  refine ⟨bound, by simp [same, defines], fun earlier below found => ?_⟩
  have defined : lines[earlier].instruction = .define label := by simpa using found
  have first := once generated (List.getElem?_eq_getElem (Nat.lt_trans below bound))
    here defined defines
  omega

section Silence

variable (reading : Reading S V) (lines : List Line)

def Silent (before after : Line.Config S V) : Prop :=
  Line.step reading lines before = some after ∧ after.progress = before.progress

def Silently : Line.Config S V → Line.Config S V → Prop :=
  Relation.ReflTransGen (Silent reading lines)

end Silence

section Runs

variable {reading : Reading S V} {lines : List Line} {config : Line.Config S V}

theorem silent_quiet {line : Line} (here : lines[config.position]? = some line)
    (quiet : line.isQuiet) :
    Silent reading lines config (config.moveTo (config.position + 1)) := by
  have parts := quiet
  simp only [Line.isQuiet, Bool.and_eq_true, Option.isNone_iff_eq_none] at parts
  have next := Line.step_next reading here parts.1.1 parts.1.2
  rw [Line.effect_of_quiet quiet] at next
  exact ⟨next, rfl⟩

theorem silently_quiet {quiet rest : List Line} (all : ∀ line ∈ quiet, line.isQuiet)
    (placed : lines.drop config.position = quiet ++ rest) :
    Silently reading lines config (config.moveTo (config.position + quiet.length)) := by
  induction quiet generalizing config with
  | nil => exact .refl
  | cons line more ih =>
      rw [List.forall_mem_cons] at all
      have first := @silent_quiet _ _ reading _ _ _ (getElem?_of_drop placed) all.1
      have behind := @ih (config.moveTo (config.position + 1)) all.2
        (drop_of_append [line] placed)
      rw [Line.Config.moveTo_position, Line.Config.moveTo_moveTo, Nat.add_assoc,
        Nat.add_comm 1] at behind
      exact .head first behind

/-- Code that computes addresses says nothing about a condition. -/
theorem quiet_addressing {state : State} {expression : Expression} {condition : Condition}
    {first : Nat} {code : List Instruction} (header : expression.condition? = some condition)
    (addressing : ∀ instruction ∈ code, instruction.isAddressing .f0) :
    ∀ line ∈ state.numbered expression first code, line.isQuiet := by
  intro line member
  obtain ⟨before, after, split, same⟩ := State.code_of_mem_numbered member
  have address := addressing line.instruction (by simp [split])
  have straight := Instruction.isStraight_of_addressing address
  rw [Line.isQuiet, Instruction.fallsThrough_of_straight straight,
    Instruction.target?_of_straight straight, same]
  simp only [header]
  cases shape : line.instruction with
  | move source target =>
      rw [shape] at address
      cases target with
      | register held => cases held <;> first | rfl | cases address
      | _ => rfl
  | compare right comparison =>
      rw [shape] at address
      cases address
  | _ => rfl

section Header

variable {state : State} {expression : Expression} {condition : Condition}
  (header : expression.condition? = some condition)

include header

theorem silent_left {left : Place} {index : Nat} {rest : List Line}
    (placed : lines.drop config.position =
      ⟨.move left (.register .f1), expression, state, index⟩ :: rest) :
    Silent reading lines config ⟨config.position + 1, config.flag,
      Line.fetch reading ⟨.move left (.register .f1), expression, state, index⟩ condition.left left
        config.progress.state, config.progress⟩ := by
  have next := Line.step_next reading (getElem?_of_drop placed) rfl rfl
  rw [Line.effect] at next
  simp only [header] at next
  exact ⟨next, rfl⟩

theorem silent_right {right : Place} {comparison : Comparison} {index : Nat} {rest : List Line}
    (placed : lines.drop config.position =
      ⟨.compare right comparison, expression, state, index⟩ :: rest) :
    Silent reading lines config ⟨config.position + 1,
      reading.relation comparison config.held
        (Line.fetch reading ⟨.compare right comparison, expression, state, index⟩
          condition.right right config.progress.state),
      config.held, config.progress⟩ := by
  have next := Line.step_next reading (getElem?_of_drop placed) rfl rfl
  rw [Line.effect] at next
  simp only [header] at next
  exact ⟨next, rfl⟩

theorem run_compare
    (success : state.frame.check [⟨0, condition.left⟩, ⟨0, condition.right⟩] = .ok ())
    (before : List Instruction)
    (lowered : (state.lower expression).code = before ++ (state.frame.compare condition).code)
    {rest : List Line}
    (placed : lines.drop config.position =
      state.numbered expression before.length (state.frame.compare condition).code ++ rest) :
    ∃ last, Relation.TransGen (Silent reading lines) config last ∧
      last.position = config.position + (state.frame.compare condition).code.length ∧
      last.progress = config.progress ∧
      last.flag = reading.relation condition.comparison
        (reading.value condition.left config.progress.state)
          (reading.value condition.right config.progress.state) := by
  obtain ⟨left, right, leftResolves, rightResolves, code⟩ := Frame.code_compare success
  have leftAddressing := (Frame.resolves_of_resolve leftResolves).addressing
  have rightAddressing := (Frame.resolves_of_resolve rightResolves).addressing
  rw [code] at lowered
  rw [code, State.numbered_append, State.numbered, State.numbered_append, State.numbered] at placed
  simp only [List.append_assoc, List.cons_append] at placed
  -- The left operand is put into `f1`.
  have toLeft := @silently_quiet _ _ reading _ _ _ _ (quiet_addressing header leftAddressing) placed
  have atLeft := drop_of_append _ placed
  have behindLeft := drop_of_append [_] atLeft
  have atRight := drop_of_append _ behindLeft
  rw [State.length_numbered, List.length_singleton] at behindLeft
  rw [State.length_numbered, State.length_numbered, List.length_singleton] at atRight
  rw [State.length_numbered] at toLeft atLeft
  have readLeft := @silent_left _ _ reading _
    (config.moveTo (config.position + left.prelude.length)) _ _ _ header _ _ _ atLeft
  rw [Line.fetch_of_resolve reading leftResolves (by rw [lowered, List.append_assoc]) rfl]
    at readLeft
  -- The right operand is compared with what `f1` holds.
  let loaded : Line.Config S V := ⟨config.position + left.prelude.length + 1, config.flag,
    reading.value condition.left config.progress.state, config.progress⟩
  have toRight := @silently_quiet _ _ reading _ loaded _ _
    (quiet_addressing header rightAddressing) behindLeft
  rw [State.length_numbered] at toRight
  have readRight := @silent_right _ _ reading _
    (loaded.moveTo (loaded.position + right.prelude.length)) _ _ _ header _ _ _ _ atRight
  have split : (state.lower expression).code =
      (before ++ left.prelude ++ [.move left.place (.register .f1)]) ++ right.prelude ++
        [.compare right.place condition.comparison] := by
    simp [lowered]
  rw [Line.fetch_of_resolve reading rightResolves split (by simp; omega)] at readRight
  refine ⟨_, .tail' (toLeft.trans (.head readLeft toRight)) readRight, ?_, rfl, rfl⟩
  simp only [Line.Config.moveTo_position, code, List.length_append, List.length_cons,
    List.length_nil, loaded]
  omega

end Header

/-- Behind the first line of a statement nothing is performed. -/
theorem quiet_statement {state : State} {expression : Expression} {first : Nat}
    {code : List Instruction} (plain : expression.condition? = none)
    (straight : ∀ instruction ∈ code, instruction.isStraight) :
    ∀ line ∈ state.numbered expression (first + 1) code, line.isQuiet := by
  intro line member
  obtain ⟨before, after, split, same⟩ := State.code_of_mem_numbered member
  have here := straight line.instruction (by simp [split])
  rw [Line.isQuiet, Instruction.fallsThrough_of_straight here,
    Instruction.target?_of_straight here, same]
  simp only [plain]
  simp

end Runs

/-- The statements that are still to run at a position of the lines. -/
inductive At (lines : List Line) (ordinal : Nat) : Nat → Body → Prop where
  | back {position : Nat} {line : Line} :
      lines[position]? = some line → line.instruction = .jumpBack → At lines ordinal position .done
  | skip {position : Nat} {line : Line} {body : Body} :
      lines[position]? = some line → line.isQuiet → At lines ordinal (position + 1) body →
      At lines ordinal position body
  | again {position target : Nat} {line : Line} {label : Label} {depth : Nat} {body : Body} :
      lines[position]? = some line → line.instruction = .jump label →
      line.expression = .closeBlock depth →
      resolve lines label = some target → At lines ordinal target body →
        At lines ordinal position body
  | code {position depth : Nat} {state : State} {body behind : Body} {tail : List Line} :
      lines.drop position = body.lines depth state ++ tail → body.Accepted depth state →
      state.function = some ordinal →
      At lines ordinal (position + (body.lines depth state).length) behind →
      At lines ordinal position (body.append behind)

section Arrival

variable (reading : Reading S V) (lines : List Line) (ordinal : Nat)

/-- The lines have done what the tree has done, and silently come to what is left of it. -/
def Arrives (config : Line.Config S V) (tree : Body.Config S) : Prop :=
  config.progress = tree.progress ∧
    ∃ last, Silently reading lines config last ∧ At lines ordinal last.position tree.rest

def Follows (config : Line.Config S V) (tree : Body.Config S) : Prop :=
  ∃ next, Line.step reading lines config = some next ∧ Arrives reading lines ordinal next tree

end Arrival

section Steps

variable {reading : Reading S V} {lines : List Line} {ordinal : Nat} {config : Line.Config S V}
  {depth : Nat} {state : State} {behind : Body} {tail : List Line}

theorem Silently.progress {first last : Line.Config S V}
    (silently : Silently reading lines first last) :
    last.progress = first.progress := by
  induction silently with
  | refl => rfl
  | tail _ step ih => exact step.2.trans ih

theorem Silently.reaches {first last : Line.Config S V}
    (silently : Silently reading lines first last) :
    StateTransition.Reaches (Line.step reading lines) first last := by
  induction silently with
  | refl => exact .refl
  | tail _ step ih => exact ih.tail step.1

theorem silent_again {line : Line} {label : Label} {mark target : Nat}
    (here : lines[config.position]? = some line) (jumps : line.instruction = .jump label)
    (closes : line.expression = .closeBlock mark) (found : resolve lines label = some target) :
    Silent reading lines config (config.moveTo target) := by
  have jump := Line.step_jump reading here jumps found
  rw [Line.effect_of_mark (by rw [closes]; rfl) (by rw [closes]; rfl)] at jump
  exact ⟨jump, rfl⟩

theorem Follows.of_silent {last : Line.Config S V} {tree : Body.Config S}
    (silent : Relation.TransGen (Silent reading lines) config last)
    (same : config.progress = tree.progress) (arrived : At lines ordinal last.position tree.rest) :
    Follows reading lines ordinal config tree := by
  obtain ⟨next, step, silently⟩ := Relation.TransGen.head'_iff.mp silent
  exact ⟨next, step.1, step.2.trans same, last, silently, arrived⟩

theorem step_statement {expression : Expression} {instruction : Instruction} {rest : List Line}
    (plain : expression.condition? = none) (statement : expression.isStatement)
    (straight : instruction.isStraight)
    (placed : lines.drop config.position = ⟨instruction, expression, state, 0⟩ :: rest) :
    Line.step reading lines config = some ⟨config.position + 1, config.flag, config.held,
      reading.advance expression config.progress⟩ := by
  rw [Line.step_next reading (getElem?_of_drop placed)
    (Instruction.fallsThrough_of_straight straight) (Instruction.target?_of_straight straight)]
  simp [Line.effect, plain, statement, Line.Config.moveTo]

theorem follows_act {leaf : Leaf} {rest : Body}
    (placed : lines.drop config.position = (Body.act leaf rest).lines depth state ++ tail)
    (accepted : (Body.act leaf rest).Accepted depth state) (inside : state.function = some ordinal)
    (arrived : At lines ordinal
      (config.position + ((Body.act leaf rest).lines depth state).length) behind) :
    Follows reading lines ordinal config
      ⟨rest.append behind, reading.advance leaf.expression config.progress⟩ := by
  obtain ⟨success, acceptedRest⟩ := accepted.act
  have plain : leaf.expression.condition? = none := by cases leaf <;> rfl
  have statement : leaf.expression.isStatement := by cases leaf <;> rfl
  obtain ⟨instruction, others, code⟩ := List.exists_cons_of_ne_nil (State.code_leaf_ne_nil success)
  have straight := state.straight_leaf leaf
  rw [code, List.forall_mem_cons] at straight
  rw [Body.lines, State.lines, code, State.numbered] at placed arrived
  simp only [List.cons_append, List.append_assoc] at placed
  have performed := @step_statement _ _ reading _ _ state _ _ _ plain statement straight.1 placed
  have behindFirst := drop_of_append [_] placed
  let next : Line.Config S V := ⟨config.position + 1, config.flag, config.held,
    reading.advance leaf.expression config.progress⟩
  have ended := @silently_quiet _ _ reading _ next _ _
    (quiet_statement plain straight.2) behindFirst
  refine ⟨next, performed, rfl, _, ended, ?_⟩
  refine .code (drop_of_append _ behindFirst) acceptedRest ?_ ?_
  · rw [State.state_leaf]
    exact inside
  · convert arrived using 1
    simp [next]
    omega

/-- A return jumps to the exit of the function, wherever it stands. -/
theorem follows_leave {value : Operand} {rest : Body} {exit : Nat}
    (placed : lines.drop config.position = (Body.leave value rest).lines depth state ++ tail)
    (accepted : (Body.leave value rest).Accepted depth state)
    (inside : state.function = some ordinal)
    (found : resolve lines (.functionExit ordinal) = some exit)
    (ended : At lines ordinal exit .done) :
    Follows reading lines ordinal config
      ⟨.done, reading.advance (.returnValue value) config.progress⟩ := by
  obtain ⟨loaded, straight, _, some, code⟩ := State.code_returnValue accepted.leave.1
  obtain ⟨instruction, others, rfl⟩ := List.exists_cons_of_ne_nil some
  rw [State.returnJump_inside inside, ← List.append_assoc, List.cons_append,
    List.cons_append] at code
  rw [Body.lines, State.lines, code, State.numbered, State.numbered_append,
    State.numbered] at placed
  simp only [List.cons_append, List.append_assoc] at placed
  rw [List.forall_mem_cons] at straight
  have performed := @step_statement _ _ reading _ _ state _ _ _ rfl rfl straight.1 placed
  have behindFirst := drop_of_append [_] placed
  let next : Line.Config S V := ⟨config.position + 1, config.flag, config.held,
    reading.advance (.returnValue value) config.progress⟩
  have taken :
      ∀ instruction ∈ others ++ Instruction.reserveCells (state.functionCells - state.frame.locals),
        instruction.isStraight := by
    rw [List.forall_mem_append]
    exact ⟨straight.2, Instruction.isStraight_of_mem_reserveCells⟩
  have atJump := drop_of_append _ behindFirst
  have silently := @silently_quiet _ _ reading _ next _ _ (quiet_statement rfl taken) behindFirst
  have jump := @Line.step_jump _ _ reading _ (next.moveTo _) _ _ _
    (getElem?_of_drop atJump) rfl found
  refine ⟨next, performed, rfl, _, silently.tail ⟨jump, ?_⟩, ended⟩
  simp [Line.effect, Expression.condition?]

theorem silent_opener {label : Label} {target : Nat} {inner : Nat} {index : Nat} {rest : List Line}
    (placed : lines.drop config.position = ⟨.jumpIf label, .openBlock inner, state, index⟩ :: rest)
    (found : resolve lines label = some target) :
    Silent reading lines config
      (config.moveTo (if config.flag then target else config.position + 1)) := by
  cases flag : config.flag with
  | true =>
      have taken := Line.step_jumpIf_taken reading (getElem?_of_drop placed) rfl flag found
      rw [Line.effect_of_mark rfl rfl] at taken
      exact ⟨taken, rfl⟩
  | false =>
      have skipped := Line.step_jumpIf_skipped reading (getElem?_of_drop placed) rfl flag
      rw [Line.effect_of_mark rfl rfl] at skipped
      exact ⟨skipped, rfl⟩

theorem relation_skipping (test : Test) (current : S) :
    reading.relation test.skipping.comparison (reading.value test.skipping.left current)
      (reading.value test.skipping.right current) = !reading.holds test current :=
  reading.complementary test.comparison _ _

theorem follows_branch (once : DefinedOnce lines) {test : Test} {inner rest : Body}
    (placed : lines.drop config.position = (Body.branch test inner rest).lines depth state ++ tail)
    (accepted : (Body.branch test inner rest).Accepted depth state)
    (inside : state.function = some ordinal)
    (arrived : At lines ordinal
      (config.position + ((Body.branch test inner rest).lines depth state).length) behind) :
    Follows reading lines ordinal config
      ⟨if reading.holds test config.progress.state then
          inner.append (rest.append behind)
        else rest.append behind, config.progress⟩ := by
  obtain ⟨success, acceptedInner, acceptedRest⟩ := accepted.branch
  have opener : state.intoBranch.lines (.openBlock (depth + 1)) =
      [⟨.jumpIf (.branchEnd state.counters.branches), .openBlock (depth + 1),
        state.intoBranch, 0⟩] := rfl
  have closer : (inner.after state.intoBranch).lines (.closeBlock (depth + 1)) =
      [⟨.define (.branchEnd state.counters.branches), .closeBlock (depth + 1),
        inner.after state.intoBranch, 0⟩] := by
    rw [State.lines, Body.code_closeBranch]
    rfl
  simp only [Body.lines, opener, closer, List.append_assoc, List.singleton_append] at placed arrived
  rw [State.lines, State.code_branch] at placed arrived
  -- The header sets the flag if the block is to be skipped.
  obtain ⟨headed, silent, position, same, flag⟩ :=
    @run_compare _ _ reading lines config state _ _ rfl success [] (state.code_branch _) _ placed
  have atOpener := drop_of_append _ placed
  have atInner := drop_of_append [_] atOpener
  have atCloser := drop_of_append _ atInner
  have atRest := drop_of_append [_] atCloser
  have found := resolve_eq_some once rfl (getElem?_of_drop atCloser) rfl
  rw [State.length_numbered, ← position] at atOpener atInner atCloser atRest found
  have jump := @silent_opener _ _ reading _ headed _ _ _ _ _ _ atOpener found
  have restAt : At lines ordinal _ (rest.append behind) :=
    .code atRest acceptedRest (by simpa using inside) (by
      convert arrived using 1
      simp [position]
      omega)
  have closerAt := At.skip (getElem?_of_drop atCloser) rfl restAt
  refine .of_silent (silent.tail jump) rfl ?_
  rw [flag, relation_skipping]
  cases reading.holds test config.progress.state with
  | true => exact .code atInner acceptedInner inside closerAt
  | false => exact closerAt

/-- The closer of a loop jumps back to the header, which reads the operands again. -/
theorem follows_loop (once : DefinedOnce lines) {test : Test} {inner rest : Body}
    (placed : lines.drop config.position = (Body.loop test inner rest).lines depth state ++ tail)
    (accepted : (Body.loop test inner rest).Accepted depth state)
    (inside : state.function = some ordinal)
    (arrived : At lines ordinal
      (config.position + ((Body.loop test inner rest).lines depth state).length) behind) :
    Follows reading lines ordinal config
      ⟨if reading.holds test config.progress.state then
          inner.append ((Body.loop test inner rest).append behind)
        else rest.append behind, config.progress⟩ := by
  have headAt := At.code placed accepted inside arrived
  obtain ⟨success, acceptedInner, acceptedRest⟩ := accepted.loop
  have opener : state.intoLoop.lines (.openBlock (depth + 1)) =
      [⟨.jumpIf (.loopExit state.counters.loopExits), .openBlock (depth + 1),
        state.intoLoop, 0⟩] := rfl
  have closer : (inner.after state.intoLoop).lines (.closeBlock (depth + 1)) =
      [⟨.jump (.loopHead state.counters.loopHeads), .closeBlock (depth + 1),
        inner.after state.intoLoop, 0⟩,
        ⟨.define (.loopExit state.counters.loopExits), .closeBlock (depth + 1),
          inner.after state.intoLoop, 1⟩] := by
    rw [State.lines, Body.code_closeLoop]
    rfl
  simp only [Body.lines, opener, closer, List.append_assoc, List.singleton_append] at placed arrived
  rw [State.lines, State.code_loop, State.numbered] at placed arrived
  -- Behind its label the header sets the flag if the loop is to be left.
  have atCompare := drop_of_append [_] placed
  have head := @silent_quiet _ _ reading _ _ _ (getElem?_of_drop placed) rfl
  obtain ⟨headed, silent, position, same, flag⟩ :=
    @run_compare _ _ reading lines (config.moveTo (config.position + 1)) state _ _ rfl success [_]
      (state.code_loop _) _ atCompare
  have atOpener := drop_of_append _ atCompare
  have atInner := drop_of_append [_] atOpener
  have atCloser := drop_of_append _ atInner
  have atExit := drop_of_append [_] atCloser
  have atRest := drop_of_append [_] atExit
  have foundHead := resolve_eq_some once rfl (getElem?_of_drop placed) rfl
  have foundExit := resolve_eq_some once rfl (getElem?_of_drop atExit) rfl
  rw [Line.Config.moveTo_position] at position
  rw [State.length_numbered, List.length_singleton, ← position]
    at atOpener atInner atCloser atExit atRest foundExit
  have jump := @silent_opener _ _ reading _ headed _ _ _ _ _ _ atOpener foundExit
  have restAt : At lines ordinal _ (rest.append behind) :=
    .code atRest acceptedRest (by simpa using inside) (by
      convert arrived using 1
      simp [position]
      omega)
  have exitAt := At.skip (getElem?_of_drop atExit) rfl restAt
  -- Behind the block the whole loop is to be run again, from where it started.
  have closerAt := At.again (getElem?_of_drop atCloser) rfl rfl foundHead headAt
  refine .of_silent (.head head (silent.tail jump)) rfl ?_
  rw [flag, relation_skipping, Line.Config.moveTo_progress]
  cases reading.holds test config.progress.state with
  | true => exact .code atInner acceptedInner inside closerAt
  | false => exact exitAt

end Steps

open StateTransition (Reaches)

/-- Lines whose labels are clear and in which the exit of a function ends its run. -/
structure HasExit (lines : List Line) (ordinal : Nat) : Prop where
  once : DefinedOnce lines
  exit : ∃ position, resolve lines (.functionExit ordinal) = some position ∧
    At lines ordinal position .done

namespace HasExit

variable {reading : Reading S V} {lines : List Line} {ordinal : Nat} (laid : HasExit lines ordinal)

include laid

theorem follows_code {config : Line.Config S V} {depth : Nat} {state : State} {body behind : Body}
    {tail : List Line} (placed : lines.drop config.position = body.lines depth state ++ tail)
    (accepted : body.Accepted depth state) (inside : state.function = some ordinal)
    (arrived : At lines ordinal (config.position + (body.lines depth state).length) behind)
    (some : body ≠ .done) :
    ∃ tree, Body.step reading ⟨body.append behind, config.progress⟩ = .some tree ∧
      Follows reading lines ordinal config tree := by
  cases body with
  | done => exact absurd rfl some
  | act leaf rest => exact ⟨_, rfl, follows_act placed accepted inside arrived⟩
  | leave value rest =>
      obtain ⟨exit, found, ended⟩ := laid.exit
      exact ⟨_, rfl, follows_leave placed accepted inside found ended⟩
  | branch test inner rest =>
      refine ⟨_, ?_, follows_branch laid.once placed accepted inside arrived⟩
      simp only [Body.append, Body.step]
      split <;> rfl
  | loop test inner rest =>
      refine ⟨_, ?_, follows_loop laid.once placed accepted inside arrived⟩
      simp only [Body.append, Body.step]
      split <;> rfl

/-- One step of the lines from a position that stands for a tree: the run is over, or
nothing is performed, or the tree takes its step. -/
theorem step {position : Nat} {body : Body} (arrived : At lines ordinal position body)
    {config : Line.Config S V} (here : config.position = position) :
    (∃ line, lines[position]? = some line ∧ line.instruction = .jumpBack) ∧ body = .done ∨
      ∃ next, Line.step reading lines config = some next ∧
        (Arrives reading lines ordinal next ⟨body, config.progress⟩ ∨
          ∃ tree, Body.step reading ⟨body, config.progress⟩ = some tree ∧
            Arrives reading lines ordinal next tree) := by
  induction arrived generalizing config with
  | back line leaves => exact Or.inl ⟨⟨_, line, leaves⟩, rfl⟩
  | skip line quiet behind _ =>
      subst here
      have silent := @silent_quiet _ _ reading _ _ _ line quiet
      exact Or.inr ⟨_, silent.1, Or.inl ⟨rfl, _, .refl, behind⟩⟩
  | again line jumps mark target behind _ =>
      subst here
      exact Or.inr ⟨_, (silent_again line jumps mark target).1, Or.inl ⟨rfl, _, .refl, behind⟩⟩
  | @code position depth state body behind tail placed accepted inside arrived ih =>
      -- A body that is done has no lines, so the position already belongs to what follows.
      by_cases empty : body = .done
      · subst empty
        exact ih here
      · subst here
        obtain ⟨tree, step, next, taken, arrives⟩ :=
          laid.follows_code placed accepted inside arrived empty
        exact Or.inr ⟨next, taken, Or.inr ⟨tree, step, arrives⟩⟩

/-- What the tree does next, the lines come to do. -/
theorem forward {position : Nat} {body : Body} (arrived : At lines ordinal position body)
    {config : Line.Config S V} (here : config.position = position) {tree : Body.Config S}
    (step : Body.step reading ⟨body, config.progress⟩ = some tree) :
    ∃ last, Reaches (Line.step reading lines) config last ∧ last.progress = tree.progress ∧
      At lines ordinal last.position tree.rest := by
  induction arrived generalizing config with
  | back line leaves => cases step
  | skip line quiet _ ih =>
      subst here
      have silent := @silent_quiet _ _ reading _ _ _ line quiet
      obtain ⟨last, reaches, arrived⟩ := @ih (config.moveTo (config.position + 1)) rfl step
      exact ⟨last, .head silent.1 reaches, arrived⟩
  | again line jumps mark target _ ih =>
      subst here
      have silent := @silent_again _ _ reading _ _ _ _ _ _ line jumps mark target
      obtain ⟨last, reaches, arrived⟩ := @ih (config.moveTo _) rfl step
      exact ⟨last, .head silent.1 reaches, arrived⟩
  | @code position depth state body behind tail placed accepted inside arrived ih =>
      by_cases empty : body = .done
      · subst empty
        exact ih here step
      · subst here
        obtain ⟨other, again, next, taken, same, last, silently, arrives⟩ :=
          laid.follows_code placed accepted inside arrived empty
        cases again.symm.trans step
        exact ⟨last, .head taken silently.reaches, silently.progress.trans same, arrives⟩

theorem reaches_lines {tree last : Body.Config S} (reaches : Reaches (Body.step reading) tree last)
    {config : Line.Config S V} (same : config.progress = tree.progress)
    (arrived : At lines ordinal config.position tree.rest) :
    ∃ final, Reaches (Line.step reading lines) config final ∧ final.progress = last.progress ∧
      At lines ordinal final.position last.rest := by
  induction reaches with
  | refl => exact ⟨config, .refl, same, arrived⟩
  | @tail middle last _ step ih =>
      obtain ⟨halfway, reached, progress, arrived⟩ := ih
      have step : Body.step reading ⟨middle.rest, halfway.progress⟩ = some last := by
        rw [progress]
        exact step
      obtain ⟨final, more, done⟩ := laid.forward arrived rfl step
      exact ⟨final, reached.trans more, done⟩

theorem reaches_tree {first last : Line.Config S V} {tree : Body.Config S}
    (reaches : Reaches (Line.step reading lines) first last)
    (arrives : Arrives reading lines ordinal first tree) :
    ∃ final, Reaches (Body.step reading) tree final ∧ Arrives reading lines ordinal last final := by
  induction reaches with
  | refl => exact ⟨tree, .refl, arrives⟩
  | @tail middle last _ step ih =>
      obtain ⟨halfway, reached, same, target, silently, arrived⟩ := ih
      rcases Relation.ReflTransGen.cases_head silently with rfl | ⟨next, silent, rest⟩
      · -- The lines are where the tree is, so the next step is the tree's or silent.
        rcases @HasExit.step _ _ reading _ _ laid _ _ arrived _ rfl with
          ⟨⟨line, here, leaves⟩, _⟩ | ⟨next, taken, arrives⟩
        · have stopped := Line.step_jumpBack reading here leaves
          rw [stopped] at step
          cases step
        · cases Option.some.inj (taken.symm.trans step)
          rw [same] at arrives
          rcases arrives with arrives | ⟨tree, taken, arrives⟩
          · exact ⟨halfway, reached, arrives⟩
          · exact ⟨tree, reached.tail taken, arrives⟩
      · -- The lines are still on their way.
        cases Option.some.inj (silent.1.symm.trans step)
        exact ⟨halfway, reached, silent.2.trans same, target, rest, arrived⟩

theorem finished {config : Line.Config S V} {tree : Body.Config S} {line : Line}
    (arrives : Arrives reading lines ordinal config tree)
    (here : lines[config.position]? = some line) (leaves : line.instruction = .jumpBack) :
    tree.rest = .done := by
  obtain ⟨same, target, silently, arrived⟩ := arrives
  have stopped := Line.step_jumpBack reading here leaves
  rcases Relation.ReflTransGen.cases_head silently with rfl | ⟨next, silent, _⟩
  · rcases @HasExit.step _ _ reading _ _ laid _ _ arrived _ rfl with ⟨_, empty⟩ | ⟨next, taken, _⟩
    · exact empty
    · rw [stopped] at taken
      cases taken
  · rw [silent.1] at stopped
    cases stopped

end HasExit

theorem At.finish {reading : Reading S V} {lines : List Line} {ordinal position : Nat} {body : Body}
    (arrived : At lines ordinal position body) (empty : body = .done) {config : Line.Config S V}
    (here : config.position = position) :
    ∃ last line, Reaches (Line.step reading lines) config last ∧ last.progress = config.progress ∧
      lines[last.position]? = some line ∧ line.instruction = .jumpBack := by
  induction arrived generalizing config with
  | back line leaves =>
      subst here
      exact ⟨config, _, .refl, rfl, line, leaves⟩
  | skip line quiet _ ih =>
      subst here
      have silent := @silent_quiet _ _ reading _ _ _ line quiet
      obtain ⟨last, back, reaches, same, leaves⟩ :=
        @ih empty (config.moveTo (config.position + 1)) rfl
      exact ⟨last, back, .head silent.1 reaches, same, leaves⟩
  | again line jumps mark target _ ih =>
      subst here
      have silent := @silent_again _ _ reading _ _ _ _ _ _ line jumps mark target
      obtain ⟨last, back, reaches, same, leaves⟩ := @ih empty (config.moveTo _) rfl
      exact ⟨last, back, .head silent.1 reaches, same, leaves⟩
  | @code position depth state body behind tail placed accepted inside arrived ih =>
      cases body with
      | done => exact ih empty here
      | _ => cases empty

namespace HasExit

variable {reading : Reading S V} {lines : List Line} {ordinal : Nat} (laid : HasExit lines ordinal)
  {config : Line.Config S V} {body : Body} (arrived : At lines ordinal config.position body)
    (progress : Progress S)

include laid arrived

theorem performs_iff :
    (∃ final, Reaches (Line.step reading lines) config final ∧ final.progress = progress) ↔
      ∃ rest, Reaches (Body.step reading) ⟨body, config.progress⟩ ⟨rest, progress⟩ := by
  constructor
  · rintro ⟨final, reaches, rfl⟩
    have arrives : Arrives reading lines ordinal config ⟨body, config.progress⟩ :=
      ⟨rfl, config, .refl, arrived⟩
    obtain ⟨tree, reached, same, _⟩ := laid.reaches_tree reaches arrives
    exact ⟨tree.rest, by rw [same]; exact reached⟩
  · rintro ⟨rest, reaches⟩
    obtain ⟨final, reached, same, _⟩ := laid.reaches_lines reaches rfl arrived
    exact ⟨final, reached, same⟩

theorem jumpsBack_iff :
    (∃ final line, Reaches (Line.step reading lines) config final ∧
        lines[final.position]? = some line ∧ line.instruction = .jumpBack ∧
        final.progress = progress) ↔
      Reaches (Body.step reading) ⟨body, config.progress⟩ ⟨.done, progress⟩ := by
  constructor
  · rintro ⟨final, line, reaches, here, leaves, rfl⟩
    have arrives : Arrives reading lines ordinal config ⟨body, config.progress⟩ :=
      ⟨rfl, config, .refl, arrived⟩
    obtain ⟨tree, reached, arrives⟩ := laid.reaches_tree reaches arrives
    have empty := laid.finished arrives here leaves
    rw [arrives.1, ← empty]
    exact reached
  · intro reaches
    obtain ⟨halfway, reached, same, ended⟩ := laid.reaches_lines reaches rfl arrived
    obtain ⟨final, line, more, kept, leaves⟩ := @At.finish _ _ reading _ _ _ _ ended rfl _ rfl
    exact ⟨final, line, reached.trans more, leaves.1, leaves.2, kept.trans same⟩

end HasExit

/-! Where a function stands. -/

section Function

variable {lines tail : List Line} {state : State} {name : String} {parameters : List Parameter}
  {body : Body} {start : Nat}

theorem drop_function
    (placed : lines.drop start = (Item.function name parameters body).lines state ++ tail) :
    lines.drop (start + 1) = body.lines 1 (state.intoFunction name parameters body.cells) ++
      ((body.after (state.intoFunction name parameters body.cells)).lines (.closeBlock 1) ++
        tail) := by
  rw [Item.lines] at placed
  simp only [List.append_assoc] at placed
  exact drop_of_append _ placed

theorem at_exit {left : State} {ordinal position : Nat}
    (code : (left.lower (.closeBlock 1)).code = left.leaveFunction ordinal)
    (placed : lines.drop position = left.lines (.closeBlock 1) ++ tail) :
    At lines ordinal position .done := by
  rw [State.lines, code, State.leaveFunction, Instruction.releaseCells] at placed
  split at placed
  · have atRelease := drop_of_append [_] placed
    have atBack := drop_of_append [_] atRelease
    exact .skip (getElem?_of_drop placed) rfl (.skip (getElem?_of_drop atRelease) rfl
      (.back (getElem?_of_drop atBack) rfl))
  · have atBack := drop_of_append [_] placed
    exact .skip (getElem?_of_drop placed) rfl (.back (getElem?_of_drop atBack) rfl)

theorem hasExit_function (once : DefinedOnce lines)
    (placed : lines.drop start = (Item.function name parameters body).lines state ++ tail) :
    HasExit lines (state.counters.functions + 1) := by
  have atExit := drop_of_append _ (drop_function placed)
  have code := body.code_closeFunction state 1 name parameters body.cells
  refine ⟨once, _, ?_, at_exit code atExit⟩
  rw [State.lines, code, State.leaveFunction, List.append_assoc, List.singleton_append,
    State.numbered] at atExit
  exact resolve_eq_some once rfl (getElem?_of_drop atExit) rfl

theorem at_function (accepted : (Item.function name parameters body).check = .ok ())
    (placed : lines.drop start = (Item.function name parameters body).lines state ++ tail) :
    At lines (state.counters.functions + 1) start body := by
  have atBody := drop_function placed
  have exitAt := at_exit (body.code_closeFunction state 1 name parameters body.cells)
    (drop_of_append _ atBody)
  have bodyAt := At.code atBody accepted rfl exitAt
  rw [Body.append_done] at bodyAt
  rw [Item.lines] at placed
  simp only [List.append_assoc] at placed
  exact .skip (getElem?_of_drop placed) rfl bodyAt

end Function
end Lowering

namespace Compilation

open Lowering (Line)
open StateTransition (Reaches)

/-- The lines of a function, run from its label, perform what its tree performs, and
jump back where the tree is done. -/
theorem lines_simulate_outline {sources : List Source} {compilation : Compilation}
    (compiled : ofSources sources = .ok compilation) :
    (∃ outlines, List.Forall₂ Source.Reads sources outlines) ∧
      ∀ outlines, List.Forall₂ Source.Reads sources outlines →
        ∃ lines last, Program.trace (Outline.linked outlines).expressions = .ok (lines, last) ∧
          lines.map (·.instruction) = compilation.body ∧
          ∀ before name parameters body after,
            Outline.linked outlines = before ++ .function name parameters body :: after →
            ∃ start, start = (Outline.lines .start before).length ∧
              compilation.body[start]? = some (.define (.named name)) ∧
              ∀ (S V : Type) (reading : Reading S V) (state : S) (flag : Bool) (held : V)
                (progress : Progress S),
                  ((∃ final,
                    Reaches (Line.step reading lines) ⟨start, flag, held, ⟨state, []⟩⟩ final ∧
                    final.progress = progress) ↔
                  ∃ rest, Reaches (Body.step reading) ⟨body, ⟨state, []⟩⟩ ⟨rest, progress⟩) ∧
                ((∃ final,
                    Reaches (Line.step reading lines) ⟨start, flag, held, ⟨state, []⟩⟩ final ∧
                    compilation.body[final.position]? = some .jumpBack ∧
                    final.progress = progress) ↔
                  Reaches (Body.step reading) ⟨body, ⟨state, []⟩⟩ ⟨.done, progress⟩) := by
  refine ⟨exists_reads_of_compiled compiled, fun outlines reads => ?_⟩
  obtain ⟨checked, code⟩ := accepted_of_reads reads compiled
  refine ⟨(Outline.linked outlines).lines .start, (Outline.linked outlines).after .start,
    ?_, code.symm, ?_⟩
  · rw [Program.trace_outline, checked]
    rfl
  intro before name parameters body after stands
  have accepted : (Item.function name parameters body).check = .ok () :=
    Outline.check_eq_ok_iff.mp checked _ (by rw [stands]; simp)
  have placed : ((Outline.linked outlines).lines .start).drop (Outline.lines .start before).length =
      (Item.function name parameters body).lines (Outline.after .start before) ++
        Outline.lines ((Item.function name parameters body).after (Outline.after .start before))
          after := by
    rw [stands, Outline.lines_append, List.drop_left, Outline.lines]
  have laid := Lowering.hasExit_function (Outline.definedOnce checked .start) placed
  have arrived := Lowering.at_function accepted placed
  refine ⟨_, rfl, ?_, fun S V reading state flag held progress =>
    ⟨laid.performs_iff arrived progress, ?_⟩⟩
  · rw [Item.lines] at placed
    simp only [List.append_assoc] at placed
    rw [code, List.getElem?_map, getElem?_of_drop placed]
    rfl
  · rw [code]
    refine Iff.trans ?_ (@laid.jumpsBack_iff _ _ reading _ _
      ⟨_, flag, held, ⟨state, []⟩⟩ _ arrived progress)
    constructor
    · rintro ⟨final, reaches, leaves, same⟩
      rw [List.getElem?_map, Option.map_eq_some_iff] at leaves
      obtain ⟨line, here, back⟩ := leaves
      exact ⟨final, line, reaches, here, back, same⟩
    · rintro ⟨final, line, reaches, here, back, same⟩
      exact ⟨final, reaches, by rw [List.getElem?_map, here, Option.map_some, back], same⟩

end Compilation

def Reading.counting : Reading Nat Nat where
  value
    | .constant text, _ => (Text.Decimal.readBelow? addressLimit text.toList).getD 0
    | _, count => count
  stray _ count := count
  relation
    | .clo, left, right => left == right
    | .niv, left, right => left != right
    | .xtlo, left, right | .xtlonys, left, right => left ≤ right
    | .llo, left, right | .llonys, left, right => right < left
    | .xylo, left, right | .xylonys, left, right => left < right
    | .xolo, left, right | .xolonys, left, right => right ≤ left
  perform
    | .raw _ _, count => count + 1
    | _, count => count
  complementary comparison left right := by
    cases comparison <;> simp [Comparison.complement, bne, ← decide_not]

namespace Compilation

open Lowering
open StateTransition (Reaches)

/-- Two rounds of a loop, and then a return. -/
theorem lines_simulate_counting :
    let source : Source := ⟨"", "cersva f x rinyv fal x niv 3 rinyv ata 1 x situv dosnud x situv"⟩
    let x := Operand.variable "x" .zero
    let increment := Expression.raw .ata [.constant "1", x]
    (ofSources [source]).isOk = true ∧
      ∃ compilation lines, ofSources [source] = .ok compilation ∧
        lines.map Line.instruction = compilation.body ∧ ∃ final,
          Reaches (Line.step Reading.counting lines) ⟨0, false, 0, ⟨1, []⟩⟩ final ∧
          compilation.body[final.position]? = some .jumpBack ∧
          final.progress = ⟨3, [increment, increment, .returnValue x]⟩ := by
  intro source x increment
  let test : Test := ⟨x, .niv, .constant "3"⟩
  let inner : Body := .act (.raw .ata [.constant "1", x]) .done
  let body : Body := .loop test inner (.leave x .done)
  have words : Word.ofSource source.text =
    [⟨"cersva", 0⟩, ⟨"f", 7⟩, ⟨"x", 9⟩, ⟨"rinyv", 11⟩, ⟨"fal", 17⟩, ⟨"x", 21⟩,
      ⟨"niv", 23⟩, ⟨"3", 27⟩, ⟨"rinyv", 29⟩, ⟨"ata", 35⟩, ⟨"1", 39⟩, ⟨"x", 41⟩, ⟨"situv", 43⟩,
      ⟨"dosnud", 49⟩, ⟨"x", 56⟩, ⟨"situv", 58⟩] := by
    decide +kernel
  have innerSpelled : Body.Spelled [⟨"ata", 35⟩, ⟨"1", 39⟩, ⟨"x", 41⟩] inner :=
    @Body.Spelled.act [⟨"ata", 35⟩, ⟨"1", 39⟩, ⟨"x", 41⟩] [] _ _
      (.raw (by decide +kernel) rfl (by decide +kernel)) .done
  have testSpelled : Test.Spelled [⟨"x", 21⟩, ⟨"niv", 23⟩, ⟨"3", 27⟩] test :=
    .words (by decide +kernel) (by decide +kernel) (by decide +kernel)
  have bodySpelled := @Body.Spelled.loop ⟨"fal", 17⟩ ⟨"rinyv", 29⟩ ⟨"situv", 43⟩
    _ _ _ _ _ _ rfl testSpelled rfl innerSpelled rfl
    (@Body.Spelled.leave ⟨"dosnud", 49⟩ ⟨"x", 56⟩ _ x _ rfl (by decide +kernel) .done)
  have spelled := @Outline.Spelled.function ⟨"cersva", 0⟩ ⟨"f", 7⟩ ⟨"rinyv", 11⟩ ⟨"situv", 58⟩
    [⟨"x", 9⟩] _ _ "f" [⟨"x", false⟩] _ _ rfl (by decide +kernel) (by decide +kernel)
    (by decide +kernel) (by decide +kernel) rfl
    bodySpelled rfl .done
  have reads : source.Reads [.function "f" [⟨"x", false⟩] body] := by
    rw [Source.Reads, words]
    exact spelled
  have isOk : (ofSources [source]).isOk = true := by decide +kernel
  refine ⟨isOk, ?_⟩
  cases accepted : ofSources [source] with
  | error error =>
      rw [accepted] at isOk
      cases isOk
  | ok compilation =>
      obtain ⟨_, simulated⟩ := lines_simulate_outline accepted
      obtain ⟨lines, _, _, same, functions⟩ := simulated _ (.cons reads .nil)
      obtain ⟨start, rfl, _, agrees⟩ := functions [] "f" [⟨"x", false⟩] body [] rfl
      refine ⟨compilation, lines, rfl, same, ?_⟩
      refine (agrees Nat Nat Reading.counting 1 false 0 _).2.mpr ?_
      -- The condition holds of 1 and 2 and not of 3.
      have round (count : Nat) (performed : List Expression)
        (more : Reading.counting.holds test count) :
          Reaches (Body.step Reading.counting) ⟨body, ⟨count, performed⟩⟩
            ⟨body, ⟨count + 1, performed ++ [increment]⟩⟩ :=
        .head (by simp [Body.step, body, more]; rfl) (.single rfl)
      refine (round 1 [] (by decide +kernel)).trans ((round 2 _ (by decide +kernel)).trans ?_)
      exact .head (show Body.step Reading.counting _ = some ⟨.leave x .done, _⟩ by rfl)
        (.single rfl)

end Compilation
end TinkaCompiler
