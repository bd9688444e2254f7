import TinkaCompiler.Proofs.Stages

/-! Programs against their steps.

Lowering a program differs from lowering its expressions one by one in that the cells of a
function are known from its header on. They are used by returns only, so everything else is
the same, and a return inside a function has at most one more line. -/

set_option autoImplicit false

namespace TinkaCompiler
namespace Lowering

/-! Steps that do not know the cells of their function. -/

def State.forgetting (state : State) : State :=
  { state with functionCells := 0 }

def Step.forgetting (step : Step) : Step :=
  { step with state := step.state.forgetting }

theorem Step.forgetting_ofEmission (emission : Emission Unit) (kept next : State) :
    (Step.ofEmission emission kept next).forgetting =
      Step.ofEmission emission kept.forgetting next.forgetting := by
  unfold Step.ofEmission
  cases emission.outcome <;> rfl

namespace State

theorem forgetting_anticipate (state : State) (rest : List Expression) (expression : Expression) :
    (Program.anticipate state rest expression).forgetting = state.forgetting := by
  cases expression <;> rfl

theorem openBlock_forgetting (state : State) :
    state.forgetting.openBlock = state.openBlock.forgetting := by
  obtain ⟨frame, blocks, counters, function, cells, outside⟩ := state
  rcases blocks with _ | ⟨_ | _ | _ | _, rest⟩ <;> rfl

theorem closeBlock_forgetting (state : State) :
    state.forgetting.closeBlock = state.closeBlock.forgetting := by
  obtain ⟨frame, blocks, counters, function, cells, outside⟩ := state
  rcases blocks with _ | ⟨_ | _ | _ | _, rest⟩
  case cons.loopExit => rcases rest with _ | ⟨_ | _ | _ | _, rest⟩ <;> rfl
  all_goals rfl

/-- Only a return inside a function uses the cells of the function. -/
theorem lower_forgetting {state : State} {expression : Expression}
    (other : ∀ value, expression = .returnValue value → state.function = none) :
    state.forgetting.lower expression = (state.lower expression).forgetting := by
  cases expression with
  | exportLabel label => rfl
  | importLabel label => rfl
  | declare name pointer length => rfl
  | branch condition =>
      simp only [lower, branch, Step.forgetting_ofEmission]
      rfl
  | loop condition =>
      simp only [lower, loop, Step.forgetting_ofEmission]
      rfl
  | openBlock depth => exact state.openBlock_forgetting
  | closeBlock depth => exact state.closeBlock_forgetting
  | function name parameters => rfl
  | returnValue value =>
      have same : state.forgetting.returnJump = state.returnJump := by
        simp only [returnJump, forgetting, other value rfl]
      simp only [lower, returnValue, Step.forgetting_ofEmission, same]
      rfl
  | call function arguments destination => exact (Step.forgetting_ofEmission _ _ _).symm
  | raw mnemonic operands => exact (Step.forgetting_ofEmission _ _ _).symm

theorem other_or_return (state : State) (expression : Expression) :
    (∀ value, expression = .returnValue value → state.function = none) ∨
      ∃ value ordinal, expression = .returnValue value ∧ state.function = some ordinal := by
  cases function : state.function with
  | none => exact Or.inl fun _ _ => rfl
  | some ordinal =>
      by_cases returns : ∃ value, expression = .returnValue value
      · obtain ⟨value, same⟩ := returns
        exact Or.inr ⟨value, ordinal, same, rfl⟩
      · exact Or.inl fun value same => absurd ⟨value, same⟩ returns

theorem error_forgetting (state : State) (expression : Expression) :
    (state.forgetting.lower expression).error = (state.lower expression).error := by
  rcases state.other_or_return expression with other | ⟨value, _, rfl, _⟩
  · rw [lower_forgetting other]
    rfl
  · rw [error_returnValue, error_returnValue]
    rfl

theorem state_forgetting {state : State} {expression : Expression}
    (success : (state.lower expression).error = none) :
    (state.forgetting.lower expression).state = (state.lower expression).state.forgetting := by
  rcases state.other_or_return expression with other | ⟨value, ordinal, rfl, function⟩
  · rw [lower_forgetting other]
    rfl
  · -- A return inside a function leaves the state as it is.
    have inside : state.function.isSome := by rw [function]; rfl
    rw [error_returnValue] at success
    rw [state_returnValue inside (failure_eq_none success)]
    exact state_returnValue inside (failure_eq_none success)

end State

/-! The header of the function that a state is in. -/

theorem Step.function_ofEmission (emission : Emission Unit) {kept next : State}
    (function : kept.function = next.function) (cells : kept.functionCells = next.functionCells) :
    (Step.ofEmission emission kept next).state.function = next.function ∧
      (Step.ofEmission emission kept next).state.functionCells = next.functionCells := by
  unfold Step.ofEmission
  cases emission.outcome with
  | ok _ => exact ⟨rfl, rfl⟩
  | error _ => exact ⟨function, cells⟩

theorem State.function_lower (state : State) {expression : Expression}
    (plain : expression.isFunction = false) :
    ((state.lower expression).state.function = state.function ∧
        (state.lower expression).state.functionCells = state.functionCells) ∨
      (state.lower expression).state.function = none := by
  cases expression with
  | function name parameters => cases plain
  | branch condition => exact Or.inl (Step.function_ofEmission _ rfl rfl)
  | loop condition => exact Or.inl (Step.function_ofEmission _ rfl rfl)
  | returnValue value => exact Or.inl (Step.function_ofEmission _ rfl rfl)
  | call function arguments destination => exact Or.inl (Step.function_ofEmission _ rfl rfl)
  | raw mnemonic operands => exact Or.inl (Step.function_ofEmission _ rfl rfl)
  | openBlock depth =>
      rw [lower, openBlock]
      split <;> exact Or.inl ⟨rfl, rfl⟩
  | closeBlock depth =>
      rw [lower, closeBlock]
      split
      case h_3 => exact Or.inr rfl
      all_goals exact Or.inl ⟨rfl, rfl⟩
  | _ => exact Or.inl ⟨rfl, rfl⟩

open Program (declaredCells anticipate)

/-- The header of the function with an ordinal is the last that was passed, and this is what
was passed behind it. -/
structure Latest (ordinal : Nat) (passed middle : List Expression) : Prop where
  header : ∃ front name parameters, passed = front ++ .function name parameters :: middle ∧
    ordinal = front.countP Expression.isFunction + 1
  inside : ∀ expression ∈ middle, expression.isFunction = false

theorem Latest.append {ordinal : Nat} {passed middle : List Expression} {expression : Expression}
    (latest : Latest ordinal passed middle) (plain : expression.isFunction = false) :
    Latest ordinal (passed ++ [expression]) (middle ++ [expression]) where
  header := by
    obtain ⟨front, name, parameters, rfl, counted⟩ := latest.header
    exact ⟨front, name, parameters, by simp, counted⟩
  inside := by
    rw [List.forall_mem_append]
    exact ⟨latest.inside, by simpa using plain⟩

/-- A state in a function knows what is declared behind the function's header. -/
structure State.Tracks (state : State) (passed rest : List Expression) : Prop where
  counted : state.counters.functions = passed.countP Expression.isFunction
  known : ∀ ordinal, state.function = some ordinal → ∃ middle, Latest ordinal passed middle ∧
    state.functionCells = declaredCells (middle ++ rest)

theorem State.tracks_start (expressions : List Expression) : State.start.Tracks [] expressions :=
  ⟨rfl, nofun⟩

theorem State.Tracks.lower {state : State} {passed rest : List Expression} {expression : Expression}
    (tracks : state.Tracks passed (expression :: rest))
    (success : ((anticipate state rest expression).lower expression).error = none) :
    ((anticipate state rest expression).lower expression).state.Tracks
      (passed ++ [expression]) rest := by
  have counters := State.counters_lower success
  rw [Program.counters_anticipate] at counters
  cases header : expression.isFunction with
  | true =>
      obtain ⟨name, parameters, rfl⟩ := Expression.exists_of_isFunction header
      refine ⟨by rw [counters]; simp [Counters.pass, tracks.counted, Expression.isFunction], ?_⟩
      intro ordinal function
      cases function
      exact ⟨[], ⟨⟨passed, name, parameters, rfl, congrArg (· + 1) tracks.counted⟩,
        List.forall_mem_nil _⟩, rfl⟩
  | false =>
      have unchanged : anticipate state rest expression = state := by
        cases expression <;> first | rfl | cases header
      have passes : (state.counters.pass expression).functions = state.counters.functions := by
        cases expression <;> first | rfl | cases header
      rw [unchanged] at counters ⊢
      refine ⟨by rw [counters, passes, tracks.counted]; simp [header], ?_⟩
      intro ordinal function
      rcases state.function_lower header with ⟨same, cells⟩ | left
      · obtain ⟨middle, latest, known⟩ := tracks.known ordinal (same.symm.trans function)
        refine ⟨middle ++ [expression], latest.append header, ?_⟩
        rw [cells, known, List.append_assoc]
        rfl
      · cases left.symm.trans function

/-! Pieces of a program. -/

/-- The code of a step as part of a program, in which `passed` stands before the step and `behind`
from the step on. A return inside a function reserves what is declared behind the header of the
function and has not been taken yet. All else is the code of the step alone. -/
inductive Completes (passed behind : List Expression) (step : Step) : List Instruction → Prop where
  | same (other : ∀ value rest, behind = .returnValue value :: rest → step.state.function = none) :
      Completes passed behind step step.code
  | leaving {value : Operand} {rest middle : List Expression} {ordinal : Nat}
      {loaded : List Instruction} (returns : behind = .returnValue value :: rest)
      (function : step.state.function = some ordinal) (latest : Latest ordinal passed middle)
      (code : step.code = loaded ++ [.jump (.functionExit ordinal)]) :
      Completes passed behind step (loaded ++
        (Instruction.reserveCells (declaredCells (middle ++ behind) - step.state.frame.locals) ++
          [.jump (.functionExit ordinal)]))

theorem State.Tracks.completes {state : State} {passed rest : List Expression}
    {expression : Expression} (tracks : state.Tracks passed (expression :: rest))
    (success : ((anticipate state rest expression).lower expression).error = none) :
    Completes passed (expression :: rest) (state.forgetting.lower expression)
      ((anticipate state rest expression).lower expression).code := by
  have entered : (anticipate state rest expression).function = state.function := by
    cases expression <;> rfl
  rcases state.other_or_return expression with other | ⟨value, ordinal, rfl, function⟩
  · rw [← entered] at other
    rw [← state.forgetting_anticipate rest expression, State.lower_forgetting other]
    refine .same fun value behind returns => ?_
    cases returns
    have plain : (Expression.returnValue value).isFunction = false := rfl
    rcases (anticipate state rest (.returnValue value)).function_lower plain with ⟨same, _⟩ | left
    · exact same.trans (other value rfl)
    · exact left
  · have inside : state.function.isSome := by rw [function]; rfl
    obtain ⟨middle, latest, known⟩ := tracks.known ordinal function
    have checked : state.frame.check [⟨0, value⟩] = .ok () := by
      have error := state.error_returnValue value
      exact failure_eq_none (error.symm.trans success)
    obtain ⟨resolved, found, _⟩ := @Frame.load_of_check state.frame 0 .f0 value checked
    have still : (state.forgetting.lower (.returnValue value)).state = state.forgetting :=
      State.state_returnValue inside checked
    have alone := @State.code_returnValue_inside state.forgetting ordinal value
      resolved function found
    rw [show state.forgetting.functionCells = 0 from rfl, Nat.zero_sub, List.append_cons] at alone
    have locals : (state.forgetting.lower (.returnValue value)).state.frame.locals =
        state.frame.locals := by
      rw [still]
      rfl
    have completed := State.code_returnValue_inside function found
    rw [List.append_cons, known, ← locals] at completed
    rw [show anticipate state rest (.returnValue value) = state from rfl, completed]
    exact .leaving rfl (by rw [still]; exact function) latest alone

inductive Agrees (passed rest : List Expression) (steps : List Step) :
    Except GenerationError (List Instruction) → Prop where
  | fails {before : List Step} {step : Step} {error : GenerationError}
      (split : steps = before ++ [step]) (earlier : ∀ step ∈ before, step.error = none)
      (last : step.error = some error) :
      Agrees passed rest steps (.error error)
  | succeeds {pieces : List (List Instruction)} (done : ∀ step ∈ steps, step.error = none)
      (length : steps.length = rest.length + 1) (pieced : pieces.length = steps.length)
      (completes : ∀ index step piece, steps[index]? = some step → pieces[index]? = some piece →
        Completes (passed ++ rest.take index) (rest.drop index) step piece) :
      Agrees passed rest steps (.ok pieces.flatten)

theorem Agrees.cons {passed rest : List Expression} {expression : Expression}
    {steps : List Step} {step : Step} {code : List Instruction}
    {outcome : Except GenerationError (List Instruction)}
    (agrees : Agrees (passed ++ [expression]) rest steps outcome) (success : step.error = none)
    (completes : Completes passed (expression :: rest) step code) :
    Agrees passed (expression :: rest) (step :: steps) (do
      let later ← outcome
      .ok (code ++ later)) := by
  cases agrees with
  | @fails before other error split earlier last =>
      exact @Agrees.fails _ _ _ (step :: before) other error (congrArg (step :: ·) split)
        (List.forall_mem_cons.mpr ⟨success, earlier⟩) last
  | @succeeds pieces done length pieced completed =>
      refine @Agrees.succeeds _ _ _ (code :: pieces) ?_ ?_ ?_ ?_
      · exact List.forall_mem_cons.mpr ⟨success, done⟩
      · rw [List.length_cons, length, List.length_cons]
      · rw [List.length_cons, pieced, List.length_cons]
      · intro index
        cases index with
        | zero =>
            rintro _ _ ⟨⟩ ⟨⟩
            rw [List.take_zero, List.append_nil, List.drop_zero]
            exact completes
        | succ index =>
            intro later piece reached found
            have behind := completed index later piece reached found
            rw [List.append_assoc] at behind
            exact behind

end Lowering

namespace Program

open Lowering (State Step Agrees Completes)

theorem agrees_generateFrom {passed rest : List Expression} {state : State}
    (tracks : state.Tracks passed rest) :
    Agrees passed rest (Lowering.steps state.forgetting rest) (generateFrom state rest) := by
  induction rest generalizing passed state with
  | nil =>
      have same : state.forgetting.finish = state.finish := rfl
      rw [Lowering.steps, State.finishStep, same, generateFrom]
      cases state.finish with
      | error error => exact @Agrees.fails _ _ _ [] _ error rfl (List.forall_mem_nil _) rfl
      | ok code =>
          have only := @Agrees.succeeds passed [] [.done state.forgetting code] [code]
            (List.forall_mem_singleton.mpr rfl) rfl rfl ?_
          · rwa [List.flatten_singleton] at only
          · intro index
            cases index with
            | zero =>
                rintro _ _ ⟨⟩ ⟨⟩
                refine .same fun value rest returns => ?_
                cases returns
            | succ index => rintro _ _ ⟨⟩
  | cons expression rest ih =>
      have error := State.error_forgetting (anticipate state rest expression) expression
      rw [State.forgetting_anticipate] at error
      rw [Lowering.steps, generateFrom, error]
      cases outcome : ((anticipate state rest expression).lower expression).error with
      | some failure =>
          exact @Agrees.fails _ _ _ [] _ failure rfl (List.forall_mem_nil _) (error.trans outcome)
      | none =>
          have next := State.state_forgetting outcome
          rw [State.forgetting_anticipate] at next
          have behind := ih (tracks.lower outcome)
          rw [← next] at behind
          exact behind.cons (error.trans outcome) (tracks.completes outcome)

/-- Lowering a program is lowering its expressions one after another: it fails where one of the
steps fails, with the error of that step, and otherwise its code is the code of the steps, with
returns that first reserve what their function declares only behind them. Amounts and label
numbers are natural numbers: those of 64 and 32 bits for fewer than `2 ^ 62` cells and fewer than
`2 ^ 32` labels of each kind. -/
theorem generate_stepwise (expressions : List Expression) :
    let steps := Lowering.steps .start expressions
    (∀ error, generate expressions = .error error ↔ ∃ step ∈ steps, step.error = some error) ∧
      ((∃ code, generate expressions = .ok code) ↔ ∀ step ∈ steps, step.error = none) ∧
      ∀ code, generate expressions = .ok code → steps.length = expressions.length + 1 ∧
        ∃ pieces : List (List Instruction), code = pieces.flatten ∧ pieces.length = steps.length ∧
          ∀ index step piece, steps[index]? = some step → pieces[index]? = some piece →
            Completes (expressions.take index) (expressions.drop index) step piece := by
  intro steps
  have agrees : Agrees [] expressions steps (generate expressions) :=
    agrees_generateFrom (State.tracks_start expressions)
  generalize generate expressions = outcome at agrees
  cases agrees with
  | @fails before last error split earlier failed =>
      have reached : last ∈ steps := by
        rw [split]
        exact List.mem_append_right before (List.mem_singleton_self last)
      have only : ∀ step ∈ steps, ∀ other, step.error = some other → other = error := by
        rw [split, List.forall_mem_append, List.forall_mem_singleton]
        refine ⟨fun step among other found => ?_, fun other found => ?_⟩
        · cases (earlier step among).symm.trans found
        · exact Option.some.inj (found.symm.trans failed)
      refine ⟨fun other => ⟨?_, ?_⟩, ⟨?_, fun done => ?_⟩, ?_⟩
      · rintro ⟨⟩
        exact ⟨last, reached, failed⟩
      · rintro ⟨step, among, found⟩
        rw [only step among other found]
      · rintro ⟨_, ⟨⟩⟩
      · cases (done last reached).symm.trans failed
      · rintro _ ⟨⟩
  | @succeeds pieces done length pieced completes =>
      refine ⟨fun error => ⟨?_, ?_⟩, ⟨fun _ => done, fun _ => ⟨_, rfl⟩⟩, ?_⟩
      · rintro ⟨⟩
      · rintro ⟨step, among, failed⟩
        cases (done step among).symm.trans failed
      · rintro _ ⟨⟩
        exact ⟨length, pieces, rfl, pieced, completes⟩

/-- A return before a declaration reserves the cells that are declared behind it. -/
example :
    let program : List Expression := [.function "f" [], .openBlock 1, .returnValue (.constant "7"),
      .declare "a" false 2, .closeBlock 1]
    let entry : List Instruction := [.define (.named "f"), .move (.literal "7") (.register .f0)]
    let rest : List Instruction :=
      [.jump (.functionExit 1), .reserve 8, .define (.functionExit 1), .release 8, .jumpBack]
    (Lowering.steps .start program).flatMap Step.code = entry ++ rest ∧
      generate program = .ok (entry ++ .reserve 8 :: rest) :=
  ⟨rfl, rfl⟩

end Program
end TinkaCompiler
