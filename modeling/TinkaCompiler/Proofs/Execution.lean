import Mathlib.Computability.StateTransition
import TinkaCompiler.Proofs.Labels

/-! Two ways to run a function.

A reading says what statements do to a state, what operands stand for and what the
comparison words mean. Under a reading the tree of a function is run statement by
statement, and its lines are run one by one, with jumps, a flag and the register on
the left of comparisons. Both keep a record of the statements they perform. -/

set_option autoImplicit false

namespace TinkaCompiler

/-- A meaning for everything that the lowering of blocks does not look into. -/
structure Reading (S V : Type) where
  value : Operand → S → V
  /-- What a place holds that was not prepared for an operand. -/
  stray : Place → S → V
  relation : Comparison → V → V → Bool
  perform : Expression → S → S
  complementary : ∀ comparison left right,
    relation comparison.complement left right = !relation comparison left right

structure Progress (S : Type) where
  state : S
  performed : List Expression

variable {S V : Type}

namespace Reading

def holds (reading : Reading S V) (test : Test) (state : S) : Bool :=
  reading.relation test.comparison (reading.value test.left state) (reading.value test.right state)

def advance (reading : Reading S V) (expression : Expression) (progress : Progress S) :
    Progress S :=
  ⟨reading.perform expression progress.state, progress.performed ++ [expression]⟩

end Reading

/-! Running the tree. -/

namespace Body

def append : Body → Body → Body
  | .done, behind => behind
  | .act leaf rest, behind => .act leaf (rest.append behind)
  | .leave value rest, behind => .leave value (rest.append behind)
  | .branch test inner rest, behind => .branch test inner (rest.append behind)
  | .loop test inner rest, behind => .loop test inner (rest.append behind)

@[simp]
theorem append_done (body : Body) : body.append .done = body := by
  induction body with
  | done => rfl
  | act leaf rest ih => rw [append, ih]
  | leave value rest ih => rw [append, ih]
  | branch test inner rest _ ih => rw [append, ih]
  | loop test inner rest _ ih => rw [append, ih]

structure Config (S : Type) where
  rest : Body
  progress : Progress S

/-- One statement, or one look at a condition. A return drops all that follows. -/
def step (reading : Reading S V) (config : Config S) : Option (Config S) :=
  match config.rest with
  | .done => none
  | .act leaf rest => some ⟨rest, reading.advance leaf.expression config.progress⟩
  | .leave value _ => some ⟨.done, reading.advance (.returnValue value) config.progress⟩
  | .branch test inner rest =>
    if reading.holds test config.progress.state then some ⟨inner.append rest, config.progress⟩
    else some ⟨rest, config.progress⟩
  | .loop test inner rest =>
    if reading.holds test config.progress.state then
      some ⟨inner.append (.loop test inner rest), config.progress⟩
    else some ⟨rest, config.progress⟩

end Body

/-! Running the lines. -/

namespace Expression

def condition? : Expression → Option Condition
  | .branch condition | .loop condition => some condition
  | _ => none

def isStatement : Expression → Bool
  | .declare _ _ _ | .call _ _ _ | .raw _ _ | .returnValue _ => true
  | _ => false

end Expression

namespace Lowering

namespace Line

structure Config (S V : Type) where
  position : Nat
  flag : Bool
  /-- What `f1` holds. -/
  held : V
  progress : Progress S

/-- Whether a place read at a line is that of an operand: the lines before it in the
same statement end with those that prepare the operand. -/
def fetches (line : Line) (operand : Operand) (place : Place) : Bool :=
  match line.state.frame.resolve 0 .f0 operand with
  | .ok resolved =>
    resolved.place == place &&
      resolved.prelude.isSuffixOf ((line.state.lower line.expression).code.take line.index)
  | .error _ => false

def fetch (reading : Reading S V) (line : Line) (operand : Operand) (place : Place)
    (state : S) : V :=
  if line.fetches operand place then reading.value operand state else reading.stray place state

theorem fetch_of_resolve (reading : Reading S V) {line : Line} {operand : Operand}
    {resolved : Resolved} {before after : List Instruction}
    (success : line.state.frame.resolve 0 .f0 operand = .ok resolved)
    (code : (line.state.lower line.expression).code = before ++ resolved.prelude ++ after)
    (index : line.index = before.length + resolved.prelude.length) (state : S) :
    line.fetch reading operand resolved.place state = reading.value operand state := by
  have prepared : (before ++ resolved.prelude ++ after).take line.index =
      before ++ resolved.prelude :=
    List.take_left' (by rw [index, List.length_append])
  have found : line.fetches operand resolved.place = true := by
    simp only [fetches, success, code, prepared, beq_self_eq_true, Bool.true_and,
      List.isSuffixOf_iff_suffix]
    exact List.suffix_append _ _
  rw [fetch, if_pos found]

/-- What a line does apart from where it leads. A condition is read operand by
operand; a statement is performed at its first line. -/
def effect (reading : Reading S V) (line : Line) (config : Config S V) : Config S V :=
  match line.expression.condition? with
  | some condition =>
    match line.instruction with
    | .move source (.register .f1) =>
      { config with held := line.fetch reading condition.left source config.progress.state }
    | .compare right comparison =>
      let compared := line.fetch reading condition.right right config.progress.state
      { config with flag := reading.relation comparison config.held compared }
    | _ => config
  | none =>
    if line.index = 0 ∧ line.expression.isStatement then
      { config with progress := reading.advance line.expression config.progress }
    else config

end Line

def resolve (lines : List Line) (label : Label) : Option Nat :=
  lines.findIdx? (·.instruction == .define label)

/-- One line. The jump back ends the run of a function. -/
def Line.step (reading : Reading S V) (lines : List Line) (config : Config S V) :
    Option (Config S V) := do
  let line ← lines[config.position]?
  match line.instruction with
  | .jumpBack => none
  | .jump label =>
    let target ← resolve lines label
    some { line.effect reading config with position := target }
  | .jumpIf label =>
    if config.flag then
      let target ← resolve lines label
      some { line.effect reading config with position := target }
    else some { line.effect reading config with position := config.position + 1 }
  | _ => some { line.effect reading config with position := config.position + 1 }

namespace Line

def Config.moveTo (config : Config S V) (position : Nat) : Config S V :=
  { config with position }

@[simp]
theorem Config.moveTo_position (config : Config S V) (position : Nat) :
    (config.moveTo position).position = position :=
  rfl

@[simp]
theorem Config.moveTo_progress (config : Config S V) (position : Nat) :
    (config.moveTo position).progress = config.progress :=
  rfl

@[simp]
theorem Config.moveTo_moveTo (config : Config S V) (first second : Nat) :
    (config.moveTo first).moveTo second = config.moveTo second :=
  rfl

section Steps

variable (reading : Reading S V) {lines : List Line} {config : Config S V}
  {line : Line} {label : Label} {target : Nat}

theorem step_next (here : lines[config.position]? = some line)
    (falls : line.instruction.fallsThrough) (stays : line.instruction.target? = none) :
    step reading lines config =
      some ((line.effect reading config).moveTo (config.position + 1)) := by
  unfold step
  rw [here]
  cases shape : line.instruction <;>
    simp_all [Instruction.fallsThrough, Instruction.target?, Config.moveTo]

theorem step_jump (here : lines[config.position]? = some line)
    (jumps : line.instruction = .jump label) (found : resolve lines label = some target) :
    step reading lines config = some ((line.effect reading config).moveTo target) := by
  unfold step
  simp [here, jumps, found, Config.moveTo]

theorem step_jumpIf_taken (here : lines[config.position]? = some line)
    (jumps : line.instruction = .jumpIf label) (flag : config.flag = true)
    (found : resolve lines label = some target) :
    step reading lines config = some ((line.effect reading config).moveTo target) := by
  unfold step
  simp [here, jumps, flag, found, Config.moveTo]

theorem step_jumpIf_skipped (here : lines[config.position]? = some line)
    (jumps : line.instruction = .jumpIf label) (flag : config.flag = false) :
    step reading lines config =
      some ((line.effect reading config).moveTo (config.position + 1)) := by
  unfold step
  simp [here, jumps, flag, Config.moveTo]

theorem step_jumpBack (here : lines[config.position]? = some line)
    (jumps : line.instruction = .jumpBack) :
    step reading lines config = none := by
  unfold step
  simp [here, jumps]

end Steps
end Line
end Lowering
end TinkaCompiler
