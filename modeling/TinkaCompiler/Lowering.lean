import TinkaCompiler.Frame

/-! Lowering expressions to instructions, one after the other.

Blocks become jumps. While a block is open its labels are kept, innermost first: a
loop keeps its exit and, below it, its head. All returns of a function jump to one
shared exit, which releases every cell that the function ever takes. A return that
stands before some of the declarations therefore takes the missing cells first. -/

set_option autoImplicit false

namespace TinkaCompiler

inductive Block where
  | branch (number : Nat)
  | loopHead (number : Nat)
  | loopExit (number : Nat)
  | function (name : String) (ordinal : Nat)
  deriving DecidableEq, Repr

def Block.label : Block → Label
  | .branch number => .branchEnd number
  | .loopHead number => .loopHead number
  | .loopExit number => .loopExit number
  | .function name _ => .named name

/-- Labels handed out so far. These are natural numbers; counters of 32 bits are the same
for fewer than `2 ^ 32` labels of each kind. -/
structure Counters where
  branches : Nat
  loopHeads : Nat
  loopExits : Nat
  functions : Nat
  deriving DecidableEq, Repr

namespace Lowering

structure State where
  frame : Frame
  /-- Innermost first. -/
  blocks : List Block
  counters : Counters
  /-- Ordinal of the function being lowered. -/
  function : Option Nat
  /-- Cells that this function takes in all. -/
  functionCells : Nat
  /-- Whether a return stood outside all functions. -/
  returnedOutside : Bool
  deriving DecidableEq, Repr

def State.start : State :=
  { frame := .empty
    blocks := []
    counters := ⟨0, 0, 0, 0⟩
    function := none
    functionCells := 0
    returnedOutside := false }

/-- What one step did. A step that fails keeps what it emitted before. -/
structure Step where
  state : State
  code : List Instruction
  error : Option GenerationError
  deriving DecidableEq, Repr

def Step.done (state : State) (code : List Instruction) : Step :=
  ⟨state, code, none⟩

def Step.failed (state : State) (error : GenerationError) : Step :=
  ⟨state, [], some error⟩

/-- A step that emits something and then goes to `next`, or to `kept` if it fails. -/
def Step.ofEmission (emission : Emission Unit) (kept next : State) : Step :=
  match emission.outcome with
  | .ok _ => ⟨next, emission.code, none⟩
  | .error error => ⟨kept, emission.code, some error⟩

namespace State

def openBlock (state : State) : Step :=
  match state.blocks with
  | .branch number :: _ => .done state [.jumpIf (.branchEnd number)]
  | .loopExit number :: _ => .done state [.jumpIf (.loopExit number)]
  | .function _ _ :: _ => .done state []
  | .loopHead _ :: _ | [] => .failed state .unmatchedBlock

def leaveFunction (state : State) (ordinal : Nat) : List Instruction :=
  [.define (.functionExit ordinal)] ++ Instruction.releaseCells state.frame.locals ++ [.jumpBack]

/-- Labels are taken off before they are looked at, so a closer that does not find
the two labels of a loop together has lost what it took. -/
def closeBlock (state : State) : Step :=
  match state.blocks with
  | .branch number :: rest => .done { state with blocks := rest } [.define (.branchEnd number)]
  | .loopExit number :: .loopHead head :: rest =>
    .done { state with blocks := rest } [.jump (.loopHead head), .define (.loopExit number)]
  | .function _ ordinal :: rest =>
    .done { state with frame := .empty, blocks := rest, function := none, functionCells := 0 }
      (state.leaveFunction ordinal)
  | .loopExit _ :: rest => .failed { state with blocks := rest.tail } .unmatchedBlock
  | .loopHead _ :: rest => .failed { state with blocks := rest } .unmatchedBlock
  | [] => .failed state .unmatchedBlock

def branch (state : State) (condition : Condition) : Step :=
  let number := state.counters.branches
  .ofEmission (state.frame.compare condition) state
    { state with
      blocks := .branch number :: state.blocks
      counters := { state.counters with branches := number + 1 } }

/-- The head's label is used up even if the condition fails. -/
def loop (state : State) (condition : Condition) : Step :=
  let head := state.counters.loopHeads
  let exit := state.counters.loopExits
  let emission : Emission Unit := do
    Emission.emit [.define (.loopHead head)]
    state.frame.compare condition
  .ofEmission emission
    { state with counters := { state.counters with loopHeads := head + 1 } }
    { state with
      blocks := .loopExit exit :: .loopHead head :: state.blocks
      counters := { state.counters with loopHeads := head + 1, loopExits := exit + 1 } }

def enterFunction (state : State) (name : String) (parameters : List Parameter) : Step :=
  let ordinal := state.counters.functions + 1
  .done
    { state with
      frame := .ofParameters parameters
      blocks := .function name ordinal :: state.blocks
      counters := { state.counters with functions := ordinal }
      function := some ordinal }
    [.define (.named name)]

/-- The jump to the exit, after taking the cells that are declared only later. -/
def returnJump (state : State) : List Instruction :=
  match state.function with
  | some ordinal =>
    Instruction.reserveCells (state.functionCells - state.frame.locals) ++
      [.jump (.functionExit ordinal)]
  | none => [.jump (.functionExit 0)]

def returnValue (state : State) (value : Operand) : Step :=
  let emission : Emission Unit := do
    let place ← state.frame.load 0 .f0 value
    Emission.emit ([.move place (.register .f0)] ++ state.returnJump)
  .ofEmission emission state
    { state with returnedOutside := state.returnedOutside || state.function.isNone }

def lower (state : State) : Expression → Step
  | .exportLabel label => .done state [.exportLabel label]
  | .importLabel label => .done state [.importLabel label]
  | .declare name _ length =>
    .done { state with frame := state.frame.declare name length } [.reserve (length * cellSize)]
  | .branch condition => state.branch condition
  | .loop condition => state.loop condition
  | .openBlock _ => state.openBlock
  | .closeBlock _ => state.closeBlock
  | .function name parameters => state.enterFunction name parameters
  | .returnValue value => state.returnValue value
  | .call function arguments destination =>
    .ofEmission (state.frame.call function arguments destination) state state
  | .raw mnemonic operands => .ofEmission (state.frame.raw mnemonic operands) state state

/-- Ends the program: all blocks must be closed, and returns outside functions get
the exit they jump to. -/
def finish (state : State) : Except GenerationError (List Instruction) :=
  if state.blocks ≠ [] then .error (.unclosedBlocks state.blocks.length)
  else if state.returnedOutside then
    .ok ([.define (.functionExit 0)] ++ Instruction.releaseCells state.frame.height ++ [.jumpBack])
  else .ok []

def finishStep (state : State) : Step :=
  match state.finish with
  | .ok code => .done state code
  | .error error => .failed state error

end State

/-- The steps of lowering a program from a state on, the end of the program
included. The first step that fails is the last. -/
def steps (state : State) : List Expression → List Step
  | [] => [state.finishStep]
  | expression :: rest =>
    let step := state.lower expression
    match step.error with
    | some _ => [step]
    | none => step :: steps step.state rest

end Lowering
end TinkaCompiler
