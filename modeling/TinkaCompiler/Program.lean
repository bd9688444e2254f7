import TinkaCompiler.Lowering

/-! Instructions of a whole program.

Lowering a function needs to know how many cells its body takes in all, which is
counted from the expressions that follow its header. -/

set_option autoImplicit false

namespace TinkaCompiler
namespace Program

open Lowering (State)

/-- Cells declared up to the closer of the block that was opened first at depth
`opened`. -/
def cellsUntilClose (opened : Nat) : List Expression → Nat
  | [] => 0
  | .closeBlock depth :: rest => if depth = opened then 0 else cellsUntilClose opened rest
  | .declare _ _ length :: rest => length + cellsUntilClose opened rest
  | _ :: rest => cellsUntilClose opened rest

/-- Cells declared by the function whose header stands right before these
expressions. -/
def declaredCells : List Expression → Nat
  | [] => 0
  | .openBlock depth :: rest => cellsUntilClose depth rest
  | .declare _ _ length :: rest => length + declaredCells rest
  | _ :: rest => declaredCells rest

def anticipate (state : State) (rest : List Expression) : Expression → State
  | .function _ _ => { state with functionCells := declaredCells rest }
  | _ => state

def generateFrom (state : State) : List Expression → Except GenerationError (List Instruction)
  | [] => state.finish
  | expression :: rest =>
    let step := (anticipate state rest expression).lower expression
    match step.error with
    | some error => .error error
    | none => do
      let code ← generateFrom step.state rest
      .ok (step.code ++ code)

def generate (expressions : List Expression) : Except GenerationError (List Instruction) :=
  generateFrom .start expressions

end Program
end TinkaCompiler
