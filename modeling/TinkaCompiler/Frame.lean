import TinkaCompiler.Emission
import TinkaCompiler.Expression
import TinkaCompiler.Text.Decimal

/-! The stack frame as it is known while instructions are emitted.

A variable is bound to the height of the stack right after its cells were taken,
so its first cell lies as many cells above the top as the stack has grown since.
A reference at a constant position is a fixed address. A position known only at
run time needs instructions that compute the address in a scratch register first.

A caller pushes the arguments in order and then one more cell, which the call fills
with the return address. Results travel in `f0`. -/

set_option autoImplicit false

namespace TinkaCompiler

structure Frame where
  /-- Cells in use. -/
  height : Nat
  /-- Of these, the cells that belong to the caller: arguments and return address. -/
  callerCells : Nat
  /-- Names with the height right after their cells were taken, the latest first. -/
  bindings : List (String × Nat)
  deriving DecidableEq, Repr

structure Resolved where
  place : Place
  prelude : List Instruction
  deriving DecidableEq, Repr

/-- Byte offsets take 64 bits, so they are below this number. -/
def addressLimit : Nat := 18446744073709551616

namespace Frame

def empty : Frame := ⟨0, 0, []⟩

def binding? (frame : Frame) (name : String) : Option Nat :=
  frame.bindings.lookup name

def declare (frame : Frame) (name : String) (length : Nat) : Frame :=
  { frame with
    height := frame.height + length
    bindings := (name, frame.height + length) :: frame.bindings }

theorem binding?_declare (frame : Frame) (name other : String) (length : Nat) :
    (frame.declare name length).binding? other =
      if other = name then some (frame.height + length) else frame.binding? other := by
  by_cases same : other = name
  · simp [binding?, declare, same]
  · simp [binding?, declare, same, List.lookup_cons, beq_eq_false_iff_ne.mpr same]

/-- The frame of a function when it is entered: one cell for each parameter and
one for the return address. -/
def ofParameters (parameters : List Parameter) : Frame :=
  let bound := parameters.foldl (fun frame parameter => frame.declare parameter.name 1) empty
  { bound with height := bound.height + 1, callerCells := bound.height + 1 }

/-- Cells that the function has taken itself. -/
def locals (frame : Frame) : Nat :=
  frame.height - frame.callerCells

/-- The address of an operand when the stack has grown by `pushed` more cells.
Addresses that depend on run-time values are computed in `scratch`. -/
def resolve (frame : Frame) (pushed : Nat) (scratch : Register) : Operand →
    Except GenerationError Resolved
  | .constant text => .ok ⟨.literal text, []⟩
  | .function name => .error (.notAddressable name)
  | .variable name position =>
    match frame.binding? name with
    | none => .error (.undefinedVariable name)
    | some bound =>
      if frame.height + pushed < bound then
        .error (.invalidPosition (Operand.variable name position).render)
      else
        let base := frame.height + pushed - bound
        match position with
        | .constant text =>
          match Text.Decimal.readBelow? addressLimit text.toList with
          | some index =>
            if (base + index) * cellSize < addressLimit then
              .ok ⟨.cell ((base + index) * cellSize), []⟩
            else .error (.invalidPosition (Operand.variable name position).render)
          | none => .error (.invalidPosition (Operand.variable name position).render)
        | position => do
          let inner ← frame.resolve pushed scratch position
          .ok ⟨.indexed scratch, inner.prelude ++
            [.move inner.place (.register scratch), .add base scratch,
              .shiftLeft cellShift scratch]⟩

open Emission

def load (frame : Frame) (pushed : Nat) (scratch : Register) (operand : Operand) :
    Emission Place := do
  let resolved ← ofExcept (frame.resolve pushed scratch operand)
  emit resolved.prelude
  return resolved.place

/-- Pushes an operand onto the stack. The new cell is taken before the address is
computed, so `pushed` counts it. -/
def push (frame : Frame) (pushed : Nat) (operand : Operand) : Emission Unit := do
  let resolved ← ofExcept (frame.resolve pushed .f0 operand)
  emit ([.reserve cellSize] ++ resolved.prelude ++ [.move resolved.place .top])

def compare (frame : Frame) (condition : Condition) : Emission Unit := do
  let left ← frame.load 0 .f0 condition.left
  emit [.move left (.register .f1)]
  let right ← frame.load 0 .f0 condition.right
  emit [.compare right condition.comparison]

/-- Pushes arguments in order, above `pushed` cells that are already there. -/
def pushArguments (frame : Frame) (pushed : Nat) : List Operand → Emission Unit
  | [] => return ()
  | argument :: rest => do
    frame.push (pushed + 1) argument
    frame.pushArguments (pushed + 1) rest

def store (frame : Frame) : Destination → Emission Unit
  | .discard => return ()
  | .variable name position => do
    let target ← frame.load 0 .f1 (.variable name position)
    emit [.move (.register .f0) target]

def call (frame : Frame) (function : String) (arguments : List Operand)
    (destination : Destination) :
    Emission Unit := do
  frame.pushArguments 0 arguments
  emit [.reserve cellSize, .call function, .release ((arguments.length + 1) * cellSize)]
  frame.store destination

/-! Directly written instructions. Only one scratch register is free for addresses,
so when several operands are dynamic, all but the last are first copied to
temporary cells. The instruction works on the copies, and those it has written are
copied back before the cells are released. -/

def assignCells (first : Nat) : List Operand → List (Operand × Option Nat)
  | [] => []
  | operand :: rest =>
    if operand.isDynamic && rest.any Operand.isDynamic then
      (operand, some first) :: assignCells (first + 1) rest
    else (operand, none) :: assignCells first rest

def temporary (spilled number : Nat) : Place :=
  .cell ((spilled - number) * cellSize)

def spill (frame : Frame) : List (Operand × Option Nat) → Emission Unit
  | [] => return ()
  | (_, none) :: rest => frame.spill rest
  | (operand, some number) :: rest => do
    frame.push number operand
    frame.spill rest

def loadAll (frame : Frame) (spilled : Nat) : List (Operand × Option Nat) → Emission (List Place)
  | [] => return []
  | (_, some number) :: rest => do
    let places ← frame.loadAll spilled rest
    return temporary spilled number :: places
  | (operand, none) :: rest => do
    let place ← frame.load spilled .f0 operand
    let places ← frame.loadAll spilled rest
    return place :: places

/-- Copies written temporaries back; the first operand of the list has number
`index` among the instruction's operands. -/
def writeBack (frame : Frame) (mnemonic : Mnemonic) (spilled index : Nat) :
    List (Operand × Option Nat) → Emission Unit
  | [] => return ()
  | (_, none) :: rest => frame.writeBack mnemonic spilled (index + 1) rest
  | (operand, some number) :: rest => do
    if mnemonic.writes index then
      let target ← frame.load spilled .f0 operand
      emit [.move (temporary spilled number) target]
    frame.writeBack mnemonic spilled (index + 1) rest

def raw (frame : Frame) (mnemonic : Mnemonic) (operands : List Operand) : Emission Unit := do
  let assigned := assignCells 1 operands
  let spilled := assigned.countP (·.2.isSome)
  frame.spill assigned
  let places ← frame.loadAll spilled assigned
  emit [.raw mnemonic places]
  frame.writeBack mnemonic spilled 0 assigned
  emit (Instruction.releaseCells spilled)

end Frame
end TinkaCompiler
