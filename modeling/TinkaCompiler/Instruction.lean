import TinkaCompiler.Comparison
import TinkaCompiler.Mnemonic

/-! Instructions of the target, one to a line.

The stack grows downwards in cells of four bytes and its top is at `f5`; variables
are addressed from there. `xx` is the program counter. -/

set_option autoImplicit false

namespace TinkaCompiler

inductive Register where
  | f0 | f1 | f5 | xx
  deriving DecidableEq, Repr

def Register.render : Register → String
  | .f0 => "f0"
  | .f1 => "f1"
  | .f5 => "f5"
  | .xx => "xx"

inductive Place where
  | literal (text : String)
  | register (register : Register)
  /-- The cell at the top of the stack. -/
  | top
  /-- The cell a number of bytes above the top. -/
  | cell (offset : Nat)
  /-- The cell as many bytes above the top as a register holds. -/
  | indexed (register : Register)
  deriving DecidableEq, Repr

def Place.render : Place → String
  | .literal text => text
  | .register held => held.render
  | .top => "f5@"
  | .cell offset => "f5+" ++ toString offset ++ "@"
  | .indexed held => "f5+" ++ held.render ++ "@"

inductive Label where
  | named (name : String)
  | branchEnd (number : Nat)
  | loopHead (number : Nat)
  | loopExit (number : Nat)
  /-- The shared exit of a function; number 0 is outside all functions. -/
  | functionExit (ordinal : Nat)
  deriving DecidableEq, Repr

def Label.render : Label → String
  | .named name => name
  | .branchEnd number => "fi" ++ toString number
  | .loopHead number => "fal-rinyv" ++ toString number
  | .loopExit number => "fal" ++ toString number
  | .functionExit ordinal => "dosnud" ++ toString ordinal

def cellSize : Nat := 4

/-- Shifting left by this amount multiplies by `cellSize`. -/
def cellShift : Nat := 2

inductive Instruction where
  | exportLabel (label : String)
  | importLabel (label : String)
  | define (label : Label)
  /-- Takes a number of bytes from the stack. -/
  | reserve (bytes : Nat)
  /-- Gives a number of bytes back to the stack. -/
  | release (bytes : Nat)
  | move (source target : Place)
  | add (amount : Nat) (target : Register)
  | shiftLeft (amount : Nat) (target : Register)
  /-- Sets the flag to whether `f1` compares so to a place. -/
  | compare (right : Place) (comparison : Comparison)
  /-- Jumps if the flag is set. -/
  | jumpIf (label : Label)
  | jump (label : Label)
  /-- Jumps to the address held in the cell at the top. -/
  | jumpBack
  /-- Stores the address of the next line in the cell at the top and jumps. -/
  | call (function : String)
  | raw (mnemonic : Mnemonic) (operands : List Place)
  deriving DecidableEq, Repr

namespace Instruction

def render : Instruction → String
  | .exportLabel label => "kue " ++ label
  | .importLabel label => "xok " ++ label
  | .define label => "nll " ++ label.render
  | .reserve bytes => "nta " ++ toString bytes ++ " f5"
  | .release bytes => "ata " ++ toString bytes ++ " f5"
  | .move source target => "krz " ++ source.render ++ " " ++ target.render
  | .add amount target => "ata " ++ toString amount ++ " " ++ target.render
  | .shiftLeft amount target => "dro " ++ toString amount ++ " " ++ target.render
  | .compare right comparison => "fi f1 " ++ right.render ++ " " ++ comparison.word
  | .jumpIf label => "malkrz " ++ label.render ++ " xx"
  | .jump label => "krz " ++ label.render ++ " xx"
  | .jumpBack => "krz f5@ xx"
  | .call function => "inj " ++ function ++ " xx f5@"
  | .raw mnemonic operands => mnemonic.word ++ " " ++ " ".intercalate (operands.map Place.render)

def listing (code : List Instruction) : String :=
  String.join (code.map fun instruction => instruction.render ++ "\n")

/-- Releases cells, if there are any. Amounts are natural numbers; products in 64 bits
are the same for fewer than `2 ^ 62` cells. -/
def releaseCells (cells : Nat) : List Instruction :=
  if 0 < cells then [.release (cells * cellSize)] else []

/-- Reserves cells, if there are any, in natural numbers as `releaseCells` does. -/
def reserveCells (cells : Nat) : List Instruction :=
  if 0 < cells then [.reserve (cells * cellSize)] else []

end Instruction
end TinkaCompiler
