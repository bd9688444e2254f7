/-! Operands: what an instruction reads or writes.

A word of digits is a constant. Any other word names a variable, and `x@p` is the
variable `x` moved by the operand `p`, so `x@y@3` is `x` moved by what element 3
of `y` holds. -/

set_option autoImplicit false

namespace TinkaCompiler

inductive Operand where
  /-- A literal, kept as it was written. -/
  | constant (text : String)
  | variable (name : String) (position : Operand)
  /-- A function's name. It has no address. -/
  | function (name : String)
  deriving DecidableEq, Repr

namespace Operand

def zero : Operand := .constant "0"

def isConstant : Operand → Bool
  | .constant _ => true
  | .variable _ _ | .function _ => false

/-- Whether the address depends on a value that is known only at run time. -/
def isDynamic : Operand → Bool
  | .variable _ position => !position.isConstant
  | .constant _ | .function _ => false

/-- The word for an operand. A position of constant `0` is left out. -/
def render : Operand → String
  | .constant text => text
  | .variable name position => if position = zero then name else name ++ "@" ++ position.render
  | .function name => name

def ofLast? (piece : List Char) : Option Operand :=
  if piece = [] then none
  else if piece.all Char.isDigit then some (.constant (String.ofList piece))
  else some (.variable (String.ofList piece) zero)

/-- Reads the characters after `piece`, which is what has been read of the
current name. -/
def readFrom? (piece : List Char) : List Char → Option Operand
  | [] => ofLast? piece
  | c :: rest =>
    if c = '@' then
      if piece = [] then none else (readFrom? [] rest).map (.variable (String.ofList piece))
    else readFrom? (piece ++ [c]) rest

/-- The operand a word stands for; none if a name or a position is empty. -/
def read? (word : String) : Option Operand :=
  readFrom? [] word.toList

end Operand
end TinkaCompiler
