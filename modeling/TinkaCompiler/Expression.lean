import TinkaCompiler.Comparison
import TinkaCompiler.Mnemonic
import TinkaCompiler.Operand

/-! Expressions of a program.

A program is a flat list. Blocks are not nested in the data: a header, an opener
and a closer stand in the list where they stand in the source. -/

set_option autoImplicit false

namespace TinkaCompiler

/-- The head of a branch or loop. The comparison is the one that skips the block,
the complement of what the source says. -/
structure Condition where
  left : Operand
  comparison : Comparison
  right : Operand
  deriving DecidableEq, Repr

structure Parameter where
  name : String
  pointer : Bool
  deriving DecidableEq, Repr

inductive Destination where
  | discard
  | variable (name : String) (position : Operand)
  deriving DecidableEq, Repr

inductive Expression where
  | exportLabel (label : String)
  | importLabel (label : String)
  | declare (name : String) (pointer : Bool) (length : Nat)
  | branch (condition : Condition)
  | loop (condition : Condition)
  /-- The depth is the one inside the block. -/
  | openBlock (depth : Nat)
  /-- The depth is the one inside the block. -/
  | closeBlock (depth : Nat)
  | function (name : String) (parameters : List Parameter)
  | returnValue (value : Operand)
  | call (function : String) (arguments : List Operand) (destination : Destination)
  | raw (mnemonic : Mnemonic) (operands : List Operand)
  deriving DecidableEq, Repr

def entryPoint : String := "_fasal"

end TinkaCompiler
