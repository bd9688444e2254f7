/-! Words with a fixed meaning at the start of a statement, and the few others
that a statement looks for. -/

set_option autoImplicit false

namespace TinkaCompiler

inductive Keyword where
  | exportLabel | importLabel | declare | branch | loop | openBlock | closeBlock | function
  | returnValue | call
  deriving DecidableEq, Repr

namespace Keyword

def all : List Keyword :=
  [.exportLabel, .importLabel, .declare, .branch, .loop, .openBlock, .closeBlock, .function,
    .returnValue, .call]

def word : Keyword → String
  | .exportLabel => "kue"
  | .importLabel => "xok"
  | .declare => "anax"
  | .branch => "fi"
  | .loop => "fal"
  | .openBlock => "rinyv"
  | .closeBlock => "situv"
  | .function => "cersva"
  | .returnValue => "dosnud"
  | .call => "fenxeo"

def ofWord? (text : String) : Option Keyword :=
  all.find? (·.word == text)

@[simp]
theorem ofWord?_word (keyword : Keyword) : ofWord? keyword.word = some keyword := by
  cases keyword <;> decide

def argumentsEnd : String := "el"

def discard : String := "niv"

/-- How a source spells the reserved call target, which it cannot define. -/
def reservedSpelling : String := "'3126834864"

def reservedTarget : String := "3126834864"

end Keyword
end TinkaCompiler
