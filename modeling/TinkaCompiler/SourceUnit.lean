import TinkaCompiler.Analysis
import TinkaCompiler.LabelTable

/-! What one source contributes to a program. -/

set_option autoImplicit false

namespace TinkaCompiler

structure SourceUnit where
  expressions : List Expression
  deriving DecidableEq, Repr

namespace SourceUnit

def ofWords (words : List Word) : Except Fault SourceUnit := do
  let expressions ← Analysis.expressions words
  .ok ⟨expressions⟩

def recordLabel (table : LabelTable) : Expression → LabelTable
  | .exportLabel label => table.exportLabel label
  | .importLabel label => table.importLabel label
  | _ => table

def labels (unit : SourceUnit) : LabelTable :=
  unit.expressions.foldl recordLabel .empty

def isEntry : Expression → Bool
  | .function name _ => name == entryPoint
  | _ => false

def hasEntryPoint (unit : SourceUnit) : Bool :=
  unit.expressions.any isEntry

end SourceUnit
end TinkaCompiler
