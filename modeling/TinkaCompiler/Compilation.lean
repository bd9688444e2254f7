import TinkaCompiler.CompileError
import TinkaCompiler.Program
import TinkaCompiler.SourceUnit

/-! Compiling several sources as one program.

Sources are analyzed one by one, in the order given, and the first fault ends the
compilation. Units that define the entry point go first in the program; otherwise
the order stays. -/

set_option autoImplicit false

namespace TinkaCompiler

structure Source where
  file : String
  text : String
  deriving DecidableEq, Repr

/-- Analyzes words as those of a source; the source only places what is wrong. -/
def Source.analyzeWords (source : Source) (words : List Word) : Except CompileError SourceUnit :=
  match SourceUnit.ofWords words with
  | .ok unit => .ok unit
  | .error fault => .error (.analysis fault.violation (fault.position source.file source.text))

def Source.analyze (source : Source) : Except CompileError SourceUnit :=
  source.analyzeWords (Word.ofSource source.text)

structure Compilation where
  /-- The program without the jump to its entry point. -/
  body : List Instruction
  labels : LabelTable
  hasEntryPoint : Bool

namespace Compilation

/-- The whole program, which starts at its entry point if there is one. -/
def program (compilation : Compilation) : List Instruction :=
  if compilation.hasEntryPoint then .jump (.named entryPoint) :: compilation.body
  else compilation.body

def bodyText (compilation : Compilation) : String :=
  Instruction.listing compilation.body

def assembly (compilation : Compilation) : String :=
  Instruction.listing compilation.program

/-- Units that define the entry point, then the others. -/
def linkOrder (units : List SourceUnit) : List SourceUnit :=
  units.filter (·.hasEntryPoint) ++ units.filter (!·.hasEntryPoint)

def linkedExpressions (units : List SourceUnit) : List Expression :=
  (linkOrder units).flatMap (·.expressions)

def linkedLabels (units : List SourceUnit) : LabelTable :=
  units.foldl (fun table unit => table.merge unit.labels) .empty

def link (units : List SourceUnit) : Except CompileError Compilation :=
  match Program.generate (linkedExpressions units) with
  | .ok body => .ok ⟨body, linkedLabels units, units.any (·.hasEntryPoint)⟩
  | .error error => .error (.generation error)

def ofSources (sources : List Source) : Except CompileError Compilation := do
  let units ← sources.mapM Source.analyze
  link units

def assemblyOfText (text : String) : Except CompileError String := do
  let compilation ← ofSources [⟨"<input>", text⟩]
  .ok compilation.assembly

end Compilation
end TinkaCompiler
