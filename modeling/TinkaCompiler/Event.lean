import TinkaCompiler.Compilation

/-! What a compilation reports while it goes on. -/

set_option autoImplicit false

namespace TinkaCompiler

inductive Event where
  | words (file : String) (count : Nat)
  | analyzed (file : String) (expressions labels : Nat)
  | unresolved (label : String)
  | generated (lines expressions : Nat)
  | wrote (path : String)
  /-- A staging file that could not be removed after a failed write. -/
  | stagingLeft (path : String) (cause : FileError)
  deriving DecidableEq, Repr

namespace Event

inductive Level where
  | debug
  | warning
  deriving DecidableEq, Repr

def Level.render : Level → String
  | .debug => "DEBUG"
  | .warning => "WARN"

def level : Event → Level
  | .stagingLeft _ _ => .warning
  | _ => .debug

def message : Event → String
  | .words file count => s!"{file}: {count} words"
  | .analyzed file expressions labels => s!"{file}: {expressions} expressions, {labels} labels"
  | .unresolved label => s!"'{label}' is imported but not exported by any input"
  | .generated lines expressions => s!"generated {lines} lines from {expressions} expressions"
  | .wrote path => s!"wrote {path}"
  | .stagingLeft path cause => s!"could not remove {path}: " ++ cause.message

def render (event : Event) : String :=
  event.level.render ++ " " ++ event.message

/-- Lines of a program's text. A label may itself hold a line feed. -/
def lineCount (code : List Instruction) : Nat :=
  (Instruction.listing code).toList.count '\n'

def ofAnalysis (source : Source) : List Event :=
  let words := Word.ofSource source.text
  let counted := .words source.file words.length
  match SourceUnit.ofWords words with
  | .ok unit => [counted, .analyzed source.file unit.expressions.length unit.labels.size]
  | .error _ => [counted]

def ofLink (units : List SourceUnit) : List Event :=
  let unresolved := (Compilation.linkedLabels units).unresolved.map .unresolved
  let expressions := Compilation.linkedExpressions units
  match Program.generate expressions with
  | .ok body => unresolved ++ [.generated (lineCount body) expressions.length]
  | .error _ => unresolved

/-- Reports of compiling the remaining sources after some units, up to the first
failure. -/
def ofSources (units : List SourceUnit) : List Source → List Event
  | [] => ofLink units
  | source :: rest =>
    ofAnalysis source ++
      match source.analyze with
      | .ok unit => ofSources (units ++ [unit]) rest
      | .error _ => []

def ofCompilation (sources : List Source) : List Event :=
  ofSources [] sources

end Event
end TinkaCompiler
