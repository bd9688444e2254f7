import TinkaCompiler.Analysis.Fault
import TinkaCompiler.Emission
import TinkaCompiler.Files.FileError

/-! Everything that can stop a compilation, with the text shown for it. -/

set_option autoImplicit false

namespace TinkaCompiler

inductive CompileError where
  | analysis (violation : Violation) (position : Position)
  | generation (error : GenerationError)
  | wrongExtension (path : String)
  | unreadable (path : String) (cause : FileError)
  | unwritable (path : String) (cause : FileError)
  deriving DecidableEq, Repr

def CompileError.message : CompileError → String
  | .analysis violation position => violation.message ++ "\n" ++ position.render
  | .generation error => "code generation failed: " ++ error.message
  | .wrongExtension path => s!"'{path}' is not a .tinka file"
  | .unreadable path cause => s!"cannot read '{path}': " ++ cause.message
  | .unwritable path cause => s!"cannot write '{path}': " ++ cause.message

end TinkaCompiler
