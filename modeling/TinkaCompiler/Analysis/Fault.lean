import TinkaCompiler.Position
import TinkaCompiler.Word

/-! What can be wrong with the words of a source, and where.

The first violation ends the analysis, so there is never more than one. -/

set_option autoImplicit false

namespace TinkaCompiler

inductive Violation where
  | outsideFunction (keyword : String)
  | insideFunction (keyword : String)
  | unexpectedEnd (keyword : String)
  | missingTerminator (keyword terminator : String)
  | badFunctionName (name : String)
  | reservedName (name : String)
  | unknownComparison (keyword left comparison right : String)
  | notAVariable (word : String)
  | invalidOperand (word : String)
  | invalidLength (word : String)
  | invalidParameter (word : String)
  | unknownWord (word : String)
  | missingOpener (keyword found : String)
  | unexpectedOpener
  | unmatchedCloser
  | unbalancedBlocks (depth : Nat)
  deriving DecidableEq, Repr

def Violation.message : Violation → String
  | .outsideFunction keyword => s!"can't use '{keyword}' outside of a cersva"
  | .insideFunction keyword => s!"can't use '{keyword}' inside a cersva"
  | .unexpectedEnd keyword => s!"unexpected end of input after '{keyword}'"
  | .missingTerminator keyword terminator =>
    s!"'{keyword}' is not terminated: '{terminator}' not found"
  | .badFunctionName name => s!"bad cersva name '{name}': must not start with a digit"
  | .reservedName name => s!"'{name}' is reserved and can't be defined"
  | .unknownComparison keyword left comparison right =>
    s!"unknown comparison '{comparison}' in '{keyword} {left} {comparison} {right}'"
  | .notAVariable word => s!"call result must be stored in a variable, got '{word}'"
  | .invalidOperand word => s!"invalid operand '{word}'"
  | .invalidLength word => s!"invalid anax length in '{word}'"
  | .invalidParameter word => s!"invalid cersva parameter '{word}'"
  | .unknownWord word => s!"unknown word '{word}'"
  | .missingOpener keyword found => s!"expected 'rinyv' after '{keyword}', but got '{found}'"
  | .unexpectedOpener => "'rinyv' must follow a cersva, fi or fal header"
  | .unmatchedCloser => "'situv' without a matching 'rinyv'"
  | .unbalancedBlocks depth =>
    s!"'rinyv' count does not equal 'situv' count ({depth} block(s) left open)"

inductive Site where
  | word (offset : Nat)
  | endOfInput
  deriving DecidableEq, Repr

structure Fault where
  violation : Violation
  site : Site
  deriving DecidableEq, Repr

namespace Fault

def atWord (word : Word) (violation : Violation) : Fault :=
  ⟨violation, .word word.offset⟩

def atEnd (violation : Violation) : Fault :=
  ⟨violation, .endOfInput⟩

def offset (fault : Fault) (source : String) : Nat :=
  match fault.site with
  | .word offset => offset
  | .endOfInput => source.utf8ByteSize

def position (fault : Fault) (file source : String) : Position :=
  Position.ofOffset file source (fault.offset source)

end Fault
end TinkaCompiler
