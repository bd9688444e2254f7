import TinkaCompiler.Instruction

/-! Emitting instructions in a way that may fail part of the way.

What was emitted before a failure is kept, so the instructions and the outcome are
separate fields. -/

set_option autoImplicit false

namespace TinkaCompiler

inductive GenerationError where
  | undefinedVariable (name : String)
  | notAddressable (operand : String)
  | invalidPosition (operand : String)
  | unmatchedBlock
  | unclosedBlocks (count : Nat)
  deriving DecidableEq, Repr

def GenerationError.message : GenerationError → String
  | .undefinedVariable name => s!"undefined variable '{name}'"
  | .notAddressable operand => s!"invalid arguments: '{operand}'"
  | .invalidPosition operand => s!"element offset out of range in '{operand}'"
  | .unmatchedBlock => "block delimiter without an open block"
  | .unclosedBlocks count => s!"{count} block(s) never closed"

structure Emission (α : Type) where
  code : List Instruction
  outcome : Except GenerationError α

namespace Emission

variable {α β : Type}

/-- Goes on with `after` unless the first part has failed. -/
def follow (first : Emission α) (after : α → Emission β) : Emission β :=
  match first.outcome with
  | .error error => ⟨first.code, .error error⟩
  | .ok value =>
    let next := after value
    ⟨first.code ++ next.code, next.outcome⟩

instance : Monad Emission where
  pure value := ⟨[], .ok value⟩
  bind := follow

def emit (code : List Instruction) : Emission Unit :=
  ⟨code, .ok ()⟩

def ofExcept (outcome : Except GenerationError α) : Emission α :=
  ⟨[], outcome⟩

theorem bind_eq_follow (first : Emission α) (after : α → Emission β) :
    first >>= after = first.follow after :=
  rfl

theorem follow_of_ok {first : Emission α} {value : α} (success : first.outcome = .ok value)
    (after : α → Emission β) :
    first.follow after = ⟨first.code ++ (after value).code, (after value).outcome⟩ := by
  simp only [follow, success]

theorem follow_of_error {first : Emission α} {error : GenerationError}
    (failure : first.outcome = .error error) (after : α → Emission β) :
    first.follow after = ⟨first.code, .error error⟩ := by
  simp only [follow, failure]

end Emission
end TinkaCompiler
