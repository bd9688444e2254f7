/-! The comparison words of a condition. -/

set_option autoImplicit false

namespace TinkaCompiler

inductive Comparison where
  | xtlo | xylo | clo | niv | llo | xolo | xtlonys | xylonys | llonys | xolonys
  deriving DecidableEq, Repr

namespace Comparison

def all : List Comparison :=
  [.xtlo, .xylo, .clo, .niv, .llo, .xolo, .xtlonys, .xylonys, .llonys, .xolonys]

def word : Comparison → String
  | .xtlo => "xtlo"
  | .xylo => "xylo"
  | .clo => "clo"
  | .niv => "niv"
  | .llo => "llo"
  | .xolo => "xolo"
  | .xtlonys => "xtlonys"
  | .xylonys => "xylonys"
  | .llonys => "llonys"
  | .xolonys => "xolonys"

def ofWord? (text : String) : Option Comparison :=
  all.find? (·.word == text)

/-- The comparison that holds exactly when this one does not. -/
def complement : Comparison → Comparison
  | .xtlo => .llo
  | .llo => .xtlo
  | .xylo => .xolo
  | .xolo => .xylo
  | .clo => .niv
  | .niv => .clo
  | .xtlonys => .llonys
  | .llonys => .xtlonys
  | .xylonys => .xolonys
  | .xolonys => .xylonys

@[simp]
theorem complement_complement (comparison : Comparison) :
    comparison.complement.complement = comparison := by
  cases comparison <;> rfl

@[simp]
theorem ofWord?_word (comparison : Comparison) : ofWord? comparison.word = some comparison := by
  cases comparison <;> decide

end Comparison
end TinkaCompiler
