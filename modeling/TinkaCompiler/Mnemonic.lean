/-! Target instructions that may be written directly in a source. -/

set_option autoImplicit false

namespace TinkaCompiler

inductive Mnemonic where
  | nac | krz | kRz | ata | nta | kak | ada | ekc | dal | dto | dro | dRo | dtosna | lat | latsna
  deriving DecidableEq, Repr

namespace Mnemonic

def all : List Mnemonic :=
  [.nac, .krz, .kRz, .ata, .nta, .kak, .ada, .ekc, .dal, .dto, .dro, .dRo, .dtosna, .lat, .latsna]

def word : Mnemonic → String
  | .nac => "nac"
  | .krz => "krz"
  | .kRz => "kRz"
  | .ata => "ata"
  | .nta => "nta"
  | .kak => "kak"
  | .ada => "ada"
  | .ekc => "ekc"
  | .dal => "dal"
  | .dto => "dto"
  | .dro => "dro"
  | .dRo => "dRo"
  | .dtosna => "dtosna"
  | .lat => "lat"
  | .latsna => "latsna"

def ofWord? (text : String) : Option Mnemonic :=
  all.find? (·.word == text)

@[simp]
theorem ofWord?_word (mnemonic : Mnemonic) : ofWord? mnemonic.word = some mnemonic := by
  cases mnemonic <;> decide

def arity : Mnemonic → Nat
  | .nac => 1
  | .lat | .latsna => 3
  | _ => 2

def writes (mnemonic : Mnemonic) (index : Nat) : Bool :=
  match mnemonic with
  | .nac => index == 0
  | .lat | .latsna => 1 ≤ index
  | _ => index == 1

end Mnemonic
end TinkaCompiler
