/-! Natural numbers written in decimal, read under an upper limit. -/

set_option autoImplicit false

namespace TinkaCompiler.Text.Decimal

def value (digits : List Char) : Nat :=
  digits.foldl (fun total digit => total * 10 + (digit.toNat - '0'.toNat)) 0

def unsigned : List Char → List Char
  | '+' :: digits => digits
  | digits => digits

/-- Reads one optional plus sign and then at least one ASCII digit. A value that
does not stay below `limit` is refused rather than reduced. -/
def readBelow? (limit : Nat) (text : List Char) : Option Nat :=
  let digits := unsigned text
  if digits ≠ [] ∧ digits.all Char.isDigit ∧ value digits < limit then some (value digits) else none

theorem readBelow?_lt {limit : Nat} {text : List Char} {number : Nat}
    (found : readBelow? limit text = some number) : number < limit := by
  simp only [readBelow?] at found
  split at found
  · rename_i accepted
    cases found
    exact accepted.2.2
  · cases found

end TinkaCompiler.Text.Decimal
