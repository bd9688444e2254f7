/-! Why a file operation fails. -/

set_option autoImplicit false

namespace TinkaCompiler

inductive FileError where
  | missing
  /-- A file stands where a path goes on. -/
  | notDirectory
  | isDirectory
  /-- A rename onto a directory that is named by its place, such as `..`. -/
  | busy
  /-- The bytes are not text in UTF-8. -/
  | invalidText
  /-- Any other refusal by the system. -/
  | system (description : String) (code : Nat)
  deriving DecidableEq, Repr

def FileError.message : FileError → String
  | .missing => "No such file or directory (os error 2)"
  | .notDirectory => "Not a directory (os error 20)"
  | .isDirectory => "Is a directory (os error 21)"
  | .busy => "Device or resource busy (os error 16)"
  | .invalidText => "stream did not contain valid UTF-8"
  | .system description code => s!"{description} (os error {code})"

end TinkaCompiler
