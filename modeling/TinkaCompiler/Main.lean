import TinkaCompiler.CommandLine

/-! The command line on a real file system. -/

set_option autoImplicit false

namespace TinkaCompiler

abbrev Terminal := ReaderT Bool IO

namespace Terminal

/-- The number of an error; some operations report it negated. -/
def systemCode (code : UInt32) : Nat :=
  if code.toNat < 2147483648 then code.toNat else (0 - code).toNat

def ofCode (code : Nat) (details : String) : FileError :=
  match code with
  | 2 => .missing
  | 16 => .busy
  | 20 => .notDirectory
  | 21 => .isDirectory
  | _ => .system details code

def cause : IO.Error → FileError
  | .noFileOrDirectory .. => .missing
  | .alreadyExists _ code details | .invalidArgument _ code details
  | .permissionDenied _ code details
  | .resourceExhausted _ code details | .inappropriateType _ code details
  | .noSuchThing _ code details
  | .otherError code details | .resourceBusy code details | .resourceVanished code details
  | .unsupportedOperation code details | .hardwareFault code details
  | .unsatisfiedConstraints code details | .illegalOperation code details
  | .protocolError code details | .timeExpired code details | .interrupted _ code details =>
    ofCode (systemCode code) details
  | .unexpectedEof => .system "unexpected end of file" 0
  | .userError details => .system details 0

def guarded {α : Type} (action : IO α) : Terminal (Except FileError α) := fun _ => do
  try
    return .ok (← action)
  catch error =>
    return .error (cause error)

instance : FileAccess Terminal where
  read path := guarded (IO.FS.readBinFile path.render)
  write path contents := guarded (IO.FS.writeBinFile path.render contents)
  rename source target := guarded (IO.FS.rename source.render target.render)
  remove path := guarded (IO.FS.removeFile path.render)
  report event := fun verbose => do
    if verbose || event.level = .warning then
      IO.eprintln event.render

def isVerbose (arguments : List String) : Bool :=
  match CommandLine.parse arguments with
  | .ok (.build options) => options.verbose
  | _ => false

end Terminal
end TinkaCompiler

open TinkaCompiler in
def main (arguments : List String) : IO UInt32 := do
  let session : Terminal CommandLine.Exit := CommandLine.run arguments
  let exit ← session.run (Terminal.isVerbose arguments)
  IO.print exit.output
  IO.eprint exit.errors
  return exit.status.toUInt32
