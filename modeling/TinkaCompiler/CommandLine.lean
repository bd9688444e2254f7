import TinkaCompiler.Build

/-! The command line: `tinkac <FILE>... [-o|--output FILE] [-v|--verbose]`.

Options may stand before, between and after the files. Short options may share one
hyphen, the value of `-o` may follow it directly, and `--` ends the options. -/

set_option autoImplicit false

namespace TinkaCompiler
namespace CommandLine

structure Options where
  inputs : List String
  output : String
  verbose : Bool
  deriving DecidableEq, Repr

inductive Request where
  | build (options : Options)
  | help
  | version
  deriving DecidableEq, Repr

inductive UsageError where
  | noInput
  | unknownOption (option : String)
  | repeatedOption (option : String)
  | missingValue (option : String)
  | unexpectedValue (option : String)
  | emptyValue
  deriving DecidableEq, Repr

def UsageError.message : UsageError → String
  | .noInput => "no input file"
  | .unknownOption option => s!"unknown option '{option}'"
  | .repeatedOption option => s!"'{option}' is given twice"
  | .missingValue option => s!"'{option}' needs a value"
  | .unexpectedValue option => s!"'{option}' takes no value"
  | .emptyValue => "a file name is empty"

structure Settings where
  inputs : List String
  output : Option String
  verbose : Bool
  deriving DecidableEq, Repr

namespace Settings

def start : Settings := ⟨[], none, false⟩

def defaultOutput : String := "a.out"

def addInput (settings : Settings) (input : String) : Except UsageError Settings :=
  if input = "" then .error .emptyValue
  else .ok { settings with inputs := settings.inputs ++ [input] }

def setOutput (settings : Settings) (output : String) : Except UsageError Settings :=
  if output = "" then .error .emptyValue
  else if settings.output.isSome then .error (.repeatedOption "--output")
  else .ok { settings with output := some output }

def setVerbose (settings : Settings) : Except UsageError Settings :=
  if settings.verbose then .error (.repeatedOption "--verbose")
  else .ok { settings with verbose := true }

def addInputs (settings : Settings) : List String → Except UsageError Settings
  | [] => .ok settings
  | input :: rest => do
    let extended ← settings.addInput input
    extended.addInputs rest

def finish (settings : Settings) : Except UsageError Request :=
  if settings.inputs = [] then .error .noInput
  else .ok (.build ⟨settings.inputs, settings.output.getD defaultOutput, settings.verbose⟩)

end Settings

inductive Progress where
  | ready (settings : Settings)
  /-- The next argument is the output. -/
  | needsOutput (settings : Settings)
  /-- The remaining arguments do not matter. -/
  | stop (request : Request)

def readShort (settings : Settings) : List Char → Except UsageError Progress
  | [] => .ok (.ready settings)
  | 'v' :: rest => do
    let chosen ← settings.setVerbose
    readShort chosen rest
  | 'h' :: _ => .ok (.stop .help)
  | 'V' :: _ => .ok (.stop .version)
  | 'o' :: [] => .ok (.needsOutput settings)
  | 'o' :: '=' :: value => .ready <$> settings.setOutput (String.ofList value)
  | 'o' :: value => .ready <$> settings.setOutput (String.ofList value)
  | letter :: _ => .error (.unknownOption (String.ofList ['-', letter]))

def readLong (settings : Settings) (name : String) (value : Option String) :
    Except UsageError Progress :=
  match name, value with
  | "output", some output => .ready <$> settings.setOutput output
  | "output", none => .ok (.needsOutput settings)
  | "verbose", none => .ready <$> settings.setVerbose
  | "help", none => .ok (.stop .help)
  | "version", none => .ok (.stop .version)
  | "verbose", some _ | "help", some _
  | "version", some _ => .error (.unexpectedValue ("--" ++ name))
  | _, _ => .error (.unknownOption ("--" ++ name))

def splitValue (text : List Char) : String × Option String :=
  let name := String.ofList (text.takeWhile (· != '='))
  match text.dropWhile (· != '=') with
  | [] => (name, none)
  | _ :: value => (name, some (String.ofList value))

/-- Reads an argument that is not `--`. A hyphen alone is a file. -/
def readArgument (settings : Settings) (argument : String) : Except UsageError Progress :=
  match argument.toList with
  | '-' :: '-' :: long => readLong settings (splitValue long).1 (splitValue long).2
  | '-' :: letter :: rest => readShort settings (letter :: rest)
  | _ => .ready <$> settings.addInput argument

def looksLikeOption (argument : String) : Bool :=
  match argument.toList with
  | '-' :: _ :: _ => true
  | _ => false

def readAll (settings : Settings) : List String → Except UsageError Request
  | [] => settings.finish
  | argument :: rest =>
    if argument = "--" then do
      let extended ← settings.addInputs rest
      extended.finish
    else do
      match ← readArgument settings argument with
      | .ready next => readAll next rest
      | .stop request => .ok request
      | .needsOutput next =>
        match rest with
        | [] => .error (.missingValue argument)
        | value :: rest =>
          if looksLikeOption value then .error (.missingValue argument)
          else do
            let chosen ← next.setOutput value
            readAll chosen rest

def parse (arguments : List String) : Except UsageError Request :=
  readAll .start arguments

def usage : String :=
  "Usage: tinkac [OPTIONS] <FILE>...\n"

def help : String :=
  "Compile Tinka sources into 2003lk assembly\n\n" ++ usage ++
    "\nArguments:\n" ++
    "  <FILE>...  Input files, compiled as one program in the given order\n" ++
    "\nOptions:\n" ++
    "  -o, --output <FILE>  Output file [default: a.out]\n" ++
    "  -v, --verbose        Log pipeline progress\n" ++
    "  -h, --help           Print help\n" ++
    "  -V, --version        Print version\n"

def version : String :=
  "tinkac 0.1.0\n"

structure Exit where
  status : Nat
  output : String
  errors : String
  deriving DecidableEq, Repr

variable {m : Type → Type} [Monad m] [FileAccess m]

def perform : Request → m Exit
  | .help => return ⟨0, help, ""⟩
  | .version => return ⟨0, version, ""⟩
  | .build options => do
    match ← Build.build options.inputs options.output with
    | .ok _ => return ⟨0, "", ""⟩
    | .error error => return ⟨1, "", "error: " ++ error.message ++ "\n"⟩

def run (arguments : List String) : m Exit :=
  match parse arguments with
  | .error error => return ⟨2, "", "error: " ++ error.message ++ "\n\n" ++ usage⟩
  | .ok request => perform request

end CommandLine
end TinkaCompiler
