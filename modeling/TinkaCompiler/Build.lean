import TinkaCompiler.Event
import TinkaCompiler.Files.Disk

/-! Building files: compile the inputs and write the output.

The output is written to a staging file beside it and then renamed, so a failed
write never leaves half a program behind. Nothing is written unless the
compilation succeeds. -/

set_option autoImplicit false

namespace TinkaCompiler

class FileAccess (m : Type → Type) where
  read : Path → m (Except FileError ByteArray)
  write : Path → ByteArray → m (Except FileError Unit)
  rename : Path → Path → m (Except FileError Unit)
  remove : Path → m (Except FileError Unit)
  report : Event → m Unit

/-- Files on a disk; reports are not kept. -/
instance : FileAccess (StateM Disk) where
  read path := fun disk => disk.read path
  write path contents := fun disk => disk.write path contents
  rename source target := fun disk => disk.rename source target
  remove path := fun disk => disk.remove path
  report _ := pure ()

/-- One operation on the files of a tree when nothing is refused. -/
def FileTree.undisturbed {α : Type} (operation : StateM Disk α) : StateM FileTree α :=
  fun tree =>
    let (outcome, disk) := operation.run ⟨tree, .empty⟩
    (outcome, disk.tree)

instance : FileAccess (StateM FileTree) where
  read path := FileTree.undisturbed (FileAccess.read path)
  write path contents := FileTree.undisturbed (FileAccess.write path contents)
  rename source target := FileTree.undisturbed (FileAccess.rename source target)
  remove path := FileTree.undisturbed (FileAccess.remove path)
  report _ := pure ()

namespace Build

variable {m : Type → Type} [Monad m] [FileAccess m]

def sourceExtension : String := "tinka"

def checkExtensions : List String → Except CompileError Unit
  | [] => .ok ()
  | input :: rest =>
    if (Path.ofString input).extension? = some sourceExtension then checkExtensions rest
    else .error (.wrongExtension input)

def reportAll : List Event → m Unit
  | [] => pure ()
  | event :: rest => do
    FileAccess.report event
    reportAll rest

def readSource (input : String) : m (Except CompileError Source) := do
  match ← FileAccess.read (Path.ofString input) with
  | .error cause => return .error (.unreadable input cause)
  | .ok bytes =>
    match String.fromUTF8? bytes with
    | none => return .error (.unreadable input .invalidText)
    | some text => return .ok ⟨input, text⟩

def analyzeFiles : List String → m (Except CompileError (List SourceUnit))
  | [] => return .ok []
  | input :: rest => do
    match ← readSource input with
    | .error error => return .error error
    | .ok source =>
      reportAll (Event.ofAnalysis source)
      match source.analyze with
      | .error error => return .error error
      | .ok unit =>
        match ← analyzeFiles rest with
        | .error error => return .error error
        | .ok units => return .ok (unit :: units)

/-- Compiles files as one program. All names are checked before any file is read. -/
def compile (inputs : List String) : m (Except CompileError Compilation) := do
  match checkExtensions inputs with
  | .error error => return .error error
  | .ok _ =>
    match ← analyzeFiles inputs with
    | .error error => return .error error
    | .ok units =>
      reportAll (Event.ofLink units)
      return Compilation.link units

/-- Removes what a failed write has left at the staging path. -/
def discard (staging : Path) : m Unit := do
  match ← FileAccess.remove staging with
  | .ok _ | .error .missing => return ()
  | .error cause => FileAccess.report (.stagingLeft staging.render cause)

def stage (staging target : Path) (contents : ByteArray) : m (Except FileError Unit) := do
  match ← FileAccess.write staging contents with
  | .error cause => return .error cause
  | .ok _ => FileAccess.rename staging target

def writeOutput (compilation : Compilation) (output : String) : m (Except CompileError Unit) := do
  let target := Path.ofString output
  match ← stage target.staging target compilation.assembly.toUTF8 with
  | .ok _ => return .ok ()
  | .error cause =>
    discard target.staging
    return .error (.unwritable output cause)

def build (inputs : List String) (output : String) : m (Except CompileError Compilation) := do
  match ← compile inputs with
  | .error error => return .error error
  | .ok compilation =>
    match ← writeOutput compilation output with
    | .error error => return .error error
    | .ok _ =>
      FileAccess.report (.wrote output)
      return .ok compilation

end Build
end TinkaCompiler
