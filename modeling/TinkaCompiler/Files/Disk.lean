import TinkaCompiler.Files.FileTree

/-! A file tree on a system that may refuse what the tree allows.

An operation that is refused changes nothing, but for a write: that may stop after the
file has been opened, and then anything may be left in the file. -/

set_option autoImplicit false

namespace TinkaCompiler

/-- A write that is stopped, with what it leaves in the file if it has opened it. -/
structure BrokenWrite where
  cause : FileError
  left : Option ByteArray

/-- What the system refuses: for each kind of operation, one entry for every time that it
is asked for. Behind the end of a list nothing is refused. -/
structure Faults where
  reads : List (Option FileError)
  writes : List (Option BrokenWrite)
  renames : List (Option FileError)
  removals : List (Option FileError)

namespace Faults

def empty : Faults := ⟨[], [], [], []⟩

def next {α : Type} (faults : List (Option α)) : Option α :=
  faults.head?.join

def guard {α : Type} (faults : List (Option FileError)) (outcome : Except FileError α) :
    Except FileError α :=
  match next faults with
  | some cause => .error cause
  | none => outcome

end Faults

def FileTree.settle (tree : FileTree) : Except FileError FileTree → Except FileError Unit × FileTree
  | .ok changed => (.ok (), changed)
  | .error cause => (.error cause, tree)

/-- A write that is stopped. What the tree does not allow fails before that. -/
def FileTree.breakWrite (tree : FileTree) (path : Path) (broken : BrokenWrite) :
    Except FileError Unit × FileTree :=
  match broken.left with
  | none => (.error broken.cause, tree)
  | some left =>
    match tree.write path left with
    | .ok changed => (.error broken.cause, changed)
    | .error cause => (.error cause, tree)

structure Disk where
  tree : FileTree
  faults : Faults

namespace Disk

def read (disk : Disk) (path : Path) : Except FileError ByteArray × Disk :=
  let { tree, faults } := disk
  (Faults.guard faults.reads (tree.read path),
    { tree, faults := { faults with reads := faults.reads.tail } })

def write (disk : Disk) (path : Path) (contents : ByteArray) : Except FileError Unit × Disk :=
  let { tree, faults } := disk
  let (outcome, tree) :=
    match Faults.next faults.writes with
    | some broken => tree.breakWrite path broken
    | none => tree.settle (tree.write path contents)
  (outcome, { tree, faults := { faults with writes := faults.writes.tail } })

def rename (disk : Disk) (source target : Path) : Except FileError Unit × Disk :=
  let { tree, faults } := disk
  let (outcome, tree) := tree.settle (Faults.guard faults.renames (tree.rename source target))
  (outcome, { tree, faults := { faults with renames := faults.renames.tail } })

def remove (disk : Disk) (path : Path) : Except FileError Unit × Disk :=
  let { tree, faults } := disk
  let (outcome, tree) := tree.settle (Faults.guard faults.removals (tree.remove path))
  (outcome, { tree, faults := { faults with removals := faults.removals.tail } })

end Disk
end TinkaCompiler
