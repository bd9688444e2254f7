import TinkaCompiler.Files.FileError
import TinkaCompiler.Files.Path

/-! A tree of directories and regular files, with the operations a build needs.

A location is the list of names that lead to it from the root. There are no links,
so a location stands for one entry and `..` is the location without its last name. -/

set_option autoImplicit false

namespace TinkaCompiler

abbrev Location := List String

inductive Entry where
  | directory
  | file (contents : ByteArray)

structure FileTree where
  /-- Everything but the root, which is always a directory. -/
  entries : List (Location × Entry)
  /-- Where relative paths start. -/
  current : Location

namespace FileTree

def find? (tree : FileTree) (location : Location) : Option Entry :=
  if location = [] then some .directory else tree.entries.lookup location

def erase (tree : FileTree) (location : Location) : FileTree :=
  { tree with entries := tree.entries.filter (·.1 ≠ location) }

def insert (tree : FileTree) (location : Location) (entry : Entry) : FileTree :=
  { tree with entries := (location, entry) :: (tree.erase location).entries }

@[simp]
theorem find?_root (tree : FileTree) : tree.find? [] = some .directory := rfl

theorem lookup_filter (keep : Location → Bool) (location : Location)
    (entries : List (Location × Entry)) :
    (entries.filter (keep ·.1)).lookup location = if keep location then entries.lookup location
      else none := by
  induction entries with
  | nil => simp
  | cons entry rest ih =>
      obtain ⟨key, value⟩ := entry
      by_cases same : location = key
      · subst same
        cases kept : keep location <;> simp [kept, ih]
      · have different : (location == key) = false := beq_eq_false_iff_ne.mpr same
        cases kept : keep key <;> simp [kept, List.lookup_cons, different, ih]

theorem lookup_erase (tree : FileTree) (location other : Location) :
    (tree.erase location).entries.lookup other =
      if other = location then none else tree.entries.lookup other := by
  have filtered := lookup_filter (fun key => decide (key ≠ location)) other tree.entries
  by_cases same : other = location
  · simpa [erase, same] using filtered
  · simpa [erase, same] using filtered

theorem find?_erase_of_ne (tree : FileTree) {location other : Location}
    (different : other ≠ location) :
    (tree.erase location).find? other = tree.find? other := by
  simp only [find?, lookup_erase, if_neg different]

theorem find?_erase_self (tree : FileTree) {location : Location} (below : location ≠ []) :
    (tree.erase location).find? location = none := by
  simp only [find?, lookup_erase, if_neg below, if_true]

theorem find?_insert_of_ne (tree : FileTree) {location other : Location} (entry : Entry)
    (different : other ≠ location) :
    (tree.insert location entry).find? other = tree.find? other := by
  have absent : (other == location) = false := beq_eq_false_iff_ne.mpr different
  simp only [find?, insert, List.lookup_cons, absent, lookup_erase, if_neg different]

theorem find?_insert_self (tree : FileTree) {location : Location} (entry : Entry)
    (below : location ≠ []) :
    (tree.insert location entry).find? location = some entry := by
  simp only [find?, insert, if_neg below, List.lookup_cons, beq_self_eq_true]

def walk (tree : FileTree) (location : Location) : List String → Except FileError Location
  | [] => .ok location
  | name :: rest =>
    if name = "." then tree.walk location rest
    else if name = ".." then tree.walk location.dropLast rest
    else
      match tree.find? (location ++ [name]) with
      | some .directory => tree.walk (location ++ [name]) rest
      | some (.file _) => .error .notDirectory
      | none => .error .missing

/-- What a path leads to: a name in a directory, which may be taken or free, or a
directory that the path names by its place. -/
inductive Spot where
  | child (parent : Location) (name : String)
  | place (location : Location)
  deriving DecidableEq, Repr

def start (tree : FileTree) (path : Path) : Location :=
  if path.fromRoot then [] else tree.current

/-- All segments but the last must be directories. The empty path leads nowhere. -/
def resolve (tree : FileTree) (path : Path) : Except FileError Spot :=
  match path.segments.getLast? with
  | none => if path.fromRoot then .ok (.place []) else .error .missing
  | some last => do
    let parent ← tree.walk (tree.start path) path.segments.dropLast
    if last = "." then .ok (.place parent)
    else if last = ".." then .ok (.place parent.dropLast)
    else .ok (.child parent last)

def read (tree : FileTree) (path : Path) : Except FileError ByteArray := do
  match ← tree.resolve path with
  | .place _ => .error .isDirectory
  | .child parent name =>
    match tree.find? (parent ++ [name]) with
    | none => .error .missing
    | some .directory => .error .isDirectory
    | some (.file contents) => if path.endsInSlash then .error .notDirectory else .ok contents

def write (tree : FileTree) (path : Path) (contents : ByteArray) : Except FileError FileTree := do
  match ← tree.resolve path with
  | .place _ => .error .isDirectory
  | .child parent name =>
    if path.endsInSlash then .error .isDirectory
    else
      match tree.find? (parent ++ [name]) with
      | some .directory => .error .isDirectory
      | some (.file _) | none => .ok (tree.insert (parent ++ [name]) (.file contents))

/-- Moves a file over a file or a free name, in one step. Both paths are followed
before anything else is looked at. -/
def rename (tree : FileTree) (source target : Path) : Except FileError FileTree := do
  let sourceSpot ← tree.resolve source
  let targetSpot ← tree.resolve target
  match sourceSpot, targetSpot with
  | .place _, _ | _, .place _ => .error .busy
  | .child sourceParent sourceName, .child targetParent targetName =>
    match tree.find? (sourceParent ++ [sourceName]) with
    | none => .error .missing
    | some .directory => .error .isDirectory
    | some (.file contents) =>
      if source.endsInSlash ∨ target.endsInSlash then .error .notDirectory
      else
        match tree.find? (targetParent ++ [targetName]) with
        | some .directory => .error .isDirectory
        | some (.file _) | none =>
          .ok ((tree.erase (sourceParent ++ [sourceName])).insert (targetParent ++ [targetName])
            (.file contents))

def remove (tree : FileTree) (path : Path) : Except FileError FileTree := do
  match ← tree.resolve path with
  | .place _ => .error .isDirectory
  | .child parent name =>
    match tree.find? (parent ++ [name]) with
    | none => .error .missing
    | some .directory => .error .isDirectory
    | some (.file _) =>
      if path.endsInSlash then .error .notDirectory else .ok (tree.erase (parent ++ [name]))

def makeDirectories (tree : FileTree) (location : Location) : List String → FileTree
  | [] => tree
  | name :: rest =>
    let next := location ++ [name]
    match tree.find? next with
    | some _ => tree.makeDirectories next rest
    | none => (tree.insert next .directory).makeDirectories next rest

def addDirectory (tree : FileTree) (path : Path) : FileTree :=
  tree.makeDirectories tree.current path.segments

def addFile (tree : FileTree) (path : Path) (contents : ByteArray) : FileTree :=
  (tree.makeDirectories tree.current path.segments.dropLast).insert (tree.current ++ path.segments)
    (.file contents)

def emptyAt (location : Location) : FileTree :=
  makeDirectories ⟨[], location⟩ [] location

def below (tree : FileTree) (location : Location) : List (Location × Entry) :=
  tree.entries.filterMap fun (other, entry) =>
    if location.isPrefixOf other ∧ other ≠ location then
      some (other.drop location.length, entry) else none

end FileTree
end TinkaCompiler
