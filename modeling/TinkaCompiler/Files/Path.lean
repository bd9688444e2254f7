/-! Paths, as written and as names from directory to directory. -/

set_option autoImplicit false

namespace TinkaCompiler

structure Path where
  /-- Whether the path starts at the root rather than at the current directory. -/
  fromRoot : Bool
  /-- Names between the slashes, `.` and `..` among them; none is empty. -/
  segments : List String
  /-- Whether a slash ends the path. -/
  endsInSlash : Bool
  deriving DecidableEq, Repr

namespace Path

def ofString (text : String) : Path :=
  let chars := text.toList
  { fromRoot := chars.head? == some '/'
    segments := ((chars.splitOn '/').filter (· ≠ [])).map String.ofList
    endsInSlash := chars.getLast? == some '/' }

def render (path : Path) : String :=
  let names := "/".intercalate path.segments
  let start := if path.fromRoot then "/" else ""
  start ++ names ++ (if path.endsInSlash && !path.segments.isEmpty then "/" else "")

def names (path : Path) : List String :=
  path.segments.filter (· ≠ ".")

def fileName? (path : Path) : Option String :=
  match path.names.getLast? with
  | some name => if name = ".." then none else some name
  | none => none

/-- What follows the last dot of a file's name. A name that only starts with a dot
has no extension. -/
def nameExtension? (name : String) : Option String :=
  let reversed := name.toList.reverse
  match reversed.dropWhile (· != '.') with
  | [] | [_] => none
  | _ => some (String.ofList (reversed.takeWhile (· != '.')).reverse)

def extension? (path : Path) : Option String :=
  path.fileName?.bind nameExtension?

def stagingSuffix : String := ".partial"

/-- The path beside this one where a file is kept until it is complete. -/
def staging (path : Path) : Path :=
  match path.fileName? with
  | some name => ⟨path.fromRoot, path.names.dropLast ++ [name ++ stagingSuffix], false⟩
  | none => ⟨path.fromRoot, path.names ++ [stagingSuffix], false⟩

end Path
end TinkaCompiler
