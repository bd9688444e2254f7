/-! Places in a source text as people read them: line, column and the line itself.

Lines and columns count from one, and columns count characters. An offset that
falls inside a character stands for the start of that character, and one past
the end of the text for the end. -/

set_option autoImplicit false

namespace TinkaCompiler

structure Position where
  file : String
  line : Nat
  column : Nat
  sourceLine : String
  deriving DecidableEq, Repr

namespace Position

/-- The longest run of leading characters that fits in a number of UTF-8 bytes. -/
def takeBytes : Nat → List Char → List Char
  | _, [] => []
  | room, c :: rest => if c.utf8Size ≤ room then c :: takeBytes (room - c.utf8Size) rest else []

theorem takeBytes_prefix (room : Nat) (text : List Char) : takeBytes room text <+: text := by
  induction text generalizing room with
  | nil => exact List.nil_prefix
  | cons c rest ih =>
      simp only [takeBytes]
      split
      · exact (List.prefix_cons_inj c).mpr (ih _)
      · exact List.nil_prefix

def lastLine (text : List Char) : List Char :=
  (text.reverse.takeWhile (· != '\n')).reverse

def trimReturns (text : List Char) : List Char :=
  (text.reverse.dropWhile (· == '\r')).reverse

def ofOffset (file source : String) (offset : Nat) : Position :=
  let before := takeBytes offset source.toList
  let after := source.toList.drop before.length
  let left := lastLine before
  { file
    line := before.count '\n' + 1
    column := left.length + 1
    sourceLine := String.ofList (trimReturns (left ++ after.takeWhile (· != '\n'))) }

def render (position : Position) : String :=
  let caret := String.ofList (List.replicate (position.column - 1) ' ')
  "  --> " ++ position.file ++ ":" ++ toString position.line ++ ":" ++ toString position.column ++
    "\n   | " ++ position.sourceLine ++ "\n   | " ++ caret ++ "^"

end Position
end TinkaCompiler
