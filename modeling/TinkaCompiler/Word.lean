import TinkaCompiler.Text.Blank

/-! Words of a source text.

A source has no punctuation: words are separated by blanks, and two hyphens
start a comment that runs to the end of the line. A single hyphen belongs to its
word together with the character after it, whatever that is, so hyphenated words
stay in one piece. A hyphen that is the last character of the text is dropped.
Cutting a text into words cannot fail. -/

set_option autoImplicit false

namespace TinkaCompiler

/-- A word and the number of UTF-8 bytes in front of it. -/
structure Word where
  text : String
  offset : Nat
  deriving DecidableEq, Repr

namespace Word

/-- What the scan is in the middle of. The characters of an unfinished word are
kept last one first. -/
inductive Mode where
  | between
  | inside (start : Nat) (reversed : List Char)
  | comment
  deriving DecidableEq, Repr

def Mode.finished : Mode → List Word
  | .inside start reversed => [⟨String.ofList reversed.reverse, start⟩]
  | .between | .comment => []

def Mode.extend (mode : Mode) (offset : Nat) (c : Char) : Mode :=
  match mode with
  | .inside start reversed => .inside start (c :: reversed)
  | .between | .comment => .inside offset [c]

def endsLine (c : Char) : Bool :=
  c == '\n' || c == '\r'

/-- The words of the remaining characters, of which the first stands `offset`
bytes into the source. -/
def scan (mode : Mode) (offset : Nat) : List Char → List Word
  | [] => mode.finished
  | c :: rest =>
    match mode with
    | .comment => scan (if endsLine c then .between else .comment) (offset + c.utf8Size) rest
    | mode =>
      if c = '-' then
        match rest with
        | [] => mode.finished
        | next :: rest =>
          if next = '-' then mode.finished ++ scan .comment (offset + 2) rest
          else scan ((mode.extend offset c).extend (offset + 1) next)
            (offset + 1 + next.utf8Size) rest
      else if Text.isBlank c then mode.finished ++ scan .between (offset + c.utf8Size) rest
      else scan (mode.extend offset c) (offset + c.utf8Size) rest

def ofSource (source : String) : List Word :=
  scan .between 0 source.toList

def describe : Option Word → String
  | some word => word.text
  | none => "EOF"

end Word
end TinkaCompiler
