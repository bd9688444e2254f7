import TinkaCompiler.Analysis.Fault
import TinkaCompiler.Analysis.Keyword
import TinkaCompiler.Expression
import TinkaCompiler.Text.Decimal

/-! Reading the words that follow a keyword.

Each reader takes the words after the keyword and gives back what it read with
the words it left. What it took always stands at the front of its input. -/

set_option autoImplicit false

namespace TinkaCompiler

namespace Word

def operand (word : Word) : Except Fault Operand :=
  match Operand.read? word.text with
  | some operand => .ok operand
  | none => .error (.atWord word (.invalidOperand word.text))

def startsWithDigit (text : List Char) : Bool :=
  match text with
  | c :: _ => c.isDigit
  | [] => false

/-- The name of a function. Digits at its start would make it a constant. -/
def functionName (word : Word) : Except Fault String :=
  if startsWithDigit word.text.toList then .error (.atWord word (.badFunctionName word.text))
  else .ok word.text

def pointerMark (text : List Char) : List Char × Bool :=
  match text.reverse with
  | '@' :: reversed => (reversed.reverse, true)
  | _ => (text, false)

/-- A parameter; a separator at its end marks a pointer. -/
def parameter (word : Word) : Except Fault Parameter :=
  let (name, pointer) := pointerMark word.text.toList
  if name = [] ∨ startsWithDigit name ∨ '@' ∈ name then
    .error (.atWord word (.invalidParameter word.text))
  else .ok ⟨String.ofList name, pointer⟩

/-- Lengths of variables take 32 bits, so they are below this number of cells. -/
def lengthLimit : Nat := 4294967296

/-- A declared variable: `x` is one cell, `x@n` is a pointer to `n` cells. -/
def declaration (word : Word) : Except Fault Expression :=
  let text := word.text.toList
  match text.dropWhile (· != '@') with
  | [] => .ok (.declare word.text false 1)
  | _ :: digits =>
    let name := text.takeWhile (· != '@')
    match Text.Decimal.readBelow? lengthLimit digits with
    | some length =>
      if 0 < length ∧ name ≠ [] then .ok (.declare (String.ofList name) true length)
      else .error (.atWord word (.invalidLength word.text))
    | none => .error (.atWord word (.invalidLength word.text))

end Word

namespace Statement

def next (keyword : String) : List Word → Except Fault (Word × List Word)
  | [] => .error (.atEnd (.unexpectedEnd keyword))
  | word :: rest => .ok (word, rest)

/-- The words before a terminator, and the rest from the terminator on. The fault
is at the keyword, since nothing else is known to be wrong. -/
def upTo (keyword : Word) (terminator : String) (words : List Word) :
    Except Fault (List Word × List Word) :=
  match words.dropWhile (·.text != terminator) with
  | [] => .error (.atWord keyword (.missingTerminator keyword.text terminator))
  | rest => .ok (words.takeWhile (·.text != terminator), rest)

/-- The comparison is looked up before either operand is read. -/
def readCondition (keyword : String) : List Word → Except Fault (Condition × List Word)
  | left :: comparison :: right :: rest =>
    match Comparison.ofWord? comparison.text with
    | none =>
      .error (.atWord comparison (.unknownComparison keyword left.text comparison.text right.text))
    | some written => do
      let leftOperand ← left.operand
      let rightOperand ← right.operand
      .ok (⟨leftOperand, written.complement, rightOperand⟩, rest)
  | _ => .error (.atEnd (.unexpectedEnd keyword))

/-- A number of operands, each checked before the next word is looked at. -/
def readOperands (keyword : String) : Nat → List Word → Except Fault (List Operand × List Word)
  | 0, words => .ok ([], words)
  | count + 1, words => do
    let (word, rest) ← next keyword words
    let operand ← word.operand
    let (operands, rest) ← readOperands keyword count rest
    .ok (operand :: operands, rest)

/-- Name and parameters. The opener that ends them is left to be read. -/
def readFunction (keyword : Word) (words : List Word) : Except Fault (Expression × List Word) := do
  let (word, rest) ← next keyword.text words
  let name ← word.functionName
  if name = Keyword.reservedSpelling then .error (.atWord word (.reservedName name))
  else
    let (parameterWords, rest) ← upTo keyword Keyword.openBlock.word rest
    let parameters ← parameterWords.mapM Word.parameter
    .ok (.function name parameters, rest)

def callTarget (name : String) : String :=
  if name = Keyword.reservedSpelling then Keyword.reservedTarget else name

def destination (word : Word) : Except Fault Destination :=
  if word.text = Keyword.discard then .ok .discard
  else do
    match ← word.operand with
    | .variable name position => .ok (.variable name position)
    | .constant _ | .function _ => .error (.atWord word (.notAVariable word.text))

def readCall (keyword : Word) (words : List Word) : Except Fault (Expression × List Word) := do
  let (word, rest) ← next keyword.text words
  let name ← word.functionName
  let (argumentWords, rest) ← upTo keyword Keyword.argumentsEnd rest
  let arguments ← argumentWords.mapM Word.operand
  let (target, rest) ← next Keyword.argumentsEnd rest.tail
  let result ← destination target
  .ok (.call (callTarget name) arguments result, rest)

theorem bind_eq_ok {ε α β : Type} {first : Except ε α} {after : α → Except ε β} {result : β} :
    first >>= after = .ok result ↔ ∃ value, first = .ok value ∧ after value = .ok result := by
  cases first with
  | error error => constructor <;> simp [bind, Except.bind]
  | ok value => constructor <;> simp [bind, Except.bind]

theorem next_eq_ok {keyword : String} {words : List Word} {word : Word} {rest : List Word} :
    next keyword words = .ok (word, rest) ↔ words = word :: rest := by
  cases words <;> simp [next]

theorem append_of_upTo {keyword : Word} {terminator : String} {words before rest : List Word}
    (found : upTo keyword terminator words = .ok (before, rest)) : before ++ rest = words := by
  unfold upTo at found
  split at found
  · cases found
  · rename_i remaining
    cases found
    exact List.takeWhile_append_dropWhile

theorem suffix_of_readCondition {keyword : String} {words rest : List Word} {condition : Condition}
    (read : readCondition keyword words = .ok (condition, rest)) : rest <:+ words := by
  unfold readCondition at read
  split at read
  · split at read
    · cases read
    · obtain ⟨_, _, read⟩ := bind_eq_ok.mp read
      obtain ⟨_, _, read⟩ := bind_eq_ok.mp read
      cases read
      exact ⟨[_, _, _], rfl⟩
  · cases read

theorem suffix_of_readOperands {keyword : String} {count : Nat} {words rest : List Word}
    {operands : List Operand} (read : readOperands keyword count words = .ok (operands, rest)) :
    rest <:+ words := by
  induction count generalizing words operands with
  | zero => cases read; exact List.suffix_refl _
  | succ count ih =>
      obtain ⟨⟨word, remaining⟩, taken, read⟩ := bind_eq_ok.mp read
      obtain ⟨_, _, read⟩ := bind_eq_ok.mp read
      obtain ⟨⟨_, _⟩, tail, read⟩ := bind_eq_ok.mp read
      cases read
      rw [next_eq_ok.mp taken]
      exact (ih tail).trans (List.suffix_cons word remaining)

theorem suffix_of_readFunction {keyword : Word} {words rest : List Word} {expression : Expression}
    (read : readFunction keyword words = .ok (expression, rest)) : rest <:+ words := by
  obtain ⟨⟨word, remaining⟩, taken, read⟩ := bind_eq_ok.mp read
  obtain ⟨_, _, read⟩ := bind_eq_ok.mp read
  rw [next_eq_ok.mp taken]
  split at read
  · cases read
  · obtain ⟨⟨parameterWords, _⟩, split, read⟩ := bind_eq_ok.mp read
    obtain ⟨_, _, read⟩ := bind_eq_ok.mp read
    cases read
    have left : rest <:+ remaining := ⟨parameterWords, append_of_upTo split⟩
    exact left.trans (List.suffix_cons word remaining)

theorem suffix_of_readCall {keyword : Word} {words rest : List Word} {expression : Expression}
    (read : readCall keyword words = .ok (expression, rest)) : rest <:+ words := by
  obtain ⟨⟨word, remaining⟩, taken, read⟩ := bind_eq_ok.mp read
  obtain ⟨_, _, read⟩ := bind_eq_ok.mp read
  obtain ⟨⟨argumentWords, fromEnd⟩, split, read⟩ := bind_eq_ok.mp read
  obtain ⟨_, _, read⟩ := bind_eq_ok.mp read
  obtain ⟨⟨target, left⟩, targetTaken, read⟩ := bind_eq_ok.mp read
  obtain ⟨_, _, read⟩ := bind_eq_ok.mp read
  cases read
  have tail : rest <:+ fromEnd.tail := by
    rw [next_eq_ok.mp targetTaken]
    exact List.suffix_cons target rest
  rw [next_eq_ok.mp taken]
  exact ((tail.trans (List.tail_suffix fromEnd)).trans ⟨argumentWords, append_of_upTo split⟩).trans
    (List.suffix_cons word remaining)

end Statement
end TinkaCompiler
