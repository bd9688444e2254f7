import TinkaCompiler.Compilation

/-! Programs as trees.

The words of a source are a flat list, and so are its expressions. An outline holds
the same program with its blocks nested, and the conditions as they were written.
An outline gives expressions, and a list of words may spell an outline. Analysis
accepts exactly the words that spell one, and gives its expressions. -/

set_option autoImplicit false

namespace TinkaCompiler

/-- A condition as it was written: the block is entered if it holds. -/
structure Test where
  left : Operand
  comparison : Comparison
  right : Operand
  deriving DecidableEq, Repr

/-- The condition of a header, under which the block is skipped. -/
def Test.skipping (test : Test) : Condition :=
  ⟨test.left, test.comparison.complement, test.right⟩

inductive Leaf where
  | declare (name : String) (pointer : Bool) (length : Nat)
  | call (function : String) (arguments : List Operand) (destination : Destination)
  | raw (mnemonic : Mnemonic) (operands : List Operand)
  deriving DecidableEq, Repr

def Leaf.expression : Leaf → Expression
  | .declare name pointer length => .declare name pointer length
  | .call function arguments destination => .call function arguments destination
  | .raw mnemonic operands => .raw mnemonic operands

inductive Body where
  | done
  | act (leaf : Leaf) (rest : Body)
  | leave (value : Operand) (rest : Body)
  | branch (test : Test) (inner rest : Body)
  | loop (test : Test) (inner rest : Body)
  deriving DecidableEq, Repr

def Body.expressions (depth : Nat) : Body → List Expression
  | .done => []
  | .act leaf rest => leaf.expression :: rest.expressions depth
  | .leave value rest => .returnValue value :: rest.expressions depth
  | .branch test inner rest =>
    .branch test.skipping :: .openBlock (depth + 1) :: inner.expressions (depth + 1) ++
      .closeBlock (depth + 1) :: rest.expressions depth
  | .loop test inner rest =>
    .loop test.skipping :: .openBlock (depth + 1) :: inner.expressions (depth + 1) ++
      .closeBlock (depth + 1) :: rest.expressions depth

inductive Item where
  | exportLabel (label : String)
  | importLabel (label : String)
  | function (name : String) (parameters : List Parameter) (body : Body)
  deriving DecidableEq, Repr

def Item.expressions : Item → List Expression
  | .exportLabel label => [.exportLabel label]
  | .importLabel label => [.importLabel label]
  | .function name parameters body =>
    .function name parameters :: .openBlock 1 :: body.expressions 1 ++ [.closeBlock 1]

abbrev Outline := List Item

def Outline.expressions (outline : Outline) : List Expression :=
  outline.flatMap Item.expressions

@[simp]
theorem Outline.expressions_nil : Outline.expressions [] = [] :=
  rfl

@[simp]
theorem Outline.expressions_cons (item : Item) (rest : Outline) :
    Outline.expressions (item :: rest) = item.expressions ++ Outline.expressions rest := by
  simp [Outline.expressions]

@[simp]
theorem Outline.expressions_append (first second : Outline) :
    Outline.expressions (first ++ second) =
      Outline.expressions first ++ Outline.expressions second := by
  simp [Outline.expressions]

/-! Spelling. The readers of single words are those of the analysis. -/

inductive Test.Spelled : List Word → Test → Prop where
  | words {left comparison right : Word} {leftOperand rightOperand : Operand}
      {written : Comparison} :
      left.operand = .ok leftOperand → Comparison.ofWord? comparison.text = some written →
      right.operand = .ok rightOperand →
      Spelled [left, comparison, right] ⟨leftOperand, written, rightOperand⟩

inductive Leaf.Spelled : List Word → Leaf → Prop where
  | declare {keyword word : Word} {name : String} {pointer : Bool} {length : Nat} :
      keyword.text = Keyword.declare.word → word.declaration = .ok (.declare name pointer length) →
      Spelled [keyword, word] (.declare name pointer length)
  | call {keyword word stop target : Word} {argumentWords : List Word} {name : String}
      {arguments : List Operand} {destination : Destination} :
      keyword.text = Keyword.call.word → word.functionName = .ok name →
      (∀ argument ∈ argumentWords, argument.text ≠ Keyword.argumentsEnd) →
      argumentWords.mapM Word.operand = .ok arguments → stop.text = Keyword.argumentsEnd →
      Statement.destination target = .ok destination →
      Spelled (keyword :: word :: argumentWords ++ [stop, target])
        (.call (Statement.callTarget name) arguments destination)
  | raw {keyword : Word} {operandWords : List Word} {mnemonic : Mnemonic}
      {operands : List Operand} :
      Mnemonic.ofWord? keyword.text = some mnemonic → operandWords.length = mnemonic.arity →
      operandWords.mapM Word.operand = .ok operands →
      Spelled (keyword :: operandWords) (.raw mnemonic operands)

inductive Body.Spelled : List Word → Body → Prop where
  | done : Spelled [] .done
  | act {words more : List Word} {leaf : Leaf} {rest : Body} :
      Leaf.Spelled words leaf → Spelled more rest → Spelled (words ++ more) (.act leaf rest)
  | leave {keyword word : Word} {more : List Word} {value : Operand} {rest : Body} :
      keyword.text = Keyword.returnValue.word → word.operand = .ok value → Spelled more rest →
      Spelled (keyword :: word :: more) (.leave value rest)
  | branch {keyword opener closer : Word} {header within more : List Word} {test : Test}
      {inner rest : Body} :
      keyword.text = Keyword.branch.word → Test.Spelled header test →
      opener.text = Keyword.openBlock.word → Spelled within inner →
      closer.text = Keyword.closeBlock.word → Spelled more rest →
      Spelled (keyword :: header ++ opener :: within ++ closer :: more) (.branch test inner rest)
  | loop {keyword opener closer : Word} {header within more : List Word} {test : Test}
      {inner rest : Body} :
      keyword.text = Keyword.loop.word → Test.Spelled header test →
      opener.text = Keyword.openBlock.word → Spelled within inner →
      closer.text = Keyword.closeBlock.word → Spelled more rest →
      Spelled (keyword :: header ++ opener :: within ++ closer :: more) (.loop test inner rest)

inductive Outline.Spelled : List Word → Outline → Prop where
  | done : Spelled [] []
  | exportLabel {keyword label : Word} {more : List Word} {rest : Outline} :
      keyword.text = Keyword.exportLabel.word → Spelled more rest →
      Spelled (keyword :: label :: more) (.exportLabel label.text :: rest)
  | importLabel {keyword label : Word} {more : List Word} {rest : Outline} :
      keyword.text = Keyword.importLabel.word → Spelled more rest →
      Spelled (keyword :: label :: more) (.importLabel label.text :: rest)
  | function {keyword word opener closer : Word} {parameterWords within more : List Word}
      {name : String} {parameters : List Parameter} {body : Body} {rest : Outline} :
      keyword.text = Keyword.function.word → word.functionName = .ok name →
      name ≠ Keyword.reservedSpelling →
      (∀ parameter ∈ parameterWords, parameter.text ≠ Keyword.openBlock.word) →
      parameterWords.mapM Word.parameter = .ok parameters → opener.text = Keyword.openBlock.word →
      Body.Spelled within body → closer.text = Keyword.closeBlock.word → Spelled more rest →
      Spelled (keyword :: word :: parameterWords ++ opener :: within ++ closer :: more)
        (.function name parameters body :: rest)

end TinkaCompiler
