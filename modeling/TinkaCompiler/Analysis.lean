import TinkaCompiler.Analysis.Statement

/-! From words to expressions, in one pass from left to right.

Every statement is a keyword and the words it takes, and yields one expression.
The pass remembers how many blocks are open, how many were open when the function
that it is in started, and whether a header still waits for its opener. Labels and
functions stand outside functions, everything else inside one. -/

set_option autoImplicit false

namespace TinkaCompiler

namespace Analysis

open Statement

inductive Header where
  | function | branch | loop
  deriving DecidableEq, Repr

def Header.keyword : Header → Keyword
  | .function => .function
  | .branch => .branch
  | .loop => .loop

structure Context where
  depth : Nat
  /-- The depth at which the function around the next word started, if there is one. -/
  functionDepth : Option Nat
  awaiting : Option Header
  deriving DecidableEq, Repr

namespace Context

def start : Context := ⟨0, none, none⟩

def requireFunction (context : Context) (keyword : Word) : Except Fault Unit :=
  if context.functionDepth.isNone then .error (.atWord keyword (.outsideFunction keyword.text))
  else .ok ()

def forbidFunction (context : Context) (keyword : Word) : Except Fault Unit :=
  if context.functionDepth.isSome then .error (.atWord keyword (.insideFunction keyword.text))
  else .ok ()

/-- Behind the closer that leaves `depth` blocks open. It ends the function that
started there. -/
def close (context : Context) (depth : Nat) : Context :=
  { context with
    depth
    functionDepth := if context.functionDepth = some depth then none else context.functionDepth }

def finish (context : Context) : Except Fault Unit :=
  match context.awaiting with
  | some header => .error (.atEnd (.missingOpener header.keyword.word (Word.describe none)))
  | none => if context.depth = 0 then .ok () else .error (.atEnd (.unbalancedBlocks context.depth))

end Context

structure Step where
  expression : Expression
  context : Context
  rest : List Word

/-- Reads the statement of a keyword. No header waits for its opener here unless
the keyword is the opener. -/
def stepKeyword (context : Context) (word : Word) (keyword : Keyword) (words : List Word) :
    Except Fault Step :=
  match keyword with
  | .exportLabel => do
    context.forbidFunction word
    let (label, rest) ← Statement.next word.text words
    .ok ⟨.exportLabel label.text, context, rest⟩
  | .importLabel => do
    context.forbidFunction word
    let (label, rest) ← Statement.next word.text words
    .ok ⟨.importLabel label.text, context, rest⟩
  | .declare => do
    context.requireFunction word
    let (declared, rest) ← Statement.next word.text words
    let expression ← declared.declaration
    .ok ⟨expression, context, rest⟩
  | .branch => do
    context.requireFunction word
    let (condition, rest) ← Statement.readCondition word.text words
    .ok ⟨.branch condition, { context with awaiting := some .branch }, rest⟩
  | .loop => do
    context.requireFunction word
    let (condition, rest) ← Statement.readCondition word.text words
    .ok ⟨.loop condition, { context with awaiting := some .loop }, rest⟩
  | .openBlock =>
    match context.awaiting with
    | none => .error (.atWord word .unexpectedOpener)
    | some _ =>
      .ok ⟨.openBlock (context.depth + 1),
        { context with depth := context.depth + 1, awaiting := none }, words⟩
  | .closeBlock =>
    match context.depth with
    | 0 => .error (.atWord word .unmatchedCloser)
    | depth + 1 => .ok ⟨.closeBlock (depth + 1), context.close depth, words⟩
  | .function => do
    context.forbidFunction word
    let (expression, rest) ← Statement.readFunction word words
    .ok ⟨expression,
      { context with functionDepth := some context.depth, awaiting := some .function }, rest⟩
  | .returnValue => do
    context.requireFunction word
    let (value, rest) ← Statement.next word.text words
    let operand ← value.operand
    .ok ⟨.returnValue operand, context, rest⟩
  | .call => do
    context.requireFunction word
    let (expression, rest) ← Statement.readCall word words
    .ok ⟨expression, context, rest⟩

def stepRaw (context : Context) (word : Word) (mnemonic : Mnemonic) (words : List Word) :
    Except Fault Step := do
  context.requireFunction word
  let (operands, rest) ← Statement.readOperands word.text mnemonic.arity words
  .ok ⟨.raw mnemonic operands, context, rest⟩

/-- A header that waits for its opener and meets another word. -/
def Context.misplaced (context : Context) (word : Word) : Option Fault :=
  match context.awaiting with
  | some header =>
    if word.text = Keyword.openBlock.word then none
    else some (.atWord word (.missingOpener header.keyword.word word.text))
  | none => none

def step (context : Context) (word : Word) (words : List Word) : Except Fault Step :=
  match context.misplaced word with
  | some fault => .error fault
  | none =>
    match Keyword.ofWord? word.text with
    | some keyword => stepKeyword context word keyword words
    | none =>
      match Mnemonic.ofWord? word.text with
      | some mnemonic => stepRaw context word mnemonic words
      | none => .error (.atWord word (.unknownWord word.text))

theorem suffix_of_stepKeyword {context : Context} {word : Word} {keyword : Keyword}
    {words : List Word} {result : Step}
    (read : stepKeyword context word keyword words = .ok result) : result.rest <:+ words := by
  cases keyword with
  | exportLabel | importLabel =>
      obtain ⟨_, _, read⟩ := bind_eq_ok.mp read
      obtain ⟨⟨label, rest⟩, taken, read⟩ := bind_eq_ok.mp read
      cases read
      exact next_eq_ok.mp taken ▸ List.suffix_cons label rest
  | declare | returnValue =>
      obtain ⟨_, _, read⟩ := bind_eq_ok.mp read
      obtain ⟨⟨label, rest⟩, taken, read⟩ := bind_eq_ok.mp read
      obtain ⟨_, _, read⟩ := bind_eq_ok.mp read
      cases read
      exact next_eq_ok.mp taken ▸ List.suffix_cons label rest
  | branch | loop =>
      obtain ⟨_, _, read⟩ := bind_eq_ok.mp read
      obtain ⟨_, condition, read⟩ := bind_eq_ok.mp read
      cases read
      exact suffix_of_readCondition condition
  | openBlock =>
      simp only [stepKeyword] at read
      split at read <;> cases read
      exact List.suffix_refl _
  | closeBlock =>
      simp only [stepKeyword] at read
      split at read <;> cases read
      exact List.suffix_refl _
  | function =>
      obtain ⟨_, _, read⟩ := bind_eq_ok.mp read
      obtain ⟨_, function, read⟩ := bind_eq_ok.mp read
      cases read
      exact suffix_of_readFunction function
  | call =>
      obtain ⟨_, _, read⟩ := bind_eq_ok.mp read
      obtain ⟨_, call, read⟩ := bind_eq_ok.mp read
      cases read
      exact suffix_of_readCall call

theorem suffix_of_step {context : Context} {word : Word} {words : List Word} {result : Step}
    (read : step context word words = .ok result) : result.rest <:+ words := by
  unfold step at read
  split at read
  · cases read
  · split at read
    · exact suffix_of_stepKeyword read
    · split at read
      · obtain ⟨_, _, read⟩ := bind_eq_ok.mp read
        obtain ⟨_, operands, read⟩ := bind_eq_ok.mp read
        cases read
        exact suffix_of_readOperands operands
      · cases read

def run (context : Context) : List Word → Except Fault (List Expression)
  | [] => do
    context.finish
    .ok []
  | word :: words =>
    match _found : step context word words with
    | .error fault => .error fault
    | .ok result => do
      let expressions ← run result.context result.rest
      .ok (result.expression :: expressions)
termination_by words => words.length
decreasing_by
  have shorter := (suffix_of_step _found).length_le
  simp only [List.length_cons]
  omega

theorem run_nil (context : Context) : run context [] = context.finish.map fun _ => [] := by
  rw [run]
  cases context.finish <;> rfl

theorem run_cons (context : Context) (word : Word) (words : List Word) :
    run context (word :: words) =
      step context word words >>= fun result =>
        run result.context result.rest >>= fun expressions =>
          .ok (result.expression :: expressions) := by
  rw [run]
  split
  · rename_i failed
    rw [failed]
    rfl
  · rename_i read
    rw [read]
    rfl

def expressions (words : List Word) : Except Fault (List Expression) :=
  run .start words

end Analysis
end TinkaCompiler
