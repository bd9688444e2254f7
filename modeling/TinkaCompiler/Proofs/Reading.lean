import TinkaCompiler.Proofs.Outline

/-! Analysis reads outlines.

Each reader is described by the words it takes, and from that each step of the
analysis. The words that are accepted are those that spell an outline. -/

set_option autoImplicit false

namespace TinkaCompiler

theorem Keyword.ofWord?_eq_some_iff {text : String} {keyword : Keyword} :
    ofWord? text = some keyword ↔ text = keyword.word := by
  constructor
  · intro found
    have same := List.find?_some found
    exact (beq_iff_eq.mp same).symm
  · rintro rfl
    exact ofWord?_word keyword

theorem Mnemonic.word_of_ofWord? {text : String} {mnemonic : Mnemonic}
    (found : ofWord? text = some mnemonic) : text = mnemonic.word := by
  have same := List.find?_some found
  exact (beq_iff_eq.mp same).symm

theorem Keyword.ofWord?_mnemonic (mnemonic : Mnemonic) : ofWord? mnemonic.word = none := by
  cases mnemonic <;> decide

namespace Statement

theorem upTo_eq_ok {keyword : Word} {terminator : String} {words before rest : List Word} :
    upTo keyword terminator words = .ok (before, rest) ↔
      words = before ++ rest ∧ (∀ word ∈ before, word.text ≠ terminator) ∧
        ∃ stop more, rest = stop :: more ∧ stop.text = terminator := by
  constructor
  · intro found
    have whole := append_of_upTo found
    unfold upTo at found
    split at found
    · cases found
    · rename_i remaining
      cases found
      refine ⟨whole.symm, ?_, ?_⟩
      · intro word member
        simpa using List.all_eq_true.mp List.all_takeWhile word member
      · cases after : words.dropWhile (·.text != terminator) with
        | nil => exact absurd after remaining
        | cons stop more =>
            have stopped := List.head?_dropWhile_not (·.text != terminator) words
            rw [after] at stopped
            exact ⟨stop, more, rfl, by simpa using stopped⟩
  · rintro ⟨rfl, before_ne, stop, more, rfl, same⟩
    have passes : ∀ word ∈ before, (word.text != terminator) = true := by simpa using before_ne
    have dropped : (before ++ stop :: more).dropWhile (·.text != terminator) = stop :: more := by
      rw [List.dropWhile_append_of_pos passes]
      simp [same]
    have taken : (before ++ stop :: more).takeWhile (·.text != terminator) = before := by
      rw [List.takeWhile_append_of_pos passes]
      simp [same]
    simp only [upTo, dropped, taken]

theorem readCondition_eq_ok {keyword : String} {words rest : List Word} {condition : Condition} :
    readCondition keyword words = .ok (condition, rest) ↔
      ∃ header test, words = header ++ rest ∧ Test.Spelled header test ∧
        condition = test.skipping := by
  constructor
  · intro read
    unfold readCondition at read
    split at read
    · split at read
      · cases read
      · rename_i left comparison right _ _ written found
        obtain ⟨leftOperand, leftRead, read⟩ := bind_eq_ok.mp read
        obtain ⟨rightOperand, rightRead, read⟩ := bind_eq_ok.mp read
        cases read
        exact ⟨[left, comparison, right], ⟨leftOperand, written, rightOperand⟩, rfl,
          .words leftRead found rightRead, rfl⟩
    · cases read
  · rintro ⟨header, test, rfl, ⟨leftRead, found, rightRead⟩, rfl⟩
    simp only [readCondition, List.cons_append, List.nil_append, found, leftRead, rightRead]
    rfl

theorem readOperands_eq_ok {keyword : String} {count : Nat} {words rest : List Word}
    {operands : List Operand} :
    readOperands keyword count words = .ok (operands, rest) ↔
      ∃ taken, words = taken ++ rest ∧ taken.length = count ∧
        taken.mapM Word.operand = .ok operands := by
  induction count generalizing words operands with
  | zero =>
      constructor
      · intro read
        cases read
        exact ⟨[], rfl, rfl, rfl⟩
      · rintro ⟨taken, rfl, none, read⟩
        obtain rfl := List.length_eq_zero_iff.mp none
        cases read
        rfl
  | succ count ih =>
      constructor
      · intro read
        obtain ⟨⟨word, remaining⟩, first, read⟩ := bind_eq_ok.mp read
        obtain ⟨operand, operandRead, read⟩ := bind_eq_ok.mp read
        obtain ⟨⟨others, left⟩, tail, read⟩ := bind_eq_ok.mp read
        cases read
        obtain ⟨taken, rfl, length, all⟩ := ih.mp tail
        obtain rfl := next_eq_ok.mp first
        refine ⟨word :: taken, rfl, by simp [length], ?_⟩
        rw [List.mapM_cons]
        exact bind_eq_ok.mpr ⟨operand, operandRead, bind_eq_ok.mpr ⟨others, all, rfl⟩⟩
      · rintro ⟨taken, rfl, length, all⟩
        cases taken with
        | nil => cases length
        | cons word taken =>
            rw [List.mapM_cons] at all
            obtain ⟨operand, operandRead, all⟩ := bind_eq_ok.mp all
            obtain ⟨others, tail, all⟩ := bind_eq_ok.mp all
            cases all
            refine bind_eq_ok.mpr ⟨(word, taken ++ rest), rfl,
              bind_eq_ok.mpr ⟨operand, operandRead, ?_⟩⟩
            exact bind_eq_ok.mpr ⟨(others, rest),
              ih.mpr ⟨taken, rfl, by simpa using length, tail⟩, rfl⟩

theorem readCall_eq_ok {keyword : Word} {words rest : List Word} {expression : Expression}
    (named : keyword.text = Keyword.call.word) :
    readCall keyword words = .ok (expression, rest) ↔
      ∃ taken leaf, words = taken ++ rest ∧ Leaf.Spelled (keyword :: taken) leaf ∧
        expression = leaf.expression := by
  constructor
  · intro read
    obtain ⟨⟨word, remaining⟩, first, read⟩ := bind_eq_ok.mp read
    obtain ⟨name, nameRead, read⟩ := bind_eq_ok.mp read
    obtain ⟨⟨argumentWords, fromStop⟩, split, read⟩ := bind_eq_ok.mp read
    obtain ⟨arguments, argumentsRead, read⟩ := bind_eq_ok.mp read
    obtain ⟨⟨target, left⟩, targetTaken, read⟩ := bind_eq_ok.mp read
    obtain ⟨destination, destinationRead, read⟩ := bind_eq_ok.mp read
    cases read
    obtain ⟨rfl, noStop, stop, more, rfl, stopped⟩ := upTo_eq_ok.mp split
    obtain rfl := next_eq_ok.mp first
    have afterStop : more = target :: rest := next_eq_ok.mp targetTaken
    subst afterStop
    exact ⟨word :: argumentWords ++ [stop, target], _, by simp,
      .call named nameRead noStop argumentsRead stopped destinationRead, rfl⟩
  · rintro ⟨taken, leaf, rfl, spelled, rfl⟩
    generalize whole : keyword :: taken = spelledWords at spelled
    cases spelled with
    | declare declared _ =>
        obtain ⟨rfl, rfl⟩ := List.cons.inj whole
        exact absurd (named.symm.trans declared) (by decide)
    | @call _ word stop target argumentWords name arguments destination _ nameRead
        noStop argumentsRead stopped destinationRead =>
        obtain ⟨rfl, rfl⟩ := List.cons.inj whole
        refine bind_eq_ok.mpr ⟨(word, argumentWords ++ stop :: target :: rest), by simp [next], ?_⟩
        refine bind_eq_ok.mpr ⟨name, nameRead, ?_⟩
        refine bind_eq_ok.mpr ⟨(argumentWords, stop :: target :: rest), ?_, ?_⟩
        · exact upTo_eq_ok.mpr ⟨rfl, noStop, stop, target :: rest, rfl, stopped⟩
        refine bind_eq_ok.mpr ⟨arguments, argumentsRead, ?_⟩
        exact bind_eq_ok.mpr ⟨(target, rest), rfl,
          bind_eq_ok.mpr ⟨destination, destinationRead, rfl⟩⟩
    | raw found _ _ =>
        obtain ⟨rfl, rfl⟩ := List.cons.inj whole
        have spelling := Mnemonic.word_of_ofWord? found
        exact absurd (Keyword.ofWord?_mnemonic _) (by rw [← spelling, named]; decide)

theorem readFunction_eq_ok {keyword : Word} {words rest : List Word} {expression : Expression} :
    readFunction keyword words = .ok (expression, rest) ↔
      ∃ word parameterWords name parameters, words = word :: parameterWords ++ rest ∧
        word.functionName = .ok name ∧ name ≠ Keyword.reservedSpelling ∧
        (∀ parameter ∈ parameterWords, parameter.text ≠ Keyword.openBlock.word) ∧
        parameterWords.mapM Word.parameter = .ok parameters ∧
        (∃ stop more, rest = stop :: more ∧ stop.text = Keyword.openBlock.word) ∧
        expression = .function name parameters := by
  constructor
  · intro read
    obtain ⟨⟨word, remaining⟩, first, read⟩ := bind_eq_ok.mp read
    obtain ⟨name, nameRead, read⟩ := bind_eq_ok.mp read
    split at read
    · cases read
    · rename_i notReserved
      obtain ⟨⟨parameterWords, left⟩, split, read⟩ := bind_eq_ok.mp read
      obtain ⟨parameters, parametersRead, read⟩ := bind_eq_ok.mp read
      cases read
      obtain ⟨rfl, noOpener, stopped⟩ := upTo_eq_ok.mp split
      obtain rfl := next_eq_ok.mp first
      exact ⟨word, parameterWords, name, parameters, rfl, nameRead, notReserved,
        noOpener, parametersRead, stopped, rfl⟩
  · rintro ⟨word, parameterWords, name, parameters, rfl, nameRead, notReserved,
      noOpener, parametersRead, stopped, rfl⟩
    refine bind_eq_ok.mpr ⟨(word, parameterWords ++ rest), by simp [next], ?_⟩
    refine bind_eq_ok.mpr ⟨name, nameRead, ?_⟩
    simp only [notReserved, if_false]
    refine bind_eq_ok.mpr ⟨(parameterWords, rest), upTo_eq_ok.mpr ⟨rfl, noOpener, stopped⟩, ?_⟩
    exact bind_eq_ok.mpr ⟨parameters, parametersRead, rfl⟩

end Statement

namespace Analysis

open Statement (bind_eq_ok next_eq_ok)

namespace Context

/-- Between statements, with some blocks open. -/
def between : Nat → Context
  | 0 => .start
  | depth + 1 => ⟨depth + 1, some 0, none⟩

/-- Behind a header, with some blocks open around it. -/
def behind (header : Header) (depth : Nat) : Context :=
  ⟨depth, some 0, some header⟩

@[simp] theorem depth_between (depth : Nat) : (between depth).depth = depth := by
  cases depth <;> rfl

@[simp] theorem awaiting_between (depth : Nat) : (between depth).awaiting = none := by
  cases depth <;> rfl

/-- Functions start at depth zero, so closing the outermost block leaves the function. -/
theorem close_between (depth : Nat) : (between (depth + 1)).close depth = between depth := by
  cases depth <;> rfl

/-- How the parts of a context go together: inside a function, and only there, the depth at
which it started is known, and it is zero. -/
def Regular (context : Context) : Prop :=
  match context.awaiting with
  | some .function => context.depth = 0 ∧ context.functionDepth = some 0
  | some .branch | some .loop => 0 < context.depth ∧ context.functionDepth = some 0
  | none => context.functionDepth = if 0 < context.depth then some 0 else none

theorem regular_between (depth : Nat) : (between depth).Regular := by
  cases depth with
  | zero => rfl
  | succ depth => exact (if_pos (Nat.succ_pos depth)).symm

theorem Regular.cases {context : Context} (regular : context.Regular) :
    context = between context.depth ∨ ∃ header, context = behind header context.depth := by
  obtain ⟨depth, functionDepth, awaiting⟩ := context
  rcases awaiting with _ | (_ | _ | _)
  · change functionDepth = if 0 < depth then some 0 else none at regular
    subst regular
    left
    cases depth <;> rfl
  all_goals
    obtain ⟨_, started⟩ := regular
    cases started
    exact Or.inr ⟨_, rfl⟩

theorem Regular.eq_between {context : Context} (regular : context.Regular)
    (ready : context.awaiting = none) : context = between context.depth := by
  rcases regular.cases with between | ⟨header, behind⟩
  · exact between
  · rw [behind] at ready
    cases ready

end Context

section Ready

variable {context : Context} (ready : context.awaiting = none) {word : Word}
include ready

theorem step_of_keyword {keyword : Keyword} (named : word.text = keyword.word) (words : List Word) :
    step context word words = stepKeyword context word keyword words := by
  simp only [step, Context.misplaced, ready, Keyword.ofWord?_eq_some_iff.mpr named]

theorem step_of_mnemonic {mnemonic : Mnemonic} (found : Mnemonic.ofWord? word.text = some mnemonic)
    (words : List Word) : step context word words = stepRaw context word mnemonic words := by
  have noKeyword : Keyword.ofWord? word.text = none := by
    rw [Mnemonic.word_of_ofWord? found]
    exact Keyword.ofWord?_mnemonic mnemonic
  simp only [step, Context.misplaced, ready, noKeyword, found]

theorem step_cases {words : List Word} {result : Step}
    (read : step context word words = .ok result) :
    (∃ keyword, word.text = keyword.word ∧ stepKeyword context word keyword words = .ok result) ∨
      ∃ mnemonic, Mnemonic.ofWord? word.text = some mnemonic ∧
        stepRaw context word mnemonic words = .ok result := by
  simp only [step, Context.misplaced, ready] at read
  split at read
  · rename_i keyword found
    exact Or.inl ⟨keyword, Keyword.ofWord?_eq_some_iff.mp found, read⟩
  · split at read
    · rename_i mnemonic found
      exact Or.inr ⟨mnemonic, found, read⟩
    · cases read

end Ready

theorem step_awaiting_iff {depth : Nat} {header : Header} {word : Word} {words : List Word}
    {result : Step} :
    step (.behind header depth) word words = .ok result ↔
      word.text = Keyword.openBlock.word ∧
        result = ⟨.openBlock (depth + 1), .between (depth + 1), words⟩ := by
  by_cases opener : word.text = Keyword.openBlock.word
  · simp only [step, Context.misplaced, Context.behind, Context.between, opener, if_true,
      Keyword.ofWord?_word, stepKeyword, Except.ok.injEq, true_and]
    exact eq_comm
  · simp [step, Context.misplaced, Context.behind, opener]

inductive StepInside (depth : Nat) : List Word → Step → Prop where
  | act {taken more : List Word} {leaf : Leaf} :
      Leaf.Spelled taken leaf →
      StepInside depth (taken ++ more) ⟨leaf.expression, .between (depth + 1), more⟩
  | leave {keyword word : Word} {more : List Word} {value : Operand} :
      keyword.text = Keyword.returnValue.word → word.operand = .ok value →
      StepInside depth (keyword :: word :: more) ⟨.returnValue value, .between (depth + 1), more⟩
  | branch {keyword : Word} {header more : List Word} {test : Test} :
      keyword.text = Keyword.branch.word → Test.Spelled header test →
      StepInside depth (keyword :: header ++ more)
        ⟨.branch test.skipping, .behind .branch (depth + 1), more⟩
  | loop {keyword : Word} {header more : List Word} {test : Test} :
      keyword.text = Keyword.loop.word → Test.Spelled header test →
      StepInside depth (keyword :: header ++ more)
        ⟨.loop test.skipping, .behind .loop (depth + 1), more⟩
  | close {keyword : Word} {more : List Word} :
      keyword.text = Keyword.closeBlock.word →
      StepInside depth (keyword :: more) ⟨.closeBlock (depth + 1), .between depth, more⟩

theorem declaration_shape {word : Word} {expression : Expression}
    (read : word.declaration = .ok expression) :
    ∃ name pointer length, expression = .declare name pointer length := by
  simp only [Word.declaration] at read
  split at read
  · cases read
    exact ⟨_, _, _, rfl⟩
  · split at read
    · split at read
      · cases read
        exact ⟨_, _, _, rfl⟩
      · cases read
    · cases read

theorem stepInside_of_keyword {depth : Nat} {word : Word} {keyword : Keyword} {words : List Word}
    {result : Step} (named : word.text = keyword.word)
    (read : stepKeyword (.between (depth + 1)) word keyword words = .ok result) :
    StepInside depth (word :: words) result := by
  cases keyword with
  | exportLabel | importLabel | function =>
      obtain ⟨_, outside, _⟩ := bind_eq_ok.mp read
      cases outside
  | openBlock => cases read
  | declare =>
      obtain ⟨_, _, read⟩ := bind_eq_ok.mp read
      obtain ⟨⟨declared, rest⟩, taken, read⟩ := bind_eq_ok.mp read
      obtain ⟨expression, declaration, read⟩ := bind_eq_ok.mp read
      cases read
      obtain rfl := next_eq_ok.mp taken
      obtain ⟨name, pointer, length, rfl⟩ := declaration_shape declaration
      exact .act (.declare named declaration)
  | branch =>
      obtain ⟨_, _, read⟩ := bind_eq_ok.mp read
      obtain ⟨⟨condition, rest⟩, conditionRead, read⟩ := bind_eq_ok.mp read
      cases read
      obtain ⟨header, test, rfl, spelled, rfl⟩ := Statement.readCondition_eq_ok.mp conditionRead
      exact .branch named spelled
  | loop =>
      obtain ⟨_, _, read⟩ := bind_eq_ok.mp read
      obtain ⟨⟨condition, rest⟩, conditionRead, read⟩ := bind_eq_ok.mp read
      cases read
      obtain ⟨header, test, rfl, spelled, rfl⟩ := Statement.readCondition_eq_ok.mp conditionRead
      exact .loop named spelled
  | closeBlock =>
      cases read
      rw [Context.close_between]
      exact .close named
  | returnValue =>
      obtain ⟨_, _, read⟩ := bind_eq_ok.mp read
      obtain ⟨⟨value, rest⟩, taken, read⟩ := bind_eq_ok.mp read
      obtain ⟨operand, operandRead, read⟩ := bind_eq_ok.mp read
      cases read
      obtain rfl := next_eq_ok.mp taken
      exact .leave named operandRead
  | call =>
      obtain ⟨_, _, read⟩ := bind_eq_ok.mp read
      obtain ⟨⟨expression, rest⟩, callRead, read⟩ := bind_eq_ok.mp read
      cases read
      obtain ⟨taken, leaf, rfl, spelled, rfl⟩ := (Statement.readCall_eq_ok named).mp callRead
      exact .act spelled

theorem step_of_leaf {depth : Nat} {word : Word} {taken more : List Word} {leaf : Leaf}
    (spelled : Leaf.Spelled (word :: taken) leaf) :
    step (.between (depth + 1)) word (taken ++ more) =
      .ok ⟨leaf.expression, .between (depth + 1), more⟩ := by
  generalize whole : word :: taken = words at spelled
  cases spelled with
  | declare named declaration =>
      obtain ⟨rfl, rfl⟩ := List.cons.inj whole
      rw [step_of_keyword rfl named]
      refine bind_eq_ok.mpr ⟨(), rfl, bind_eq_ok.mpr ⟨(_, more), rfl, ?_⟩⟩
      exact bind_eq_ok.mpr ⟨_, declaration, rfl⟩
  | call named nameRead noStop argumentsRead stopped destinationRead =>
      obtain ⟨rfl, rfl⟩ := List.cons.inj whole
      rw [step_of_keyword rfl named]
      refine bind_eq_ok.mpr ⟨(), rfl, bind_eq_ok.mpr ⟨(_, more), ?_, rfl⟩⟩
      exact (Statement.readCall_eq_ok named).mpr
        ⟨_, _, rfl, .call named nameRead noStop argumentsRead stopped destinationRead, rfl⟩
  | raw found count operandsRead =>
      obtain ⟨rfl, rfl⟩ := List.cons.inj whole
      rw [step_of_mnemonic rfl found]
      refine bind_eq_ok.mpr ⟨(), rfl, bind_eq_ok.mpr ⟨(_, more), ?_, rfl⟩⟩
      exact Statement.readOperands_eq_ok.mpr ⟨_, rfl, count, operandsRead⟩

theorem step_inside_iff {depth : Nat} {word : Word} {words : List Word} {result : Step} :
    step (.between (depth + 1)) word words = .ok result ↔
      StepInside depth (word :: words) result := by
  constructor
  · intro read
    obtain ⟨keyword, named, read⟩ | ⟨mnemonic, found, read⟩ := step_cases rfl read
    · exact stepInside_of_keyword named read
    · obtain ⟨_, _, read⟩ := bind_eq_ok.mp read
      obtain ⟨⟨operands, rest⟩, operandsRead, read⟩ := bind_eq_ok.mp read
      cases read
      obtain ⟨taken, rfl, count, all⟩ := Statement.readOperands_eq_ok.mp operandsRead
      exact .act (.raw found count all)
  · intro inside
    generalize whole : word :: words = taken at inside
    cases inside with
    | @act taken more leaf spelled =>
        cases taken with
        | nil => cases spelled
        | cons first taken =>
            obtain ⟨rfl, rfl⟩ := List.cons.inj whole
            exact step_of_leaf spelled
    | leave named operandRead =>
        obtain ⟨rfl, rfl⟩ := List.cons.inj whole
        rw [step_of_keyword rfl named]
        exact bind_eq_ok.mpr ⟨(), rfl,
          bind_eq_ok.mpr ⟨(_, _), rfl, bind_eq_ok.mpr ⟨_, operandRead, rfl⟩⟩⟩
    | @branch keyword header more test named spelled =>
        obtain ⟨rfl, rfl⟩ := List.cons.inj whole
        rw [step_of_keyword rfl named]
        refine bind_eq_ok.mpr ⟨(), rfl, bind_eq_ok.mpr ⟨(test.skipping, more), ?_, rfl⟩⟩
        exact Statement.readCondition_eq_ok.mpr ⟨_, _, rfl, spelled, rfl⟩
    | @loop keyword header more test named spelled =>
        obtain ⟨rfl, rfl⟩ := List.cons.inj whole
        rw [step_of_keyword rfl named]
        refine bind_eq_ok.mpr ⟨(), rfl, bind_eq_ok.mpr ⟨(test.skipping, more), ?_, rfl⟩⟩
        exact Statement.readCondition_eq_ok.mpr ⟨_, _, rfl, spelled, rfl⟩
    | close named =>
        obtain ⟨rfl, rfl⟩ := List.cons.inj whole
        rw [step_of_keyword rfl named, ← Context.close_between depth]
        rfl

inductive StepOutside : List Word → Step → Prop where
  | exportLabel {keyword label : Word} {more : List Word} :
      keyword.text = Keyword.exportLabel.word →
      StepOutside (keyword :: label :: more) ⟨.exportLabel label.text, .start, more⟩
  | importLabel {keyword label : Word} {more : List Word} :
      keyword.text = Keyword.importLabel.word →
      StepOutside (keyword :: label :: more) ⟨.importLabel label.text, .start, more⟩
  | function {keyword word opener : Word} {parameterWords more : List Word} {name : String}
      {parameters : List Parameter} :
      keyword.text = Keyword.function.word → word.functionName = .ok name →
      name ≠ Keyword.reservedSpelling →
      (∀ parameter ∈ parameterWords, parameter.text ≠ Keyword.openBlock.word) →
      parameterWords.mapM Word.parameter = .ok parameters → opener.text = Keyword.openBlock.word →
      StepOutside (keyword :: word :: parameterWords ++ opener :: more)
        ⟨.function name parameters, .behind .function 0, opener :: more⟩

theorem step_outside_iff {word : Word} {words : List Word} {result : Step} :
    step .start word words = .ok result ↔ StepOutside (word :: words) result := by
  constructor
  · intro read
    obtain ⟨keyword, named, read⟩ | ⟨_, _, read⟩ := step_cases rfl read
    · cases keyword with
      | declare | branch | loop | returnValue | call =>
          obtain ⟨_, inside, _⟩ := bind_eq_ok.mp read
          cases inside
      | openBlock | closeBlock => cases read
      | exportLabel =>
          obtain ⟨_, _, read⟩ := bind_eq_ok.mp read
          obtain ⟨⟨label, rest⟩, taken, read⟩ := bind_eq_ok.mp read
          cases read
          obtain rfl := next_eq_ok.mp taken
          exact .exportLabel named
      | importLabel =>
          obtain ⟨_, _, read⟩ := bind_eq_ok.mp read
          obtain ⟨⟨label, rest⟩, taken, read⟩ := bind_eq_ok.mp read
          cases read
          obtain rfl := next_eq_ok.mp taken
          exact .importLabel named
      | function =>
          obtain ⟨_, _, read⟩ := bind_eq_ok.mp read
          obtain ⟨⟨expression, rest⟩, functionRead, read⟩ := bind_eq_ok.mp read
          cases read
          obtain ⟨_, parameterWords, name, parameters, rfl, nameRead, notReserved,
            noOpener, parametersRead, ⟨opener, more, rfl, opened⟩, rfl⟩ :=
            Statement.readFunction_eq_ok.mp functionRead
          exact .function named nameRead notReserved noOpener parametersRead opened
    · obtain ⟨_, inside, _⟩ := bind_eq_ok.mp read
      cases inside
  · intro outside
    generalize whole : word :: words = taken at outside
    cases outside with
    | exportLabel named | importLabel named =>
        obtain ⟨rfl, rfl⟩ := List.cons.inj whole
        exact (step_of_keyword rfl named _).trans rfl
    | @function _ _ opener parameterWords more name parameters named nameRead notReserved noOpener
        parametersRead opened =>
        obtain ⟨rfl, rfl⟩ := List.cons.inj whole
        refine (step_of_keyword rfl named _).trans ?_
        refine bind_eq_ok.mpr ⟨(), rfl,
          bind_eq_ok.mpr ⟨(.function name parameters, opener :: more), ?_, rfl⟩⟩
        exact Statement.readFunction_eq_ok.mpr ⟨_, parameterWords, name, parameters, rfl, nameRead,
          notReserved, noOpener, parametersRead, ⟨opener, more, rfl, opened⟩, rfl⟩

/-- A statement leaves a regular context regular. -/
theorem regular_of_step {context : Context} (regular : context.Regular) {word : Word}
    {words : List Word} {result : Step} (read : step context word words = .ok result) :
    result.context.Regular := by
  rcases regular.cases with between | ⟨header, behind⟩
  · generalize context.depth = depth at between
    subst between
    cases depth with
    | zero =>
        cases step_outside_iff.mp read with
        | exportLabel | importLabel => exact Context.regular_between 0
        | function => exact ⟨rfl, rfl⟩
    | succ depth =>
        have inside := step_inside_iff.mp read
        generalize word :: words = taken at inside
        cases inside with
        | act | leave => exact Context.regular_between (depth + 1)
        | branch | loop => exact ⟨Nat.succ_pos depth, rfl⟩
        | close => exact Context.regular_between depth
  · rw [behind] at read
    obtain ⟨_, rfl⟩ := step_awaiting_iff.mp read
    exact Context.regular_between (context.depth + 1)

/-! Runs. -/

theorem run_nil_eq_ok {context : Context} {expressions : List Expression} :
    run context [] = .ok expressions ↔
      context.depth = 0 ∧ context.awaiting = none ∧ expressions = [] := by
  rw [run]
  cases awaiting : context.awaiting with
  | some header => simp [Context.finish, awaiting, bind, Except.bind]
  | none =>
      by_cases closed : context.depth = 0
      · simp [Context.finish, awaiting, closed, bind, Except.bind, eq_comm]
      · simp [Context.finish, awaiting, closed, bind, Except.bind]

theorem run_cons_eq_ok {context : Context} {word : Word} {words : List Word}
    {expressions : List Expression} :
    run context (word :: words) = .ok expressions ↔
      ∃ result rest, step context word words = .ok result ∧
        run result.context result.rest = .ok rest ∧ expressions = result.expression :: rest := by
  rw [run_cons]
  constructor
  · intro accepted
    obtain ⟨result, read, accepted⟩ := bind_eq_ok.mp accepted
    obtain ⟨rest, ran, accepted⟩ := bind_eq_ok.mp accepted
    cases accepted
    exact ⟨result, rest, read, ran, rfl⟩
  · rintro ⟨result, rest, read, ran, rfl⟩
    exact bind_eq_ok.mpr ⟨result, read, bind_eq_ok.mpr ⟨rest, ran, rfl⟩⟩

theorem run_awaiting {depth : Nat} (header : Header) {words : List Word}
    {expressions : List Expression} :
    run (.behind header depth) words = .ok expressions ↔
      ∃ opener more rest, words = opener :: more ∧ opener.text = Keyword.openBlock.word ∧
        run (.between (depth + 1)) more = .ok rest ∧
        expressions = .openBlock (depth + 1) :: rest := by
  cases words with
  | nil => simp [run_nil_eq_ok, Context.behind]
  | cons word words =>
      rw [run_cons_eq_ok]
      constructor
      · rintro ⟨result, rest, read, ran, rfl⟩
        obtain ⟨opened, rfl⟩ := step_awaiting_iff.mp read
        exact ⟨word, words, rest, rfl, opened, ran, rfl⟩
      · rintro ⟨opener, more, rest, same, opened, ran, rfl⟩
        cases same
        exact ⟨_, rest, step_awaiting_iff.mpr ⟨opened, rfl⟩, ran, rfl⟩

theorem run_block {depth : Nat} (header : Header) {opener closer : Word} {within more : List Word}
    {inner expressions : List Expression} (opened : opener.text = Keyword.openBlock.word)
    (closed : closer.text = Keyword.closeBlock.word)
    (innerRan : ∀ {later : List Word} {rest : List Expression},
      run (.between (depth + 1)) later = .ok rest →
      run (.between (depth + 1)) (within ++ later) = .ok (inner ++ rest))
    (ran : run (.between depth) more = .ok expressions) :
    run (.behind header depth) (opener :: within ++ closer :: more) =
      .ok (.openBlock (depth + 1) :: inner ++ .closeBlock (depth + 1) :: expressions) := by
  have closing := run_cons_eq_ok.mpr ⟨_, _, step_inside_iff.mpr (.close closed), ran, rfl⟩
  exact (run_awaiting header).mpr ⟨opener, _, _, rfl, opened, innerRan closing, rfl⟩

theorem run_append_of_spelled {within : List Word} {body : Body}
    (spelled : Body.Spelled within body) {depth : Nat} {more : List Word}
    {expressions : List Expression} (ran : run (.between (depth + 1)) more = .ok expressions) :
    run (.between (depth + 1)) (within ++ more) =
      .ok (body.expressions (depth + 1) ++ expressions) := by
  induction spelled generalizing depth more expressions with
  | done => exact ran
  | @act words later leaf rest leafSpelled _ ih =>
      cases words with
      | nil => cases leafSpelled
      | cons word words =>
          rw [List.append_assoc]
          exact run_cons_eq_ok.mpr ⟨_, _, step_inside_iff.mpr (.act leafSpelled), ih ran, rfl⟩
  | leave named operandRead _ ih =>
      exact run_cons_eq_ok.mpr ⟨_, _, step_inside_iff.mpr (.leave named operandRead), ih ran, rfl⟩
  | branch named testSpelled opened _ closed _ innerRan restRan =>
      have block := run_block .branch opened closed innerRan (restRan ran)
      have entered := run_cons_eq_ok.mpr
        ⟨_, _, step_inside_iff.mpr (.branch named testSpelled), block, rfl⟩
      simpa [Body.expressions] using entered
  | loop named testSpelled opened _ closed _ innerRan restRan =>
      have block := run_block .loop opened closed innerRan (restRan ran)
      have entered := run_cons_eq_ok.mpr
        ⟨_, _, step_inside_iff.mpr (.loop named testSpelled), block, rfl⟩
      simpa [Body.expressions] using entered

/-- Words read inside a block are the statements of that block, its closer, and
words that are read outside it. -/
theorem spelled_of_run {depth : Nat} {words : List Word} {expressions : List Expression}
    (ran : run (.between (depth + 1)) words = .ok expressions) :
    ∃ within body closer more rest, words = within ++ closer :: more ∧ Body.Spelled within body ∧
      closer.text = Keyword.closeBlock.word ∧ run (.between depth) more = .ok rest ∧
      expressions = body.expressions (depth + 1) ++ .closeBlock (depth + 1) :: rest := by
  -- A block inside the block is followed by more statements of the outer one, so
  -- the induction is on the number of words and not on the step.
  induction size : words.length using Nat.strongRecOn generalizing depth words expressions with
  | ind count ih =>
      subst size
      cases words with
      | nil =>
          obtain ⟨closed, _⟩ := run_nil_eq_ok.mp ran
          cases closed
      | cons word words =>
          obtain ⟨result, rest, read, remaining, rfl⟩ := run_cons_eq_ok.mp ran
          have shorter := (suffix_of_step read).length_le
          have inside := step_inside_iff.mp read
          generalize whole : word :: words = taken at inside ih ⊢
          have bound : result.rest.length < taken.length := by
            rw [← whole, List.length_cons]
            omega
          cases inside with
          | act leafSpelled =>
              obtain ⟨within, body, closer, more, after, rfl, spelled, closed, outer, rfl⟩ :=
                ih _ bound remaining rfl
              exact ⟨_ ++ within, .act _ body, closer, more, after, by simp,
                .act leafSpelled spelled, closed, outer, rfl⟩
          | leave named operandRead =>
              obtain ⟨within, body, closer, more, after, rfl, spelled, closed, outer, rfl⟩ :=
                ih _ bound remaining rfl
              exact ⟨_ :: _ :: within, .leave _ body, closer, more, after, rfl,
                .leave named operandRead spelled, closed, outer, rfl⟩
          | branch named testSpelled =>
              -- Once for the block and once for what stands behind its closer.
              obtain ⟨opener, _, _, rfl, opened, opening, rfl⟩ :=
                (run_awaiting .branch).mp remaining
              obtain ⟨within, inner, closer, later, after, rfl, innerSpelled, closed, outer, rfl⟩ :=
                ih _ (by simp; omega) opening rfl
              obtain ⟨behind, body, last, more, final, rfl, spelled, lastClosed, outermost, rfl⟩ :=
                ih _ (by simp; omega) outer rfl
              exact ⟨_, .branch _ inner body, last, more, final, by simp,
                .branch named testSpelled opened innerSpelled closed spelled, lastClosed, outermost,
                by simp [Body.expressions]⟩
          | loop named testSpelled =>
              obtain ⟨opener, _, _, rfl, opened, opening, rfl⟩ := (run_awaiting .loop).mp remaining
              obtain ⟨within, inner, closer, later, after, rfl, innerSpelled, closed, outer, rfl⟩ :=
                ih _ (by simp; omega) opening rfl
              obtain ⟨behind, body, last, more, final, rfl, spelled, lastClosed, outermost, rfl⟩ :=
                ih _ (by simp; omega) outer rfl
              exact ⟨_, .loop _ inner body, last, more, final, by simp,
                .loop named testSpelled opened innerSpelled closed spelled, lastClosed, outermost,
                by simp [Body.expressions]⟩
          | close closed =>
              exact ⟨[], .done, word, words, rest, whole.symm, .done, by
                obtain ⟨rfl, rfl⟩ := List.cons.inj whole
                exact ⟨closed, remaining, rfl⟩⟩

theorem expressions_of_spelled {words : List Word} {outline : Outline}
    (spelled : Outline.Spelled words outline) : expressions words = .ok outline.expressions := by
  unfold expressions
  induction spelled with
  | done => exact run_nil_eq_ok.mpr ⟨rfl, rfl, rfl⟩
  | exportLabel named _ ih =>
      exact run_cons_eq_ok.mpr ⟨_, _, step_outside_iff.mpr (.exportLabel named), ih,
        by simp [Item.expressions]⟩
  | importLabel named _ ih =>
      exact run_cons_eq_ok.mpr ⟨_, _, step_outside_iff.mpr (.importLabel named), ih,
        by simp [Item.expressions]⟩
  | function named nameRead notReserved noOpener parametersRead opened bodySpelled closed _ ih =>
      have outside : run (.between 0) _ = _ := ih
      have block := run_block .function opened closed (run_append_of_spelled bodySpelled) outside
      have accepted := run_cons_eq_ok.mpr
        ⟨_, _, step_outside_iff.mpr
          (.function named nameRead notReserved noOpener parametersRead opened), block, rfl⟩
      simpa [Item.expressions] using accepted

theorem spelled_of_expressions {words : List Word} {found : List Expression}
    (accepted : expressions words = .ok found) :
    ∃ outline : Outline, Outline.Spelled words outline ∧ outline.expressions = found := by
  unfold expressions at accepted
  induction size : words.length using Nat.strongRecOn generalizing words found with
  | ind count ih =>
      subst size
      cases words with
      | nil =>
          obtain ⟨_, _, rfl⟩ := run_nil_eq_ok.mp accepted
          exact ⟨[], .done, rfl⟩
      | cons word words =>
          obtain ⟨result, rest, read, remaining, rfl⟩ := run_cons_eq_ok.mp accepted
          have shorter := (suffix_of_step read).length_le
          have outside := step_outside_iff.mp read
          generalize whole : word :: words = taken at outside ih ⊢
          have bound : result.rest.length < taken.length := by
            rw [← whole, List.length_cons]
            omega
          cases outside with
          | exportLabel named =>
              obtain ⟨outline, spelled, rfl⟩ := ih _ bound remaining rfl
              exact ⟨_, .exportLabel named spelled, by simp [Item.expressions]⟩
          | importLabel named =>
              obtain ⟨outline, spelled, rfl⟩ := ih _ bound remaining rfl
              exact ⟨_, .importLabel named spelled, by simp [Item.expressions]⟩
          | function named nameRead notReserved noOpener parametersRead opened =>
              obtain ⟨_, _, _, same, _, opening, rfl⟩ := (run_awaiting .function).mp remaining
              obtain ⟨rfl, rfl⟩ := List.cons.inj same
              obtain ⟨within, body, closer, more, after, rfl, bodySpelled, closed, outer, rfl⟩ :=
                spelled_of_run opening
              obtain ⟨outline, spelled, rfl⟩ := ih _ (by simp; omega) outer rfl
              have spelledFunction := Outline.Spelled.function named nameRead notReserved noOpener
                parametersRead opened bodySpelled closed spelled
              exact ⟨_, by simpa using spelledFunction, by simp [Item.expressions]⟩

/-- Analysis accepts exactly the words that spell an outline, and gives the
outline's expressions. -/
theorem expressions_eq_ok_iff {words : List Word} {found : List Expression} :
    expressions words = .ok found ↔
      ∃ outline : Outline, Outline.Spelled words outline ∧ outline.expressions = found :=
  ⟨spelled_of_expressions, fun ⟨_, spelled, same⟩ => same ▸ expressions_of_spelled spelled⟩

end Analysis
end TinkaCompiler
