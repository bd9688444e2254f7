import Mathlib.Data.List.TakeWhile
import TinkaCompiler.Proofs.Reading

/-! The expressions that analysis can give.

Whatever the words are, the expressions read from them follow a grammar, and every
list of the grammar is read from some words. A spelling of an operand writes every
position down. So a variable may be named like a number, like the word that ends
the arguments of a call, or like the word that stands for no destination. -/

set_option autoImplicit false

namespace TinkaCompiler

open Statement (bind_eq_ok)

/-! Operands and parameters. -/

def NotNumbered (text : String) : Prop :=
  ∀ c ∈ text.toList.head?, c.isDigit = false

def Operand.Writable : Operand → Prop
  | .constant text => text ≠ "" ∧ text.toList.all Char.isDigit
  | .variable name position => name ≠ "" ∧ '@' ∉ name.toList ∧ position.Writable
  | .function _ => False

/-- Parameters that a word can stand for. One that is no pointer cannot have the
name at which the parameters end. -/
structure Parameter.Writable (parameter : Parameter) : Prop where
  named : parameter.name ≠ ""
  notNumbered : NotNumbered parameter.name
  whole : '@' ∉ parameter.name.toList
  notOpener : parameter.pointer = false → parameter.name ≠ Keyword.openBlock.word

structure FunctionName (name : String) : Prop where
  notNumbered : NotNumbered name
  notReserved : name ≠ Keyword.reservedSpelling

def Destination.Writable : Destination → Prop
  | .discard => True
  | .variable name position => (Operand.variable name position).Writable

/-! The grammar. -/

namespace Grammar

inductive Simple : Expression → Prop where
  | cell {name : String} : '@' ∉ name.toList → Simple (.declare name false 1)
  | cells {name : String} {length : Nat} :
      name ≠ "" → '@' ∉ name.toList → 1 ≤ length → length ≤ 4294967295 →
        Simple (.declare name true length)
  | returnValue {value : Operand} : value.Writable → Simple (.returnValue value)
  | call {function : String} {arguments : List Operand} {destination : Destination} :
      function = Keyword.reservedTarget ∨ FunctionName function →
      (∀ argument ∈ arguments, argument.Writable) →
      destination.Writable → Simple (.call function arguments destination)
  | raw {mnemonic : Mnemonic} {operands : List Operand} :
      operands.length = mnemonic.arity → (∀ operand ∈ operands, operand.Writable) →
        Simple (.raw mnemonic operands)

inductive Header : Expression → Prop where
  | branch {condition : Condition} :
      condition.left.Writable → condition.right.Writable → Header (.branch condition)
  | loop {condition : Condition} :
      condition.left.Writable → condition.right.Writable → Header (.loop condition)

inductive Statements : Nat → List Expression → Prop where
  | nil {depth : Nat} : Statements depth []
  | simple {depth : Nat} {expression : Expression} {rest : List Expression} :
      Simple expression → Statements depth rest → Statements depth (expression :: rest)
  | block {depth : Nat} {header : Expression} {inner rest : List Expression} :
      Header header → Statements (depth + 1) inner → Statements depth rest →
      Statements depth (header :: .openBlock (depth + 1) :: inner ++
        .closeBlock (depth + 1) :: rest)

inductive Program : List Expression → Prop where
  | nil : Program []
  | exportLabel {label : String} {rest : List Expression} :
      Program rest → Program (.exportLabel label :: rest)
  | importLabel {label : String} {rest : List Expression} :
      Program rest → Program (.importLabel label :: rest)
  | function {name : String} {parameters : List Parameter} {body rest : List Expression} :
      FunctionName name → (∀ parameter ∈ parameters, parameter.Writable) →
      Statements 1 body → Program rest →
      Program (.function name parameters :: .openBlock 1 :: body ++ .closeBlock 1 :: rest)

end Grammar

/-! What is read follows the grammar. -/

section Sound

theorem Operand.writable_of_ofLast? {piece : List Char} {operand : Operand} (whole : '@' ∉ piece)
    (found : ofLast? piece = some operand) : operand.Writable := by
  unfold ofLast? at found
  split at found
  · cases found
  · rename_i nonempty
    split at found
    · rename_i digits
      cases found
      exact ⟨by simpa using nonempty, by simpa using digits⟩
    · cases found
      exact ⟨by simpa using nonempty, by simpa using whole, by decide, by decide⟩

theorem Operand.writable_of_readFrom? {piece text : List Char} {operand : Operand}
    (whole : '@' ∉ piece) (found : readFrom? piece text = some operand) : operand.Writable := by
  induction text generalizing piece operand with
  | nil => exact writable_of_ofLast? whole found
  | cons c rest ih =>
      rw [readFrom?] at found
      split at found
      · split at found
        · cases found
        · rename_i nonempty
          obtain ⟨position, read, rfl⟩ := Option.map_eq_some_iff.mp found
          exact ⟨by simpa using nonempty, by simpa using whole, ih (by simp) read⟩
      · rename_i inside
        exact ih (by simp [whole, Ne.symm inside]) found

theorem Word.writable_of_operand {word : Word} {operand : Operand}
    (read : word.operand = .ok operand) :
    operand.Writable := by
  unfold Word.operand at read
  split at read
  · rename_i found
    cases read
    exact Operand.writable_of_readFrom? (by simp) found
  · cases read

theorem Word.exists_of_mem_mapM {α : Type} {read : Word → Except Fault α} {words : List Word}
    {values : List α} (all : words.mapM read = .ok values) :
    ∀ value ∈ values, ∃ word ∈ words, read word = .ok value := by
  induction words generalizing values with
  | nil =>
      cases all
      simp
  | cons word rest ih =>
      rw [List.mapM_cons] at all
      obtain ⟨first, firstRead, all⟩ := bind_eq_ok.mp all
      obtain ⟨others, othersRead, all⟩ := bind_eq_ok.mp all
      cases all
      rw [List.forall_mem_cons]
      refine ⟨⟨word, List.mem_cons_self, firstRead⟩, fun value member => ?_⟩
      obtain ⟨other, known, otherRead⟩ := ih othersRead value member
      exact ⟨other, List.mem_cons_of_mem word known, otherRead⟩

theorem Word.length_of_mapM {α : Type} {read : Word → Except Fault α} {words : List Word}
    {values : List α} (all : words.mapM read = .ok values) : values.length = words.length := by
  induction words generalizing values with
  | nil =>
      cases all
      rfl
  | cons word rest ih =>
      rw [List.mapM_cons] at all
      obtain ⟨first, firstRead, all⟩ := bind_eq_ok.mp all
      obtain ⟨others, othersRead, all⟩ := bind_eq_ok.mp all
      cases all
      rw [List.length_cons, List.length_cons, ih othersRead]

theorem Word.writable_of_operands {words : List Word} {operands : List Operand}
    (read : words.mapM Word.operand = .ok operands) : ∀ operand ∈ operands, operand.Writable := by
  intro operand member
  obtain ⟨word, _, found⟩ := exists_of_mem_mapM read operand member
  exact writable_of_operand found

theorem Word.notNumbered_of_startsWithDigit {text : List Char}
    (other : startsWithDigit text = false) :
    NotNumbered (String.ofList text) := by
  intro c first
  rw [String.toList_ofList] at first
  cases text with
  | nil => cases first
  | cons head rest =>
      cases first
      exact other

theorem Word.functionName_eq_ok {word : Word} {name : String} :
    word.functionName = .ok name ↔ word.text = name ∧ startsWithDigit word.text.toList = false := by
  unfold functionName
  split
  · simp_all
  · simp_all

theorem Word.notNumbered_of_functionName {word : Word} {name : String}
    (read : word.functionName = .ok name) :
    NotNumbered name := by
  obtain ⟨rfl, other⟩ := functionName_eq_ok.mp read
  have notNumbered := notNumbered_of_startsWithDigit other
  rwa [String.ofList_toList] at notNumbered

theorem Statement.callTarget_shape {word : Word} {name : String}
    (read : word.functionName = .ok name) :
    callTarget name = Keyword.reservedTarget ∨ FunctionName (callTarget name) := by
  unfold callTarget
  split
  · exact Or.inl rfl
  · rename_i notReserved
    exact Or.inr ⟨Word.notNumbered_of_functionName read, notReserved⟩

theorem Statement.writable_of_destination {word : Word} {found : Destination}
    (read : destination word = .ok found) : found.Writable := by
  unfold destination at read
  split at read
  · cases read
    trivial
  · obtain ⟨operand, operandRead, read⟩ := bind_eq_ok.mp read
    have writable := Word.writable_of_operand operandRead
    cases operand with
    | constant text => cases read
    | function name => cases read
    | «variable» name position =>
        cases read
        exact writable

/-- The mark of a pointer is the one separator that may stand at the end. -/
theorem Word.text_of_pointerMark {text name : List Char} {pointer : Bool}
    (split : pointerMark text = (name, pointer)) :
    text = if pointer then name ++ ['@'] else name := by
  unfold pointerMark at split
  split at split
  · rename_i reversed last
    cases split
    rw [if_pos rfl, ← List.reverse_reverse text, last, List.reverse_cons]
  · cases split
    simp

theorem Word.writable_of_parameter {word : Word} {parameter : Parameter}
    (notOpener : word.text ≠ Keyword.openBlock.word) (read : word.parameter = .ok parameter) :
    parameter.Writable := by
  simp only [Word.parameter] at read
  split at read
  · cases read
  · rename_i fine
    cases marked : pointerMark word.text.toList with
    | mk name pointer =>
        rw [marked] at fine read
        cases read
        simp only [not_or] at fine
        refine ⟨by simpa using fine.1, notNumbered_of_startsWithDigit (by simpa using fine.2.1),
          by simpa using fine.2.2, fun plain same => notOpener ?_⟩
        have text := text_of_pointerMark marked
        rw [show pointer = false from plain] at text
        rw [← same]
        exact String.toList_injective (by simpa using text)

theorem Word.forall_ne_separator {text : List Char} :
    (∀ c ∈ text, (c != '@') = true) ↔ '@' ∉ text := by
  constructor
  · intro passes member
    exact absurd (passes '@' member) (by decide)
  · intro whole c member
    rw [bne_iff_ne]
    rintro rfl
    exact whole member

theorem Word.simple_of_declaration {word : Word} {expression : Expression}
    (read : word.declaration = .ok expression) : Grammar.Simple expression := by
  simp only [declaration] at read
  split at read
  · rename_i undivided
    cases read
    apply Grammar.Simple.cell
    rwa [List.dropWhile_eq_nil_iff, forall_ne_separator] at undivided
  · split at read
    · rename_i length found
      split at read
      · rename_i fine
        cases read
        have below := Text.Decimal.readBelow?_lt found
        apply Grammar.Simple.cells
        · simpa using fine.2
        · rw [String.toList_ofList]
          exact forall_ne_separator.mp (List.all_eq_true.mp List.all_takeWhile)
        · exact fine.1
        · unfold lengthLimit at below
          omega
      · cases read
    · cases read

theorem Leaf.Spelled.simple {words : List Word} {leaf : Leaf} (spelled : Leaf.Spelled words leaf) :
    Grammar.Simple leaf.expression := by
  cases spelled with
  | declare _ declaration => exact Word.simple_of_declaration declaration
  | call _ nameRead _ argumentsRead _ destinationRead =>
      exact .call (Statement.callTarget_shape nameRead) (Word.writable_of_operands argumentsRead)
        (Statement.writable_of_destination destinationRead)
  | raw _ count operandsRead =>
      exact .raw ((Word.length_of_mapM operandsRead).trans count)
        (Word.writable_of_operands operandsRead)

theorem Test.Spelled.writable {words : List Word} {test : Test}
    (spelled : Test.Spelled words test) :
    test.skipping.left.Writable ∧ test.skipping.right.Writable := by
  cases spelled with
  | words leftRead _ rightRead =>
      exact ⟨Word.writable_of_operand leftRead, Word.writable_of_operand rightRead⟩

theorem Body.Spelled.statements {words : List Word} {body : Body}
    (spelled : Body.Spelled words body) (depth : Nat) :
    Grammar.Statements depth (body.expressions depth) := by
  induction spelled generalizing depth with
  | done => exact .nil
  | act leafSpelled _ ih => exact .simple leafSpelled.simple (ih depth)
  | leave _ valueRead _ ih =>
      exact .simple (.returnValue (Word.writable_of_operand valueRead)) (ih depth)
  | branch _ testSpelled _ _ _ _ innerIs ih =>
      obtain ⟨left, right⟩ := testSpelled.writable
      exact .block (.branch left right) (innerIs (depth + 1)) (ih depth)
  | loop _ testSpelled _ _ _ _ innerIs ih =>
      obtain ⟨left, right⟩ := testSpelled.writable
      exact .block (.loop left right) (innerIs (depth + 1)) (ih depth)

theorem Outline.Spelled.program {words : List Word} {outline : Outline}
    (spelled : Outline.Spelled words outline) :
    Grammar.Program outline.expressions := by
  induction spelled with
  | done => exact .nil
  | exportLabel _ _ ih => exact .exportLabel ih
  | importLabel _ _ ih => exact .importLabel ih
  | function _ nameRead notReserved noOpener parametersRead _ bodySpelled _ _ ih =>
      rw [expressions_cons, Item.expressions, List.append_assoc, List.singleton_append]
      refine .function ⟨Word.notNumbered_of_functionName nameRead, notReserved⟩
        (fun parameter member => ?_) (bodySpelled.statements 1) ih
      obtain ⟨word, known, found⟩ := Word.exists_of_mem_mapM parametersRead parameter member
      exact Word.writable_of_parameter (noOpener word known) found

end Sound

/-! A spelling of every list of the grammar. -/

def Word.ofCharacters (characters : List Char) : Word :=
  ⟨String.ofList characters, 0⟩

def Keyword.asWord (keyword : Keyword) : Word :=
  ⟨keyword.word, 0⟩

def Operand.spelling : Operand → List Char
  | .constant text => text.toList
  | .variable name position => name.toList ++ '@' :: position.spelling
  | .function name => name.toList

def Operand.asWord (operand : Operand) : Word :=
  .ofCharacters operand.spelling

def Parameter.asWord (parameter : Parameter) : Word :=
  .ofCharacters (parameter.name.toList ++ if parameter.pointer then ['@'] else [])

def Destination.asWord : Destination → Word
  | .discard => ⟨Keyword.discard, 0⟩
  | .variable name position => (Operand.variable name position).asWord

def Condition.words (condition : Condition) : List Word :=
  [condition.left.asWord, ⟨condition.comparison.complement.word, 0⟩, condition.right.asWord]

def calledName (function : String) : String :=
  if function = Keyword.reservedTarget then Keyword.reservedSpelling else function

def Expression.words : Expression → List Word
  | .exportLabel label => [Keyword.exportLabel.asWord, ⟨label, 0⟩]
  | .importLabel label => [Keyword.importLabel.asWord, ⟨label, 0⟩]
  | .declare name pointer length =>
    [Keyword.declare.asWord, .ofCharacters
      (name.toList ++ if pointer then '@' :: Nat.toDigits 10 length else [])]
  | .branch condition => Keyword.branch.asWord :: condition.words
  | .loop condition => Keyword.loop.asWord :: condition.words
  | .openBlock _ => [Keyword.openBlock.asWord]
  | .closeBlock _ => [Keyword.closeBlock.asWord]
  | .function name parameters =>
    Keyword.function.asWord :: ⟨name, 0⟩ :: parameters.map Parameter.asWord
  | .returnValue value => [Keyword.returnValue.asWord, value.asWord]
  | .call callee arguments destination =>
    Keyword.call.asWord :: ⟨calledName callee, 0⟩ :: arguments.map Operand.asWord ++
      [⟨Keyword.argumentsEnd, 0⟩, destination.asWord]
  | .raw mnemonic operands => ⟨mnemonic.word, 0⟩ :: operands.map Operand.asWord

/-! The spelling is read back. -/

section Complete

theorem Operand.readFrom?_append {name : List Char} (whole : '@' ∉ name) (piece rest : List Char) :
    readFrom? piece (name ++ rest) = readFrom? (piece ++ name) rest := by
  induction name generalizing piece with
  | nil => rw [List.nil_append, List.append_nil]
  | cons c name ih =>
      rw [List.mem_cons, not_or] at whole
      rw [List.cons_append, readFrom?, if_neg (Ne.symm whole.1), ih whole.2, List.append_assoc,
        List.singleton_append]

theorem Operand.read?_of_whole {text : String} (whole : '@' ∉ text.toList) :
    read? text = ofLast? text.toList := by
  have read := readFrom?_append whole [] []
  rwa [List.append_nil, List.nil_append] at read

theorem Operand.read?_separated {name : String} (named : name ≠ "") (whole : '@' ∉ name.toList)
    (rest : String) :
    read? (name ++ "@" ++ rest) = (read? rest).map (.variable name) := by
  have characters : (name ++ "@" ++ rest).toList = name.toList ++ '@' :: rest.toList := by
    simp
  rw [read?, characters, readFrom?_append whole, List.nil_append, readFrom?, if_pos rfl,
    if_neg (by simpa using named), String.ofList_toList]
  rfl

theorem Operand.readFrom?_spelling {operand : Operand} (writable : operand.Writable) :
    readFrom? [] operand.spelling = some operand := by
  induction operand with
  | constant text =>
      obtain ⟨nonempty, digits⟩ := writable
      have whole : '@' ∉ text.toList :=
        fun member => absurd (List.all_eq_true.mp digits '@' member) (by decide)
      have read := read?_of_whole whole
      rwa [ofLast?, if_neg (by simpa using nonempty), if_pos digits, String.ofList_toList] at read
  | «variable» name position ih =>
      obtain ⟨nonempty, whole, writable⟩ := writable
      rw [spelling, readFrom?_append whole, List.nil_append, readFrom?, if_pos rfl,
        if_neg (by simpa using nonempty), ih writable, String.ofList_toList]
      rfl
  | function name => cases writable

theorem Operand.operand_asWord {operand : Operand} (writable : operand.Writable) :
    operand.asWord.operand = .ok operand := by
  have read : read? operand.asWord.text = some operand := by
    rw [read?, asWord, Word.ofCharacters, String.toList_ofList]
    exact readFrom?_spelling writable
  simp only [Word.operand, read]

theorem Operand.separator_or_digits {operand : Operand} (writable : operand.Writable) :
    '@' ∈ operand.asWord.text.toList ∨ operand.asWord.text.toList.all Char.isDigit := by
  rw [asWord, Word.ofCharacters, String.toList_ofList]
  cases operand with
  | constant text => exact Or.inr writable.2
  | «variable» name position => exact Or.inl (by simp [spelling])
  | function name => cases writable

theorem Operand.asWord_ne_argumentsEnd {operand : Operand} (writable : operand.Writable) :
    operand.asWord.text ≠ Keyword.argumentsEnd := by
  intro same
  have shape := separator_or_digits writable
  rw [same] at shape
  exact absurd shape (by decide)

theorem Word.mapM_map {α : Type} {read : Word → Except Fault α} {word : α → Word} {values : List α}
    (each : ∀ value ∈ values, read (word value) = .ok value) :
    (values.map word).mapM read = .ok values := by
  induction values with
  | nil => rfl
  | cons value rest ih =>
      rw [List.forall_mem_cons] at each
      rw [List.map_cons, List.mapM_cons, each.1, ih each.2]
      rfl

theorem Word.startsWithDigit_of_notNumbered {text : String} (notNumbered : NotNumbered text) :
    startsWithDigit text.toList = false := by
  unfold NotNumbered at notNumbered
  cases characters : text.toList with
  | nil => rfl
  | cons c rest =>
      rw [characters] at notNumbered
      exact notNumbered c rfl

theorem Parameter.parameter_asWord {parameter : Parameter} (writable : parameter.Writable) :
    parameter.asWord.parameter = .ok parameter := by
  obtain ⟨name, pointer⟩ := parameter
  obtain ⟨named, notNumbered, whole, _⟩ := writable
  -- The name itself does not end with the separator that marks a pointer.
  have marked : Word.pointerMark (name.toList ++ if pointer then ['@'] else []) =
      (name.toList, pointer) := by
    unfold Word.pointerMark
    cases pointer with
    | true => simp
    | false =>
        simp only [Bool.false_eq_true, if_false, List.append_nil]
        split
        · rename_i reversed last
          exact absurd (List.mem_reverse.mp (last ▸ List.mem_cons_self)) whole
        · rfl
  have fine : ¬ (name.toList = [] ∨ Word.startsWithDigit name.toList = true ∨
      '@' ∈ name.toList) := by
    simp [Word.startsWithDigit_of_notNumbered notNumbered, whole, named]
  simp only [Word.parameter, asWord, Word.ofCharacters, String.toList_ofList, marked, if_neg fine,
    String.ofList_toList]

theorem Parameter.asWord_ne_openBlock {parameter : Parameter} (writable : parameter.Writable) :
    parameter.asWord.text ≠ Keyword.openBlock.word := by
  obtain ⟨name, pointer⟩ := parameter
  intro same
  cases pointer with
  | false =>
      apply writable.notOpener rfl
      simpa [asWord, Word.ofCharacters] using same
  | true =>
      have marked : '@' ∈ Keyword.openBlock.word.toList := by
        rw [← same]
        simp [asWord, Word.ofCharacters]
      exact absurd marked (by decide)

theorem Word.functionName_of_notNumbered {name : String} (notNumbered : NotNumbered name) :
    (Word.mk name 0).functionName = .ok name :=
  functionName_eq_ok.mpr ⟨rfl, startsWithDigit_of_notNumbered notNumbered⟩

theorem Statement.callTarget_calledName {function : String}
    (known : function = Keyword.reservedTarget ∨ FunctionName function) :
    (Word.mk (calledName function) 0).functionName = .ok (calledName function) ∧
      callTarget (calledName function) = function := by
  unfold calledName
  split
  · rename_i same
    rw [same]
    exact ⟨Word.functionName_eq_ok.mpr ⟨rfl, by decide⟩, by decide⟩
  · rename_i other
    have name := known.resolve_left other
    exact ⟨Word.functionName_of_notNumbered name.notNumbered, if_neg name.notReserved⟩

theorem Destination.destination_asWord {destination : Destination}
    (writable : destination.Writable) :
    Statement.destination destination.asWord = .ok destination := by
  cases destination with
  | discard => rfl
  | «variable» name position =>
      have read := Operand.operand_asWord writable
      have named : (Operand.variable name position).asWord.text ≠ Keyword.discard := by
        intro same
        have shape := Operand.separator_or_digits writable
        rw [same] at shape
        exact absurd shape (by decide)
      rw [Statement.destination, asWord, if_neg named, read]
      rfl

theorem Text.Decimal.value_toDigits (number : Nat) : value (Nat.toDigits 10 number) = number := by
  have read := @Nat.ofDigitChars_toDigits 10 number (by decide) (by decide)
  unfold Nat.ofDigitChars at read
  simpa only [value, Nat.mul_comm] using read

theorem Text.Decimal.readBelow?_toDigits {limit number : Nat} (below : number < limit) :
    readBelow? limit (Nat.toDigits 10 number) = some number := by
  have digits : (Nat.toDigits 10 number).all Char.isDigit :=
    List.all_eq_true.mpr fun c member => Nat.isDigit_of_mem_toDigits (by decide) (by decide) member
  have plain : unsigned (Nat.toDigits 10 number) = Nat.toDigits 10 number := by
    unfold unsigned
    split
    · rename_i rest same
      rw [same, List.all_cons] at digits
      cases digits
    · rfl
  rw [readBelow?, plain, value_toDigits, if_pos ⟨Nat.toDigits_ne_nil, digits, below⟩]

theorem Word.declaration_cell {name : String} (whole : '@' ∉ name.toList) :
    (Word.ofCharacters name.toList).declaration = .ok (.declare name false 1) := by
  have undivided : name.toList.dropWhile (· != '@') = [] := by
    rw [List.dropWhile_eq_nil_iff]
    exact forall_ne_separator.mpr whole
  simp only [declaration, ofCharacters, undivided, String.ofList_toList]

theorem Word.declaration_cells {name : String} {length : Nat} (named : name ≠ "")
    (whole : '@' ∉ name.toList) (some : 1 ≤ length) (below : length ≤ 4294967295) :
    (Word.ofCharacters (name.toList ++ '@' :: Nat.toDigits 10 length)).declaration =
      .ok (.declare name true length) := by
  have passes := forall_ne_separator.mpr whole
  have dropped : (name.toList ++ '@' :: Nat.toDigits 10 length).dropWhile (· != '@') =
      '@' :: Nat.toDigits 10 length := by
    rw [List.dropWhile_append_of_pos passes]
    rfl
  have taken : (name.toList ++ '@' :: Nat.toDigits 10 length).takeWhile (· != '@') =
      name.toList := by
    rw [List.takeWhile_append_of_pos passes]
    simp
  have read : Text.Decimal.readBelow? lengthLimit (Nat.toDigits 10 length) = .some length := by
    apply Text.Decimal.readBelow?_toDigits
    unfold lengthLimit
    omega
  have fine : 0 < length ∧ name.toList ≠ [] := ⟨some, by simpa using named⟩
  simp only [declaration, ofCharacters, String.toList_ofList, dropped, taken, read, if_pos fine,
    String.ofList_toList]

theorem Grammar.Simple.exists_spelled {expression : Expression} (simple : Simple expression)
    (depth : Nat) {more : List Word} {rest : Body} (restSpelled : Body.Spelled more rest) :
    ∃ body, Body.Spelled (expression.words ++ more) body ∧
      body.expressions depth = expression :: rest.expressions depth := by
  cases simple with
  | @cell name whole =>
      refine ⟨.act (.declare name false 1) rest, .act (.declare rfl ?_) restSpelled, rfl⟩
      simpa using Word.declaration_cell whole
  | @cells name length named whole some below =>
      refine ⟨.act (.declare name true length) rest, .act (.declare rfl ?_) restSpelled, rfl⟩
      simpa using Word.declaration_cells named whole some below
  | @returnValue value writable =>
      exact ⟨.leave value rest, .leave rfl (Operand.operand_asWord writable) restSpelled, rfl⟩
  | @call function arguments destination known writable destinationWritable =>
      obtain ⟨nameRead, target⟩ := Statement.callTarget_calledName known
      refine ⟨.act (.call function arguments destination) rest, .act ?_ restSpelled, rfl⟩
      have spelled := @Leaf.Spelled.call Keyword.call.asWord _ ⟨Keyword.argumentsEnd, 0⟩
        destination.asWord (arguments.map Operand.asWord) _ arguments destination rfl nameRead
        ?_ ?_ rfl (Destination.destination_asWord destinationWritable)
      · rwa [target] at spelled
      · rw [List.forall_mem_map]
        exact fun argument member => Operand.asWord_ne_argumentsEnd (writable argument member)
      · exact Word.mapM_map fun argument member => Operand.operand_asWord (writable argument member)
  | @raw mnemonic operands count writable =>
      refine ⟨.act (.raw mnemonic operands) rest, .act (.raw ?_ ?_ ?_) restSpelled, rfl⟩
      · exact Mnemonic.ofWord?_word mnemonic
      · rwa [List.length_map]
      · exact Word.mapM_map fun operand member => Operand.operand_asWord (writable operand member)

theorem Condition.exists_spelled {condition : Condition} (left : condition.left.Writable)
    (right : condition.right.Writable) :
    ∃ test, Test.Spelled condition.words test ∧ test.skipping = condition := by
  refine ⟨⟨condition.left, condition.comparison.complement, condition.right⟩, ?_, ?_⟩
  · exact .words (Operand.operand_asWord left) (Comparison.ofWord?_word _)
      (Operand.operand_asWord right)
  · rw [Test.skipping, Comparison.complement_complement]

theorem Grammar.Statements.exists_spelled {depth : Nat} {expressions : List Expression}
    (statements : Statements depth expressions) :
    ∃ body, Body.Spelled (expressions.flatMap Expression.words) body ∧
      body.expressions depth = expressions := by
  induction statements with
  | nil => exact ⟨.done, .done, rfl⟩
  | @simple depth expression rest simple _ ih =>
      obtain ⟨restBody, restSpelled, rfl⟩ := ih
      exact simple.exists_spelled depth restSpelled
  | @block depth header inner rest opened _ _ innerIh ih =>
      obtain ⟨innerBody, innerSpelled, rfl⟩ := innerIh
      obtain ⟨restBody, restSpelled, rfl⟩ := ih
      cases opened with
      | branch left right =>
          obtain ⟨test, testSpelled, rfl⟩ := Condition.exists_spelled left right
          refine ⟨.branch test innerBody restBody, ?_, rfl⟩
          have spelled := @Body.Spelled.branch Keyword.branch.asWord Keyword.openBlock.asWord
            Keyword.closeBlock.asWord _ _ _ _ _ _ rfl testSpelled rfl innerSpelled rfl restSpelled
          simpa [Expression.words] using spelled
      | loop left right =>
          obtain ⟨test, testSpelled, rfl⟩ := Condition.exists_spelled left right
          refine ⟨.loop test innerBody restBody, ?_, rfl⟩
          have spelled := @Body.Spelled.loop Keyword.loop.asWord Keyword.openBlock.asWord
            Keyword.closeBlock.asWord _ _ _ _ _ _ rfl testSpelled rfl innerSpelled rfl restSpelled
          simpa [Expression.words] using spelled

theorem Grammar.Program.exists_spelled {expressions : List Expression}
    (program : Program expressions) :
    ∃ outline : Outline, Outline.Spelled (expressions.flatMap Expression.words) outline ∧
      outline.expressions = expressions := by
  induction program with
  | nil => exact ⟨[], .done, rfl⟩
  | @exportLabel label rest _ ih =>
      obtain ⟨outline, spelled, rfl⟩ := ih
      exact ⟨.exportLabel label :: outline,
        @Outline.Spelled.exportLabel _ ⟨label, 0⟩ _ _ rfl spelled, rfl⟩
  | @importLabel label rest _ ih =>
      obtain ⟨outline, spelled, rfl⟩ := ih
      exact ⟨.importLabel label :: outline,
        @Outline.Spelled.importLabel _ ⟨label, 0⟩ _ _ rfl spelled, rfl⟩
  | @function name parameters body rest named writable statements _ ih =>
      obtain ⟨bodyTree, bodySpelled, rfl⟩ := statements.exists_spelled
      obtain ⟨outline, spelled, rfl⟩ := ih
      refine ⟨.function name parameters bodyTree :: outline, ?_, by simp [Item.expressions]⟩
      have functionSpelled := @Outline.Spelled.function Keyword.function.asWord ⟨name, 0⟩
        Keyword.openBlock.asWord Keyword.closeBlock.asWord (parameters.map Parameter.asWord) _ _
        name parameters bodyTree outline rfl
        (Word.functionName_of_notNumbered named.notNumbered) named.notReserved ?_ ?_ rfl
        bodySpelled rfl spelled
      · simpa [Expression.words] using functionSpelled
      · rw [List.forall_mem_map]
        exact fun parameter member => Parameter.asWord_ne_openBlock (writable parameter member)
      · exact Word.mapM_map fun parameter member =>
          Parameter.parameter_asWord (writable parameter member)

/-- A list of the grammar is read back from its spelling. -/
theorem Analysis.expressions_words {expressions : List Expression}
    (program : Grammar.Program expressions) :
    Analysis.expressions (expressions.flatMap Expression.words) = .ok expressions := by
  obtain ⟨outline, spelled, rfl⟩ := program.exists_spelled
  exact expressions_of_spelled spelled

end Complete

theorem Source.analyzeWords_eq_ok {source : Source} {words : List Word} {unit : SourceUnit} :
    source.analyzeWords words = .ok unit ↔ Analysis.expressions words = .ok unit.expressions := by
  obtain ⟨expressions⟩ := unit
  unfold analyzeWords SourceUnit.ofWords
  cases Analysis.expressions words <;> simp [bind, Except.bind]

/-- Over all words, analysis gives exactly the lists of the grammar. -/
theorem Source.analyzed_iff_grammar (source : Source) (expressions : List Expression) :
    (∃ words unit, source.analyzeWords words = .ok unit ∧ unit.expressions = expressions) ↔
      Grammar.Program expressions := by
  constructor
  · rintro ⟨words, unit, analyzed, rfl⟩
    obtain ⟨outline, spelled, same⟩ :=
      Analysis.spelled_of_expressions (analyzeWords_eq_ok.mp analyzed)
    rw [← same]
    exact spelled.program
  · intro program
    refine ⟨expressions.flatMap Expression.words, ⟨expressions⟩, ?_, rfl⟩
    exact analyzeWords_eq_ok.mpr (Analysis.expressions_words program)

end TinkaCompiler
