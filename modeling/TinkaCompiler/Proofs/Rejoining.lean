import Mathlib.Data.List.Forall2
import TinkaCompiler.Compilation
import TinkaCompiler.Proofs.Partition
import TinkaCompiler.Proofs.WordReaders

/-! Words joined again.

The words of a source are complete: put down with one blank between them they are found
again, although they may hold blanks and hyphens themselves. What is read from words depends
on their texts alone. So a source without its comments, and with all blanks between its words
made alike, has the same expressions, or the same violation, and compiles to the same text. -/

set_option autoImplicit false

namespace TinkaCompiler

namespace Word

def joined (separator : Char) (words : List Word) : String :=
  (String.singleton separator).intercalate (words.map (·.text))

def SameTexts (words others : List Word) : Prop :=
  List.Forall₂ (fun word other => word.text = other.text) words others

theorem sameTexts_iff {words others : List Word} :
    SameTexts words others ↔ words.map (·.text) = others.map (·.text) := by
  rw [← List.forall₂_eq_eq_eq, List.forall₂_map_left_iff, List.forall₂_map_right_iff]
  rfl

theorem SameTexts.tail {words others : List Word} (same : SameTexts words others) :
    SameTexts words.tail others.tail := by
  cases same with
  | nil => exact .nil
  | cons _ rest => exact rest

theorem SameTexts.upTo {words others : List Word} (same : SameTexts words others)
    (terminator : String) :
    SameTexts (words.takeWhile (·.text != terminator)) (others.takeWhile (·.text != terminator)) ∧
      SameTexts (words.dropWhile (·.text != terminator))
        (others.dropWhile (·.text != terminator)) := by
  induction same with
  | nil => exact ⟨.nil, .nil⟩
  | @cons word other words others first rest ih =>
      rw [List.takeWhile_cons, List.takeWhile_cons, List.dropWhile_cons, List.dropWhile_cons, first]
      split
      · exact ⟨.cons first ih.1, ih.2⟩
      · exact ⟨.nil, .cons first rest⟩

theorem divides_text {offset : Nat} {text : String} {rest : List Char} {words : List Word}
    (units : text ≠ "" ∧ Units text.toList) (stops : Stops rest)
    (divides : Divides (offset + text.utf8ByteSize) rest words) :
    Divides offset (text.toList ++ rest) (⟨text, offset⟩ :: words) := by
  have characters : text.toList ≠ [] := by simpa using units.1
  rw [← text.ofList_toList] at divides ⊢
  simpa using Divides.word units.2 characters stops divides

theorem exists_divides_joined {separator : Char} (blank : Text.isBlank separator)
    {words : List Word} (units : ∀ word ∈ words, word.text ≠ "" ∧ Units word.text.toList)
    (offset : Nat) :
    ∃ others, Divides offset (joined separator words).toList others ∧ SameTexts others words := by
  induction words generalizing offset with
  | nil => exact ⟨[], .ended, .nil⟩
  | cons word rest ih =>
      obtain ⟨first, behind⟩ := List.forall_mem_cons.mp units
      cases rest with
      | nil =>
          refine ⟨[⟨word.text, offset⟩], ?_, .cons rfl .nil⟩
          rw [joined, List.map_singleton, String.intercalate_singleton,
            ← List.append_nil word.text.toList]
          exact divides_text first .ended .ended
      | cons second more =>
          obtain ⟨others, divides, same⟩ :=
            ih behind (offset + word.text.utf8ByteSize + separator.utf8Size)
          refine ⟨⟨word.text, offset⟩ :: others, ?_, .cons rfl same⟩
          have split : (joined separator (word :: second :: more)).toList =
              word.text.toList ++ separator :: (joined separator (second :: more)).toList := by
            rw [joined, List.map_cons, List.map_cons, String.intercalate_cons_cons,
              String.toList_append, String.toList_append, String.toList_singleton,
              List.append_assoc, List.singleton_append]
            rfl
          rw [split]
          exact divides_text first (.blank blank) (.blank blank divides)

theorem sameTexts_joined {separator : Char} (blank : Text.isBlank separator) (source : String) :
    SameTexts (ofSource (joined separator (ofSource source))) (ofSource source) := by
  have divides := ofSource_eq_iff.mp (Eq.refl (ofSource source))
  obtain ⟨others, again, same⟩ := exists_divides_joined blank divides.units 0
  rw [ofSource_eq_iff.mpr again]
  exact same

end Word

/-! Reading the same texts at other places. -/

/-- The outcomes of reading the same texts twice: values that go together, or one violation. -/
inductive Coincides {α β : Type} (together : α → β → Prop) :
    Except Fault α → Except Fault β → Prop where
  | ok {value : α} {other : β} : together value other → Coincides together (.ok value) (.ok other)
  | error {violation : Violation} {site other : Site} :
      Coincides together (.error ⟨violation, site⟩) (.error ⟨violation, other⟩)

theorem Coincides.bind {α β γ δ : Type} {together : α → β → Prop} {next : γ → δ → Prop}
    {first : Except Fault α} {second : Except Fault β} {after : α → Except Fault γ}
    {behind : β → Except Fault δ} (start : Coincides together first second)
    (rest : ∀ value other, together value other → Coincides next (after value) (behind other)) :
    Coincides next (first >>= after) (second >>= behind) := by
  cases start with
  | ok same => exact rest _ _ same
  | error => exact .error

theorem JudgesTexts.coincides {α : Type} {reader : Word → Except Fault α}
    (judges : JudgesTexts reader) {word other : Word} (same : word.text = other.text) :
    Coincides Eq (reader word) (reader other) := by
  obtain ⟨text, offset⟩ := word
  obtain ⟨_, place⟩ := other
  cases same
  cases judges text with
  | accepted value always =>
      rw [always offset, always place]
      exact .ok rfl
  | refused violation named never =>
      rw [never offset, never place]
      exact .error

namespace Statement

open Word (SameTexts)

variable {words others : List Word}

theorem coincides_mapM {α : Type} {reader : Word → Except Fault α} (judges : JudgesTexts reader)
    (same : SameTexts words others) : Coincides Eq (words.mapM reader) (others.mapM reader) := by
  induction same with
  | nil => exact .ok rfl
  | cons first _ ih =>
      rw [List.mapM_cons, List.mapM_cons]
      refine (judges.coincides first).bind ?_
      rintro value _ rfl
      refine ih.bind ?_
      rintro values _ rfl
      exact .ok rfl

def Together {α β : Type} (together : α → β → Prop) (read : α × List Word)
    (other : β × List Word) : Prop :=
  together read.1 other.1 ∧ SameTexts read.2 other.2

theorem coincides_next {keyword : String} (same : SameTexts words others) :
    Coincides (Together fun word other : Word => word.text = other.text) (next keyword words)
      (next keyword others) := by
  cases same with
  | nil => exact .error
  | cons first rest => exact .ok ⟨first, rest⟩

theorem coincides_upTo {keyword other : Word} (named : keyword.text = other.text)
    (terminator : String) (same : SameTexts words others) :
    Coincides (Together SameTexts) (upTo keyword terminator words)
      (upTo other terminator others) := by
  obtain ⟨taken, left⟩ := same.upTo terminator
  unfold upTo
  generalize words.dropWhile (·.text != terminator) = rest at left ⊢
  generalize others.dropWhile (·.text != terminator) = otherRest at left ⊢
  rw [named]
  cases left with
  | nil => exact .error
  | cons first behind => exact .ok ⟨taken, .cons first behind⟩

theorem coincides_readCondition {keyword : String} (same : SameTexts words others) :
    Coincides (Together Eq) (readCondition keyword words) (readCondition keyword others) := by
  cases same with
  | nil => exact .error
  | cons left same =>
      cases same with
      | nil => exact .error
      | cons comparison same =>
          cases same with
          | nil => exact .error
          | cons right rest =>
              simp only [readCondition]
              rw [left, comparison, right]
              split
              · exact .error
              · refine (Word.judges_operand.coincides left).bind ?_
                rintro leftOperand _ rfl
                refine (Word.judges_operand.coincides right).bind ?_
                rintro rightOperand _ rfl
                exact .ok ⟨rfl, rest⟩

theorem coincides_readOperands {keyword : String} (count : Nat) (same : SameTexts words others) :
    Coincides (Together Eq) (readOperands keyword count words)
      (readOperands keyword count others) := by
  induction count generalizing words others with
  | zero => exact .ok ⟨rfl, same⟩
  | succ count ih =>
      refine (coincides_next same).bind ?_
      rintro ⟨word, rest⟩ ⟨other, otherRest⟩ ⟨text, behind⟩
      refine (Word.judges_operand.coincides text).bind ?_
      rintro operand _ rfl
      refine (ih behind).bind ?_
      rintro ⟨operands, left⟩ ⟨_, otherLeft⟩ ⟨rfl, last⟩
      exact .ok ⟨rfl, last⟩

theorem coincides_readFunction {keyword other : Word} (named : keyword.text = other.text)
    (same : SameTexts words others) :
    Coincides (Together Eq) (readFunction keyword words) (readFunction other others) := by
  unfold readFunction
  rw [named]
  refine (coincides_next same).bind ?_
  rintro ⟨word, rest⟩ ⟨second, otherRest⟩ ⟨text, behind⟩
  refine (Word.judges_functionName.coincides text).bind ?_
  rintro name _ rfl
  dsimp only
  split
  · exact .error
  · refine (coincides_upTo named _ behind).bind ?_
    rintro ⟨parameterWords, left⟩ ⟨otherWords, otherLeft⟩ ⟨parameters, last⟩
    refine (coincides_mapM Word.judges_parameter parameters).bind ?_
    rintro values _ rfl
    exact .ok ⟨rfl, last⟩

theorem coincides_readCall {keyword other : Word} (named : keyword.text = other.text)
    (same : SameTexts words others) :
    Coincides (Together Eq) (readCall keyword words) (readCall other others) := by
  unfold readCall
  rw [named]
  refine (coincides_next same).bind ?_
  rintro ⟨word, rest⟩ ⟨second, otherRest⟩ ⟨text, behind⟩
  refine (Word.judges_functionName.coincides text).bind ?_
  rintro name _ rfl
  refine (coincides_upTo named _ behind).bind ?_
  rintro ⟨argumentWords, fromStop⟩ ⟨otherWords, otherFromStop⟩ ⟨arguments, stop⟩
  refine (coincides_mapM Word.judges_operand arguments).bind ?_
  rintro values _ rfl
  refine (coincides_next stop.tail).bind ?_
  rintro ⟨target, left⟩ ⟨otherTarget, otherLeft⟩ ⟨stored, last⟩
  refine (Word.judges_destination.coincides stored).bind ?_
  rintro result _ rfl
  exact .ok ⟨rfl, last⟩

end Statement

namespace Analysis

open Word (SameTexts)
open Statement (coincides_next coincides_readCondition coincides_readOperands coincides_readFunction
  coincides_readCall)

structure Step.Alike (result other : Step) : Prop where
  expression : result.expression = other.expression
  context : result.context = other.context
  rest : SameTexts result.rest other.rest

variable {word other : Word} (named : word.text = other.text)

include named

theorem Context.coincides_requireFunction (context : Context) :
    Coincides Eq (context.requireFunction word) (context.requireFunction other) := by
  unfold requireFunction
  rw [named]
  split
  · exact .error
  · exact .ok rfl

theorem Context.coincides_forbidFunction (context : Context) :
    Coincides Eq (context.forbidFunction word) (context.forbidFunction other) := by
  unfold forbidFunction
  rw [named]
  split
  · exact .error
  · exact .ok rfl

theorem coincides_stepKeyword {words others : List Word} (same : SameTexts words others)
    (context : Context) (keyword : Keyword) :
    Coincides Step.Alike (stepKeyword context word keyword words)
      (stepKeyword context other keyword others) := by
  cases keyword with
  | exportLabel =>
      refine (context.coincides_forbidFunction named).bind fun _ _ _ => ?_
      rw [named]
      refine (coincides_next same).bind ?_
      rintro ⟨label, rest⟩ ⟨otherLabel, otherRest⟩ ⟨text, behind⟩
      exact .ok ⟨congrArg Expression.exportLabel text, rfl, behind⟩
  | importLabel =>
      refine (context.coincides_forbidFunction named).bind fun _ _ _ => ?_
      rw [named]
      refine (coincides_next same).bind ?_
      rintro ⟨label, rest⟩ ⟨otherLabel, otherRest⟩ ⟨text, behind⟩
      exact .ok ⟨congrArg Expression.importLabel text, rfl, behind⟩
  | declare =>
      refine (context.coincides_requireFunction named).bind fun _ _ _ => ?_
      rw [named]
      refine (coincides_next same).bind ?_
      rintro ⟨declared, rest⟩ ⟨otherDeclared, otherRest⟩ ⟨text, behind⟩
      refine (Word.judges_declaration.coincides text).bind ?_
      rintro expression _ rfl
      exact .ok ⟨rfl, rfl, behind⟩
  | branch | loop =>
      refine (context.coincides_requireFunction named).bind fun _ _ _ => ?_
      rw [named]
      refine (coincides_readCondition same).bind ?_
      rintro ⟨condition, rest⟩ ⟨_, otherRest⟩ ⟨rfl, behind⟩
      exact .ok ⟨rfl, rfl, behind⟩
  | openBlock =>
      simp only [stepKeyword]
      split
      · exact .error
      · exact .ok ⟨rfl, rfl, same⟩
  | closeBlock =>
      simp only [stepKeyword]
      split
      · exact .error
      · exact .ok ⟨rfl, rfl, same⟩
  | function =>
      refine (context.coincides_forbidFunction named).bind fun _ _ _ => ?_
      refine (coincides_readFunction named same).bind ?_
      rintro ⟨expression, rest⟩ ⟨_, otherRest⟩ ⟨rfl, behind⟩
      exact .ok ⟨rfl, rfl, behind⟩
  | returnValue =>
      refine (context.coincides_requireFunction named).bind fun _ _ _ => ?_
      rw [named]
      refine (coincides_next same).bind ?_
      rintro ⟨value, rest⟩ ⟨otherValue, otherRest⟩ ⟨text, behind⟩
      refine (Word.judges_operand.coincides text).bind ?_
      rintro operand _ rfl
      exact .ok ⟨rfl, rfl, behind⟩
  | call =>
      refine (context.coincides_requireFunction named).bind fun _ _ _ => ?_
      refine (coincides_readCall named same).bind ?_
      rintro ⟨expression, rest⟩ ⟨_, otherRest⟩ ⟨rfl, behind⟩
      exact .ok ⟨rfl, rfl, behind⟩

theorem coincides_stepRaw {words others : List Word} (same : SameTexts words others)
    (context : Context) (mnemonic : Mnemonic) :
    Coincides Step.Alike (stepRaw context word mnemonic words)
      (stepRaw context other mnemonic others) := by
  refine (context.coincides_requireFunction named).bind fun _ _ _ => ?_
  rw [named]
  refine (coincides_readOperands mnemonic.arity same).bind ?_
  rintro ⟨operands, rest⟩ ⟨_, otherRest⟩ ⟨rfl, behind⟩
  exact .ok ⟨rfl, rfl, behind⟩

theorem coincides_step {words others : List Word} (same : SameTexts words others)
    (context : Context) :
    Coincides Step.Alike (step context word words) (step context other others) := by
  unfold step Context.misplaced
  rw [named]
  cases context.awaiting with
  | some header =>
      by_cases opener : other.text = Keyword.openBlock.word
      · simp only [opener, Keyword.ofWord?_word]
        exact coincides_stepKeyword named same context .openBlock
      · simp only [if_neg opener]
        exact .error
  | none =>
      dsimp only
      cases Keyword.ofWord? other.text with
      | some keyword => exact coincides_stepKeyword named same context keyword
      | none =>
          cases Mnemonic.ofWord? other.text with
          | some mnemonic => exact coincides_stepRaw named same context mnemonic
          | none => exact .error

omit named

theorem coincides_run {words others : List Word} (same : SameTexts words others)
    (context : Context) :
    Coincides Eq (run context words) (run context others) := by
  induction size : words.length using Nat.strongRecOn generalizing context words others with
  | ind count ih =>
      subst size
      cases same with
      | nil =>
          cases run context [] with
          | ok expressions => exact .ok rfl
          | error fault => exact .error
      | @cons word other words others named rest =>
          have first := coincides_step named rest context
          rw [run_cons, run_cons]
          generalize read : step context word words = outcome at first ⊢
          generalize step context other others = otherOutcome at first ⊢
          cases first with
          | error => exact .error
          | @ok result otherResult alike =>
              obtain ⟨expression, after, left⟩ := result
              obtain ⟨_, _, otherLeft⟩ := otherResult
              obtain ⟨rfl, rfl, texts⟩ := alike
              have shorter : left.length < (word :: words).length :=
                Nat.lt_succ_of_le (suffix_of_step read).length_le
              refine (ih _ shorter texts after rfl).bind ?_
              rintro expressions _ rfl
              exact .ok rfl

end Analysis

theorem SourceUnit.coincides_ofWords {words others : List Word}
    (same : Word.SameTexts words others) :
    Coincides Eq (ofWords words) (ofWords others) := by
  refine (Analysis.coincides_run same .start).bind ?_
  rintro expressions _ rfl
  exact .ok rfl

theorem Compilation.assemblyOfText_eq_ok {text assembly : String} :
    assemblyOfText text = .ok assembly ↔
      ∃ unit compilation, Source.analyze ⟨"<input>", text⟩ = .ok unit ∧
        link [unit] = .ok compilation ∧ compilation.assembly = assembly := by
  unfold assemblyOfText ofSources
  rw [List.mapM_cons, List.mapM_nil]
  constructor
  · intro compiled
    obtain ⟨compilation, compiled, same⟩ := Statement.bind_eq_ok.mp compiled
    obtain ⟨units, analyzed, linked⟩ := Statement.bind_eq_ok.mp compiled
    obtain ⟨unit, first, rest⟩ := Statement.bind_eq_ok.mp analyzed
    cases rest
    exact ⟨unit, compilation, first, linked, Except.ok.inj same⟩
  · rintro ⟨unit, compilation, analyzed, linked, rfl⟩
    rw [analyzed]
    exact Statement.bind_eq_ok.mpr ⟨compilation, linked, rfl⟩

namespace Source

/-- Words with the same texts give the same unit or the same violation, whatever sources they
are taken from. -/
theorem analyzeWords_alike (source other : Source) {words others : List Word}
    (same : Word.SameTexts words others) :
    (∀ unit, source.analyzeWords words = .ok unit ↔ other.analyzeWords others = .ok unit) ∧
      ∀ violation, (∃ position, source.analyzeWords words = .error (.analysis violation position)) ↔
        ∃ position, other.analyzeWords others = .error (.analysis violation position) := by
  have units := SourceUnit.coincides_ofWords same
  unfold analyzeWords
  generalize SourceUnit.ofWords words = first at units ⊢
  generalize SourceUnit.ofWords others = second at units ⊢
  cases units with
  | ok equal => simp [equal]
  | error => simp

/-- A source and its words, put down with one blank between each two, have the same words.
They are analyzed to the same unit or refused for the same violation, and compile to the same
text. -/
theorem words_rejoined (source : Source) {separator : Char} (blank : Text.isBlank separator) :
    let again : Source := ⟨source.file, Word.joined separator (Word.ofSource source.text)⟩
    (Word.ofSource again.text).map (·.text) = (Word.ofSource source.text).map (·.text) ∧
      (∀ unit, again.analyze = .ok unit ↔ source.analyze = .ok unit) ∧
      (∀ violation, (∃ position, again.analyze = .error (.analysis violation position)) ↔
        ∃ position, source.analyze = .error (.analysis violation position)) ∧
      ∀ assembly, Compilation.assemblyOfText again.text = .ok assembly ↔
        Compilation.assemblyOfText source.text = .ok assembly := by
  intro again
  have same := Word.sameTexts_joined blank source.text
  obtain ⟨accepted, refused⟩ := analyzeWords_alike again source same
  refine ⟨Word.sameTexts_iff.mp same, accepted, refused, fun assembly => ?_⟩
  have input (unit : SourceUnit) :
      Source.analyze ⟨"<input>", again.text⟩ = .ok unit ↔
        Source.analyze ⟨"<input>", source.text⟩ = .ok unit :=
    (analyzeWords_alike _ _ same).1 unit
  simp only [Compilation.assemblyOfText_eq_ok, input]

/-- A name that holds a blank, a comment behind it and a hyphen at the end. -/
theorem words_rejoined_hyphens :
    let source : Source := ⟨"f.tinka", "kue - x -- c\r\ncersva - x  rinyv\tkrz 1 2 situv-"⟩
    let refused : Source := ⟨"g.tinka", "kue a\n--\n rinyv--x"⟩
    let again : Source := ⟨"g.tinka", "kue\na\nrinyv"⟩
    Word.joined ' ' (Word.ofSource source.text) = "kue - x cersva - x rinyv krz 1 2 situv" ∧
      Compilation.assemblyOfText "kue - x cersva - x rinyv krz 1 2 situv" =
        .ok "kue - x\nnll - x\nkrz 1 2\nnll dosnud1\nkrz f5@ xx\n" ∧
      Word.joined '\n' (Word.ofSource refused.text) = again.text ∧
      refused.analyze = .error (.analysis .unexpectedOpener ⟨"g.tinka", 3, 2, " rinyv--x"⟩) ∧
      ∃ position, again.analyze = .error (.analysis .unexpectedOpener position) := by
  intro source refused again
  have spaced : Word.joined ' ' (Word.ofSource source.text) =
      "kue - x cersva - x rinyv krz 1 2 situv" := by
    decide +kernel
  have compiled : Compilation.assemblyOfText source.text =
      .ok "kue - x\nnll - x\nkrz 1 2\nnll dosnud1\nkrz f5@ xx\n" := by decide +kernel
  have broken : Word.joined '\n' (Word.ofSource refused.text) = again.text := by decide +kernel
  have failed : refused.analyze =
      .error (.analysis .unexpectedOpener ⟨"g.tinka", 3, 2, " rinyv--x"⟩) := by
    decide +kernel
  obtain ⟨_, _, _, assembled⟩ := words_rejoined source (show Text.isBlank ' ' by decide)
  obtain ⟨_, _, violated, _⟩ := words_rejoined refused (show Text.isBlank '\n' by decide)
  rw [spaced] at assembled
  rw [broken] at violated
  exact ⟨spaced, (assembled _).mpr compiled, broken, failed, (violated _).mpr ⟨_, failed⟩⟩

end Source
end TinkaCompiler
