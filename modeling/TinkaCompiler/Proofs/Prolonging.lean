import TinkaCompiler.Proofs.Grammar
import TinkaCompiler.Proofs.WordReaders

/-! Words with more words behind them.

Headers of functions and calls look ahead for the word that ends them, but never beyond what
they need. So a statement that has been read is read in the same way whatever follows, and a
violation stays the first one whatever follows. Only what the end of the input causes can be
mended by more words: a statement that is cut off, a header without its opener, and blocks that
are left open. -/

set_option autoImplicit false

namespace TinkaCompiler

/-- Violations of a statement that is cut off by the end of the input. -/
def Violation.IsCutOff : Violation → Prop
  | .unexpectedEnd _ | .missingTerminator _ _ => True
  | _ => False

/-- Faults that are there because the input ends. A header that meets another word than its
opener is shown at that word, and one that meets none is shown at the end. -/
def Fault.IsCausedByEnd (fault : Fault) : Prop :=
  match fault.violation with
  | .unexpectedEnd _ | .missingTerminator _ _ | .unbalancedBlocks _ => True
  | .missingOpener _ _ => fault.site = .endOfInput
  | _ => False

theorem Fault.isCausedByEnd_of_isCutOff {fault : Fault} (cutOff : fault.violation.IsCutOff) :
    fault.IsCausedByEnd := by
  obtain ⟨violation, site⟩ := fault
  cases violation with
  | unexpectedEnd => trivial
  | missingTerminator => trivial
  | _ => cases cutOff

/-- The outcomes of a reading and of the same reading with more words behind. The longer
reading gives the value with those words, or the same fault, which is at a word. Nothing is said
about it if the shorter one is cut off. -/
inductive Prolonged {α : Type} (extend : α → α) : Except Fault α → Except Fault α → Prop where
  | ok (value : α) : Prolonged extend (.ok value) (.ok (extend value))
  | error (word : Word) (violation : Violation) :
      Prolonged extend (.error (.atWord word violation)) (.error (.atWord word violation))
  | cutOff {fault : Fault} (longer : Except Fault α) :
      fault.violation.IsCutOff → Prolonged extend (.error fault) longer

theorem Prolonged.bind {α β : Type} {extend : α → α} {next : β → β} {first longer : Except Fault α}
    {after behind : α → Except Fault β} (start : Prolonged extend first longer)
    (rest : ∀ value, first = .ok value → Prolonged next (after value) (behind (extend value))) :
    Prolonged next (first >>= after) (longer >>= behind) := by
  cases start with
  | ok value => exact rest value rfl
  | error word violation => exact .error word violation
  | cutOff longer cut => exact .cutOff _ cut

theorem Prolonged.final {α : Type} {extend : α → α} {fault : Fault} {longer : Except Fault α}
    (prolonged : Prolonged extend (.error fault) longer) (whole : ¬ fault.violation.IsCutOff) :
    longer = .error fault ∧ fault.site ≠ .endOfInput := by
  cases prolonged with
  | error word violation => exact ⟨rfl, Site.noConfusion⟩
  | cutOff longer cut => exact absurd cut whole

/-! Readers. -/

theorem JudgesTexts.prolonged {α : Type} {reader : Word → Except Fault α}
    (judges : JudgesTexts reader) (word : Word) :
    Prolonged id (reader word) (reader word) := by
  cases judges word.text with
  | accepted value always =>
      rw [always word.offset]
      exact .ok value
  | refused violation named never =>
      rw [never word.offset]
      exact .error word violation

theorem JudgesTexts.prolonged_mapM {α : Type} {reader : Word → Except Fault α}
    (judges : JudgesTexts reader) (words : List Word) :
    Prolonged id (words.mapM reader) (words.mapM reader) := by
  induction words with
  | nil => exact .ok []
  | cons word rest ih =>
      rw [List.mapM_cons]
      refine (judges.prolonged word).bind fun value _ => ?_
      exact ih.bind fun values _ => .ok (value :: values)

namespace Statement

def leaving {α : Type} (more : List Word) (read : α × List Word) : α × List Word :=
  (read.1, read.2 ++ more)

variable (more : List Word)

theorem prolonged_next (keyword : String) (words : List Word) :
    Prolonged (leaving more) (next keyword words) (next keyword (words ++ more)) := by
  cases words with
  | nil => exact .cutOff _ trivial
  | cons word rest => exact .ok (word, rest)

theorem prolonged_upTo (keyword : Word) (terminator : String) (words : List Word) :
    Prolonged (leaving more) (upTo keyword terminator words)
      (upTo keyword terminator (words ++ more)) := by
  cases found : upTo keyword terminator words with
  | error fault =>
      unfold upTo at found
      split at found
      · cases found
        exact .cutOff _ trivial
      · cases found
  | ok read =>
      obtain ⟨before, rest⟩ := read
      obtain ⟨rfl, noStop, stop, behind, rfl, stopped⟩ := upTo_eq_ok.mp found
      have again : upTo keyword terminator (before ++ stop :: behind ++ more) =
          .ok (leaving more (before, stop :: behind)) :=
        upTo_eq_ok.mpr ⟨List.append_assoc .., noStop, stop, behind ++ more, rfl, stopped⟩
      rw [again]
      exact .ok (before, stop :: behind)

theorem prolonged_readCondition (keyword : String) (words : List Word) :
    Prolonged (leaving more) (readCondition keyword words)
      (readCondition keyword (words ++ more)) := by
  rcases words with _ | ⟨left, _ | ⟨comparison, _ | ⟨right, rest⟩⟩⟩
  · exact .cutOff _ trivial
  · exact .cutOff _ trivial
  · exact .cutOff _ trivial
  · simp only [readCondition, List.cons_append]
    cases Comparison.ofWord? comparison.text with
    | none => exact .error comparison _
    | some written =>
        refine (Word.judges_operand.prolonged left).bind fun leftOperand _ => ?_
        exact (Word.judges_operand.prolonged right).bind fun rightOperand _ => .ok (_, rest)

theorem prolonged_readOperands (keyword : String) (count : Nat) (words : List Word) :
    Prolonged (leaving more) (readOperands keyword count words)
      (readOperands keyword count (words ++ more)) := by
  induction count generalizing words with
  | zero => exact .ok ([], words)
  | succ count ih =>
      refine (prolonged_next more keyword words).bind ?_
      rintro ⟨word, rest⟩ _
      refine (Word.judges_operand.prolonged word).bind fun operand _ => ?_
      refine (ih rest).bind ?_
      rintro ⟨operands, left⟩ _
      exact .ok (operand :: operands, left)

theorem prolonged_readFunction (keyword : Word) (words : List Word) :
    Prolonged (leaving more) (readFunction keyword words)
      (readFunction keyword (words ++ more)) := by
  refine (prolonged_next more keyword.text words).bind ?_
  rintro ⟨word, rest⟩ _
  refine (Word.judges_functionName.prolonged word).bind fun name _ => ?_
  dsimp only [leaving, id]
  split
  · exact .error word _
  · refine (prolonged_upTo more keyword _ rest).bind ?_
    rintro ⟨parameterWords, left⟩ _
    exact (Word.judges_parameter.prolonged_mapM parameterWords).bind fun parameters _ =>
      .ok (_, left)

theorem prolonged_readCall (keyword : Word) (words : List Word) :
    Prolonged (leaving more) (readCall keyword words) (readCall keyword (words ++ more)) := by
  refine (prolonged_next more keyword.text words).bind ?_
  rintro ⟨word, rest⟩ _
  refine (Word.judges_functionName.prolonged word).bind fun name _ => ?_
  refine (prolonged_upTo more keyword _ rest).bind ?_
  rintro ⟨argumentWords, fromStop⟩ found
  -- The word that ends the arguments is there, so the words behind it are the same in both.
  obtain ⟨_, _, stop, behind, rfl, _⟩ := upTo_eq_ok.mp found
  refine (Word.judges_operand.prolonged_mapM argumentWords).bind fun arguments _ => ?_
  refine (prolonged_next more _ behind).bind ?_
  rintro ⟨target, left⟩ _
  exact (Word.judges_destination.prolonged target).bind fun result _ => .ok (_, left)

end Statement

/-! Statements. -/

namespace Analysis

open Statement (prolonged_next prolonged_readCondition prolonged_readOperands prolonged_readFunction
  prolonged_readCall)

def Step.followedBy (result : Step) (more : List Word) : Step :=
  { result with rest := result.rest ++ more }

section Steps

variable (context : Context) (word : Word) (words more : List Word)

theorem prolonged_requireFunction :
    Prolonged id (context.requireFunction word) (context.requireFunction word) := by
  unfold Context.requireFunction
  split
  · exact .error word _
  · exact .ok ()

theorem prolonged_forbidFunction :
    Prolonged id (context.forbidFunction word) (context.forbidFunction word) := by
  unfold Context.forbidFunction
  split
  · exact .error word _
  · exact .ok ()

theorem prolonged_stepKeyword (keyword : Keyword) :
    Prolonged (·.followedBy more) (stepKeyword context word keyword words)
      (stepKeyword context word keyword (words ++ more)) := by
  cases keyword with
  | exportLabel | importLabel =>
      refine (prolonged_forbidFunction context word).bind fun _ _ => ?_
      refine (prolonged_next more _ words).bind ?_
      rintro ⟨label, rest⟩ _
      exact .ok _
  | declare =>
      refine (prolonged_requireFunction context word).bind fun _ _ => ?_
      refine (prolonged_next more _ words).bind ?_
      rintro ⟨declared, rest⟩ _
      exact (Word.judges_declaration.prolonged declared).bind fun expression _ => .ok _
  | branch | loop =>
      refine (prolonged_requireFunction context word).bind fun _ _ => ?_
      refine (prolonged_readCondition more _ words).bind ?_
      rintro ⟨condition, rest⟩ _
      exact .ok _
  | openBlock | closeBlock =>
      simp only [stepKeyword]
      split
      · exact .error word _
      · exact .ok _
  | function =>
      refine (prolonged_forbidFunction context word).bind fun _ _ => ?_
      refine (prolonged_readFunction more word words).bind ?_
      rintro ⟨expression, rest⟩ _
      exact .ok _
  | returnValue =>
      refine (prolonged_requireFunction context word).bind fun _ _ => ?_
      refine (prolonged_next more _ words).bind ?_
      rintro ⟨value, rest⟩ _
      exact (Word.judges_operand.prolonged value).bind fun operand _ => .ok _
  | call =>
      refine (prolonged_requireFunction context word).bind fun _ _ => ?_
      refine (prolonged_readCall more word words).bind ?_
      rintro ⟨expression, rest⟩ _
      exact .ok _

theorem prolonged_stepRaw (mnemonic : Mnemonic) :
    Prolonged (·.followedBy more) (stepRaw context word mnemonic words)
      (stepRaw context word mnemonic (words ++ more)) := by
  refine (prolonged_requireFunction context word).bind fun _ _ => ?_
  refine (prolonged_readOperands more _ _ words).bind ?_
  rintro ⟨operands, rest⟩ _
  exact .ok _

theorem prolonged_step :
    Prolonged (·.followedBy more) (step context word words)
      (step context word (words ++ more)) := by
  unfold step Context.misplaced
  cases context.awaiting with
  | some header =>
      by_cases opener : word.text = Keyword.openBlock.word
      · simp only [opener, Keyword.ofWord?_word]
        exact prolonged_stepKeyword context word words more .openBlock
      · simp only [if_neg opener]
        exact .error word _
  | none =>
      dsimp only
      cases Keyword.ofWord? word.text with
      | some keyword => exact prolonged_stepKeyword context word words more keyword
      | none =>
          cases Mnemonic.ofWord? word.text with
          | some mnemonic => exact prolonged_stepRaw context word words more mnemonic
          | none => exact .error word _

end Steps

/-- A statement is read in the same way whatever follows it. -/
theorem step_append {context : Context} {word : Word} {words : List Word} {result : Step}
    (read : step context word words = .ok result) (more : List Word) :
    step context word (words ++ more) = .ok (result.followedBy more) := by
  have prolonged := prolonged_step context word words more
  rw [read] at prolonged
  generalize step context word (words ++ more) = longer at prolonged ⊢
  cases prolonged with
  | ok => rfl

theorem run_of_step {context : Context} {word : Word} {words : List Word} {result : Step}
    (read : step context word words = .ok result) :
    run context (word :: words) =
      (run result.context result.rest).map (result.expression :: ·) := by
  rw [run_cons, read]
  change (run result.context result.rest >>= _) = _
  cases run result.context result.rest <;> rfl

theorem run_of_failed {context : Context} {word : Word} {words : List Word} {fault : Fault}
    (failed : step context word words = .error fault) :
    run context (word :: words) = .error fault := by
  rw [run_cons, failed]
  rfl

/-! Runs. -/

/-- All words are read, statement by statement, and the context behind them is reached. -/
inductive Reaches : Context → List Word → List Expression → Context → Prop where
  | here {context : Context} : Reaches context [] [] context
  | step {context after : Context} {word : Word} {words : List Word} {result : Step}
      {expressions : List Expression} :
      step context word words = .ok result → Reaches result.context result.rest expressions after →
      Reaches context (word :: words) (result.expression :: expressions) after

theorem Reaches.regular {context after : Context} {words : List Word}
    {expressions : List Expression} (reaches : Reaches context words expressions after)
    (regular : context.Regular) : after.Regular := by
  induction reaches with
  | here => exact regular
  | step read _ ih => exact ih (regular_of_step regular read)

/-- Words behind words that are all read are read from the context that was reached. -/
theorem Reaches.run_append {context after : Context} {words : List Word}
    {expressions : List Expression} (reaches : Reaches context words expressions after)
    (more : List Word) :
    run context (words ++ more) = (run after more).map (expressions ++ ·) := by
  induction reaches with
  | here =>
      rw [List.nil_append]
      cases run _ more <;> rfl
  | step read _ ih =>
      rw [List.cons_append, run_of_step (step_append read more), Step.followedBy, ih]
      cases run _ more <;> rfl

theorem Reaches.run_eq {context after : Context} {words : List Word} {expressions : List Expression}
    (reaches : Reaches context words expressions after) :
    run context words = (run after []).map (expressions ++ ·) := by
  have whole := reaches.run_append []
  rwa [List.append_nil] at whole

/-- How a run over words can end, with what that says about more words behind them. -/
inductive Ending (context : Context) (words : List Word) : Prop where
  | reached (expressions : List Expression) (after : Context) :
      Reaches context words expressions after → Ending context words
  | stopped (fault : Fault) :
      fault.site ≠ .endOfInput → (∀ more, run context (words ++ more) = .error fault) →
        Ending context words
  | cutOff (fault : Fault) :
      fault.violation.IsCutOff → run context words = .error fault → Ending context words

theorem ending (context : Context) (words : List Word) : Ending context words := by
  -- A statement may take many words, so the induction is on their number.
  induction size : words.length using Nat.strongRecOn generalizing context words with
  | ind count ih =>
      subst size
      cases words with
      | nil => exact .reached [] context .here
      | cons word words =>
          cases read : step context word words with
          | error fault =>
              by_cases cut : fault.violation.IsCutOff
              · exact .cutOff fault cut (run_of_failed read)
              · have final (more : List Word) :=
                  (read ▸ prolonged_step context word words more).final cut
                exact .stopped fault (final []).2 fun more => run_of_failed (final more).1
          | ok result =>
              have shorter : result.rest.length < (word :: words).length :=
                Nat.lt_succ_of_le (suffix_of_step read).length_le
              have longer (more : List Word) :
                  run context (word :: words ++ more) =
                    (run result.context (result.rest ++ more)).map (result.expression :: ·) :=
                run_of_step (step_append read more)
              cases ih _ shorter result.context result.rest rfl with
              | reached expressions after reaches => exact .reached _ after (.step read reaches)
              | stopped fault atWord fails =>
                  refine .stopped fault atWord fun more => ?_
                  rw [longer, fails]
                  rfl
              | cutOff fault cut failed =>
                  refine .cutOff fault cut ?_
                  rw [run_of_step read, failed]
                  rfl

theorem Reaches.finish_of_run {context after : Context} {words : List Word}
    {expressions : List Expression} (reaches : Reaches context words expressions after)
    {fault : Fault} (failed : run context words = .error fault) :
    after.finish = .error fault := by
  rw [reaches.run_eq, run_nil] at failed
  cases finished : after.finish with
  | ok =>
      rw [finished] at failed
      cases failed
  | error other =>
      rw [finished] at failed
      cases failed
      rfl

/-- Behind accepted words nothing is left: no block is open, no header waits, and the pass is
in no function. The end of the words is not checked for the last of these. -/
theorem Reaches.of_accepted {after : Context} {words : List Word}
    {expressions accepted : List Expression} (reaches : Reaches .start words expressions after)
    (ran : run .start words = .ok accepted) :
    after = .start ∧ expressions = accepted := by
  rw [reaches.run_eq] at ran
  cases behind : run after [] with
  | error fault =>
      rw [behind] at ran
      cases ran
  | ok none =>
      obtain ⟨closed, ready, rfl⟩ := run_nil_eq_ok.mp behind
      have between := (reaches.regular (Context.regular_between 0)).eq_between ready
      rw [closed] at between
      rw [behind] at ran
      cases ran
      exact ⟨between, (List.append_nil expressions).symm⟩

theorem reaches_of_run {words : List Word} {accepted : List Expression}
    (ran : run .start words = .ok accepted) : Reaches .start words accepted .start := by
  cases ending .start words with
  | reached expressions after reaches =>
      obtain ⟨rfl, rfl⟩ := reaches.of_accepted ran
      exact reaches
  | stopped fault _ fails =>
      have failed := fails []
      rw [List.append_nil, ran] at failed
      cases failed
  | cutOff fault _ failed =>
      rw [ran] at failed
      cases failed

theorem Context.finish_eq_error {context : Context} {fault : Fault}
    (failed : context.finish = .error fault) :
    (∃ keyword found, fault = .atEnd (.missingOpener keyword found)) ∨
      context.awaiting = none ∧ 0 < context.depth ∧
      fault = .atEnd (.unbalancedBlocks context.depth) := by
  unfold finish at failed
  cases awaiting : context.awaiting with
  | some header =>
      rw [awaiting] at failed
      cases failed
      exact Or.inl ⟨_, _, rfl⟩
  | none =>
      simp only [awaiting] at failed
      split at failed
      · cases failed
      · rename_i opened
        cases failed
        exact Or.inr ⟨rfl, Nat.pos_of_ne_zero opened, rfl⟩

/-- A fault that the end of the input does not cause is found whatever follows. -/
theorem run_failed_append {context : Context} {words : List Word} {fault : Fault}
    (failed : run context words = .error fault) (own : ¬ fault.IsCausedByEnd) (more : List Word) :
    run context (words ++ more) = .error fault := by
  cases ending context words with
  | reached expressions after reaches =>
      rcases Context.finish_eq_error (reaches.finish_of_run failed) with
        ⟨keyword, found, rfl⟩ | ⟨_, _, rfl⟩
      · exact absurd rfl own
      · exact absurd trivial own
  | stopped other _ fails =>
      have same := fails []
      rw [List.append_nil, failed] at same
      cases same
      exact fails more
  | cutOff other cut same =>
      rw [failed] at same
      cases same
      exact absurd (Fault.isCausedByEnd_of_isCutOff cut) own

end Analysis

namespace Source

theorem analyzeWords_eq_error {source : Source} {words : List Word} {error : CompileError} :
    source.analyzeWords words = .error error ↔
      ∃ fault, Analysis.run .start words = .error fault ∧
        error = .analysis fault.violation (fault.position source.file source.text) := by
  unfold analyzeWords SourceUnit.ofWords Analysis.expressions
  cases Analysis.run .start words with
  | ok expressions => simp [bind, Except.bind]
  | error fault => simp [bind, Except.bind, eq_comm]

/-- The first violation is final: unless the end of the input causes it, it is the violation of
the words with any words behind them too, and it is shown at the same position. -/
theorem first_violation_final {words : List Word} {fault : Fault}
    (failed : SourceUnit.ofWords words = .error fault) (own : ¬ fault.IsCausedByEnd)
    (source : Source) (more : List Word) :
    let error := CompileError.analysis fault.violation (fault.position source.file source.text)
    source.analyzeWords words = .error error ∧
      source.analyzeWords (words ++ more) = .error error := by
  have ran : Analysis.run .start words = .error fault := by
    unfold SourceUnit.ofWords Analysis.expressions at failed
    cases outcome : Analysis.run .start words with
    | ok expressions =>
        rw [outcome] at failed
        cases failed
    | error other =>
        rw [outcome] at failed
        cases failed
        rfl
  exact ⟨analyzeWords_eq_error.mpr ⟨fault, ran, rfl⟩,
    analyzeWords_eq_error.mpr ⟨fault, Analysis.run_failed_append ran own more, rfl⟩⟩

/-- A bad parameter, which is looked at only when the opener behind it has been found. More
words bring another opener and a worse parameter. -/
theorem first_violation_final_parameter :
    let source : Source := ⟨"f.tinka", "cersva f 1x y rinyv"⟩
    let more : List Word := [⟨"2x", 20⟩, ⟨"rinyv", 23⟩, ⟨"situv", 29⟩]
    SourceUnit.ofWords (Word.ofSource source.text) = .error ⟨.invalidParameter "1x", .word 9⟩ ∧
      source.analyzeWords (Word.ofSource source.text ++ more) =
        .error (.analysis (.invalidParameter "1x") ⟨"f.tinka", 1, 10, "cersva f 1x y rinyv"⟩) := by
  intro source more
  have failed : SourceUnit.ofWords (Word.ofSource source.text) =
      .error ⟨.invalidParameter "1x", .word 9⟩ := by
    decide +kernel
  have position : Fault.position ⟨.invalidParameter "1x", .word 9⟩ source.file source.text =
      ⟨"f.tinka", 1, 10, "cersva f 1x y rinyv"⟩ := by decide +kernel
  obtain ⟨_, longer⟩ := first_violation_final failed id source more
  rw [position] at longer
  exact ⟨failed, longer⟩

end Source
end TinkaCompiler
