import TinkaCompiler.Proofs.Grammar
import TinkaCompiler.Proofs.Scanning
import TinkaCompiler.Proofs.WordReaders

/-! Where faults are shown.

A fault is shown at the word that its violation names, also where words behind that one
have been read already, or at the end of the input where a word is missing. Since words
stand where the scan has found them, the source at the shown offset begins with the word. -/

set_option autoImplicit false

namespace TinkaCompiler

namespace Violation

def IsAtEnd : Violation → Prop
  | .unexpectedEnd _ | .unbalancedBlocks _ => True
  | .missingOpener _ found => found = Word.describe none
  | _ => False

end Violation

/-- The fault is at one of some words, the one that it names, or at their end. -/
inductive Fault.Points (words : List Word) : Fault → Prop where
  | atWord {word : Word} {violation : Violation} :
      word ∈ words → violation.subject? = some word.text → Points words (.atWord word violation)
  | atEnd {violation : Violation} : violation.IsAtEnd → Points words (.atEnd violation)

def Locates {α : Type} (words : List Word) (outcome : Except Fault α) : Prop :=
  ∀ fault, outcome = .error fault → fault.Points words

section Outcomes

variable {α β : Type} {words : List Word}

theorem locates_ok (value : α) : Locates words (.ok value) := by
  intro fault failed
  cases failed

theorem locates_atWord {word : Word} {violation : Violation} (member : word ∈ words)
    (named : violation.subject? = some word.text) :
    Locates words (.error (.atWord word violation) : Except Fault α) := by
  intro fault failed
  cases failed
  exact .atWord member named

theorem locates_atEnd {violation : Violation} (ended : violation.IsAtEnd) :
    Locates words (.error (.atEnd violation) : Except Fault α) := by
  intro fault failed
  cases failed
  exact .atEnd ended

theorem Locates.bind {first : Except Fault α} {after : α → Except Fault β}
    (before : Locates words first)
    (behind : ∀ value, first = .ok value → Locates words (after value)) :
    Locates words (first >>= after) := by
  cases first with
  | error fault =>
      intro other failed
      cases failed
      exact before fault rfl
  | ok value => exact behind value rfl

theorem Locates.mono {more : List Word} {outcome : Except Fault α} (locates : Locates words outcome)
    (among : words ⊆ more) : Locates more outcome := by
  intro fault failed
  cases locates fault failed with
  | atWord member named => exact .atWord (among member) named
  | atEnd ended => exact .atEnd ended

theorem locates_mapM {reader : Word → Except Fault α} {taken : List Word}
    (each : ∀ word ∈ taken, Locates words (reader word)) : Locates words (taken.mapM reader) := by
  induction taken with
  | nil => exact locates_ok []
  | cons word rest ih =>
      obtain ⟨first, others⟩ := List.forall_mem_cons.mp each
      rw [List.mapM_cons]
      refine first.bind fun value _ => ?_
      exact (ih others).bind fun values _ => locates_ok (value :: values)

end Outcomes

/-! Readers. -/

theorem JudgesTexts.locates {α : Type} {reader : Word → Except Fault α}
    (judges : JudgesTexts reader) {words : List Word} {word : Word} (member : word ∈ words) :
    Locates words (reader word) := by
  cases judges word.text with
  | accepted value always =>
      rw [always word.offset]
      exact locates_ok value
  | refused violation named never =>
      rw [never word.offset]
      exact locates_atWord member named

namespace Statement

variable {known words : List Word}

theorem locates_next (keyword : String) : Locates known (next keyword words) := by
  cases words with
  | nil => exact locates_atEnd trivial
  | cons word rest => exact locates_ok _

theorem locates_upTo {keyword : Word} (member : keyword ∈ known) (terminator : String) :
    Locates known (upTo keyword terminator words) := by
  unfold upTo
  split
  · exact locates_atWord member rfl
  · exact locates_ok _

variable (among : words ⊆ known)

include among

theorem locates_readCondition (keyword : String) : Locates known (readCondition keyword words) := by
  unfold readCondition
  split
  · rename_i left comparison right rest
    have leftMember : left ∈ known := among (by simp)
    have comparisonMember : comparison ∈ known := among (by simp)
    have rightMember : right ∈ known := among (by simp)
    split
    · exact locates_atWord comparisonMember rfl
    · refine (Word.judges_operand.locates leftMember).bind fun _ _ => ?_
      exact (Word.judges_operand.locates rightMember).bind fun _ _ => locates_ok _
  · exact locates_atEnd trivial

theorem locates_readOperands (keyword : String) (count : Nat) :
    Locates known (readOperands keyword count words) := by
  induction count generalizing words with
  | zero => exact locates_ok _
  | succ count ih =>
      refine (locates_next keyword).bind fun ⟨word, rest⟩ taken => ?_
      obtain rfl := next_eq_ok.mp taken
      obtain ⟨member, behind⟩ := List.cons_subset.mp among
      refine (Word.judges_operand.locates member).bind fun _ _ => ?_
      exact (ih behind).bind fun _ _ => locates_ok _

theorem locates_readFunction {keyword : Word} (member : keyword ∈ known) :
    Locates known (readFunction keyword words) := by
  refine (locates_next keyword.text).bind fun ⟨word, rest⟩ taken => ?_
  obtain rfl := next_eq_ok.mp taken
  obtain ⟨nameMember, behind⟩ := List.cons_subset.mp among
  refine (Word.judges_functionName.locates nameMember).bind fun name named => ?_
  obtain ⟨rfl, _⟩ := Word.functionName_eq_ok.mp named
  split
  · exact locates_atWord nameMember rfl
  · refine (locates_upTo member _).bind fun ⟨parameterWords, fromOpener⟩ found => ?_
    obtain rfl := append_of_upTo found
    obtain ⟨parameters, _⟩ := List.append_subset.mp behind
    exact (locates_mapM fun word inside => Word.judges_parameter.locates (parameters inside)).bind
      fun _ _ => locates_ok _

theorem locates_readCall {keyword : Word} (member : keyword ∈ known) :
    Locates known (readCall keyword words) := by
  refine (locates_next keyword.text).bind fun ⟨word, rest⟩ taken => ?_
  obtain rfl := next_eq_ok.mp taken
  obtain ⟨nameMember, behind⟩ := List.cons_subset.mp among
  refine (Word.judges_functionName.locates nameMember).bind fun name _ => ?_
  refine (locates_upTo member _).bind fun ⟨argumentWords, fromStop⟩ found => ?_
  obtain rfl := append_of_upTo found
  obtain ⟨arguments, afterStop⟩ := List.append_subset.mp behind
  refine (locates_mapM fun word inside => Word.judges_operand.locates (arguments inside)).bind
    fun _ _ => ?_
  refine (locates_next _).bind fun ⟨target, left⟩ targetTaken => ?_
  -- The destination stands right behind the word that ends the arguments.
  have targetMember : target ∈ fromStop.tail := by
    rw [next_eq_ok.mp targetTaken]
    exact List.mem_cons_self
  exact (Word.judges_destination.locates (afterStop (List.mem_of_mem_tail targetMember))).bind
    fun _ _ => locates_ok _

end Statement

/-! Statements. -/

namespace Analysis

variable {known : List Word} {context : Context} {word : Word}

theorem locates_requireFunction (member : word ∈ known) :
    Locates known (context.requireFunction word) := by
  unfold Context.requireFunction
  split
  · exact locates_atWord member rfl
  · exact locates_ok _

theorem locates_forbidFunction (member : word ∈ known) :
    Locates known (context.forbidFunction word) := by
  unfold Context.forbidFunction
  split
  · exact locates_atWord member rfl
  · exact locates_ok _

theorem locates_finish : Locates known context.finish := by
  unfold Context.finish
  split
  · exact locates_atEnd rfl
  · split
    · exact locates_ok _
    · exact locates_atEnd trivial

theorem locates_stepKeyword {words : List Word} (member : word ∈ known) (among : words ⊆ known)
    {keyword : Keyword} (named : word.text = keyword.word) :
    Locates known (stepKeyword context word keyword words) := by
  cases keyword with
  | exportLabel | importLabel =>
      refine (locates_forbidFunction member).bind fun _ _ => ?_
      exact (Statement.locates_next _).bind fun _ _ => locates_ok _
  | declare =>
      refine (locates_requireFunction member).bind fun _ _ => ?_
      refine (Statement.locates_next _).bind fun ⟨declared, rest⟩ taken => ?_
      obtain rfl := Statement.next_eq_ok.mp taken
      exact (Word.judges_declaration.locates (among List.mem_cons_self)).bind fun _ _ =>
        locates_ok _
  | branch | loop =>
      refine (locates_requireFunction member).bind fun _ _ => ?_
      exact (Statement.locates_readCondition among _).bind fun _ _ => locates_ok _
  | openBlock | closeBlock =>
      simp only [stepKeyword]
      split
      · exact locates_atWord member (congrArg some named.symm)
      · exact locates_ok _
  | function =>
      refine (locates_forbidFunction member).bind fun _ _ => ?_
      exact (Statement.locates_readFunction among member).bind fun _ _ => locates_ok _
  | returnValue =>
      refine (locates_requireFunction member).bind fun _ _ => ?_
      refine (Statement.locates_next _).bind fun ⟨value, rest⟩ taken => ?_
      obtain rfl := Statement.next_eq_ok.mp taken
      exact (Word.judges_operand.locates (among List.mem_cons_self)).bind fun _ _ => locates_ok _
  | call =>
      refine (locates_requireFunction member).bind fun _ _ => ?_
      exact (Statement.locates_readCall among member).bind fun _ _ => locates_ok _

theorem locates_step {words : List Word} : Locates (word :: words) (step context word words) := by
  have member : word ∈ word :: words := List.mem_cons_self
  have among : words ⊆ word :: words := List.subset_cons_self word words
  unfold step Context.misplaced
  cases context.awaiting with
  | some header =>
      by_cases opener : word.text = Keyword.openBlock.word
      · simp only [if_pos opener, Keyword.ofWord?_eq_some_iff.mpr opener]
        exact locates_stepKeyword member among opener
      · simp only [if_neg opener]
        exact locates_atWord member rfl
  | none =>
      dsimp only
      split
      · rename_i keyword found
        exact locates_stepKeyword member among (Keyword.ofWord?_eq_some_iff.mp found)
      · split
        · refine (locates_requireFunction member).bind fun _ _ => ?_
          exact (Statement.locates_readOperands among _ _).bind fun _ _ => locates_ok _
        · exact locates_atWord member rfl

/-- The first fault of a run over words points at one of them or at their end. -/
theorem locates_run (context : Context) (words : List Word) :
    Locates words (run context words) := by
  induction size : words.length using Nat.strongRecOn generalizing context words with
  | ind count ih =>
      subst size
      cases words with
      | nil =>
          rw [run]
          exact locates_finish.bind fun _ _ => locates_ok []
      | cons word words =>
          rw [run_cons]
          refine locates_step.bind fun result read => ?_
          have left := suffix_of_step read
          have shorter : result.rest.length < (word :: words).length :=
            Nat.lt_succ_of_le left.length_le
          have behind := ih _ shorter result.context result.rest rfl
          have among : result.rest ⊆ word :: words := fun other member =>
            List.mem_cons_of_mem word (left.subset member)
          exact (behind.mono among).bind fun expressions _ =>
            locates_ok (result.expression :: expressions)

end Analysis

namespace Source

/-- A source that is not accepted is refused for one violation. It is shown at the end of
the source, if the source ends too early, or else at a word of the source: the one that
the violation names, which is what the source says at that offset. -/
theorem diagnostic_at_named_word {source : Source} {error : CompileError}
    (failed : source.analyze = .error error) :
    ∃ violation offset, error = .analysis violation (.ofOffset source.file source.text offset) ∧
      (violation.IsAtEnd ∧ offset = source.text.utf8ByteSize ∨
        ∃ word ∈ Word.ofSource source.text,
          word.offset = offset ∧ violation.subject? = some word.text ∧
          ∃ before after,
            source.text = before ++ word.text ++ after ∧ before.utf8ByteSize = offset) := by
  unfold analyze analyzeWords SourceUnit.ofWords Analysis.expressions at failed
  have located := Analysis.locates_run .start (Word.ofSource source.text)
  cases ran : Analysis.run .start (Word.ofSource source.text) with
  | ok expressions =>
      rw [ran] at failed
      cases failed
  | error fault =>
      rw [ran] at failed
      cases failed
      refine ⟨fault.violation, fault.offset source.text, rfl, ?_⟩
      cases located fault ran with
      | atEnd ended => exact Or.inl ⟨ended, rfl⟩
      | @atWord word _ member named =>
          exact Or.inr ⟨word, member, rfl, named, Word.exists_split_of_mem_ofSource member⟩

/-- A comparison that does not exist, behind a comment and letters of two bytes. The fault is
found only when the word behind the comparison has been taken. -/
theorem diagnostic_at_unknown_comparison :
    let source : Source := ⟨"a.tinka", "-- ä\ncersva f ä-1 rinyv\n  fi ä-1 cl 7 rinyv"⟩
    let position : Position := ⟨"a.tinka", 3, 10, "  fi ä-1 cl 7 rinyv"⟩
    source.analyze = .error (.analysis (.unknownComparison "fi" "ä-1" "cl" "7") position) ∧
      ∃ word ∈ Word.ofSource source.text, word.text = "cl" ∧
        position = .ofOffset source.file source.text word.offset ∧
        ∃ before after, source.text = before ++ "cl" ++ after ∧
          before.utf8ByteSize = word.offset := by
  intro source position
  have failed : source.analyze =
      .error (.analysis (.unknownComparison "fi" "ä-1" "cl" "7") position) := by
    decide +kernel
  obtain ⟨violation, offset, same, located⟩ := diagnostic_at_named_word failed
  obtain ⟨rfl, placed⟩ := CompileError.analysis.inj same
  rcases located with ⟨ended, _⟩ | ⟨word, member, rfl, named, split⟩
  · exact ended.elim
  · obtain named : "cl" = word.text := Option.some.inj named
    rw [← named] at split
    exact ⟨failed, word, member, named.symm, placed, split⟩

end Source
end TinkaCompiler
