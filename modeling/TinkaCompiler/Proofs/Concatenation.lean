import TinkaCompiler.Proofs.Grammar
import TinkaCompiler.Proofs.LabelTables
import TinkaCompiler.Proofs.Prolonging

/-! Words behind accepted words.

When all words are accepted nothing is left open, so words that come behind them are
analyzed as if they stood alone. -/

set_option autoImplicit false

namespace TinkaCompiler

theorem Analysis.run_append {first : List Word} {accepted : List Expression}
    (ran : run .start first = .ok accepted) (second : List Word) :
    run .start (first ++ second) = (run .start second).map (accepted ++ ·) :=
  (reaches_of_run ran).run_append second

namespace SourceUnit

def append (first second : SourceUnit) : SourceUnit :=
  ⟨first.expressions ++ second.expressions⟩

theorem labels_append (first second : SourceUnit) :
    (first.append second).labels = first.labels.merge second.labels := by
  apply LabelTable.eq_of_get?
  intro label
  rw [LabelTable.get?_merge, get?_labels, get?_labels, get?_labels, ← Visibility.named_append,
    ← List.filterMap_append]
  rfl

theorem hasEntryPoint_append (first second : SourceUnit) :
    (first.append second).hasEntryPoint = (first.hasEntryPoint || second.hasEntryPoint) :=
  List.any_append

end SourceUnit

namespace Source

variable {source : Source} {first : List Word} {unit : SourceUnit}

theorem analyzeWords_append (accepted : source.analyzeWords first = .ok unit) (second : List Word) :
    source.analyzeWords (first ++ second) = (source.analyzeWords second).map unit.append := by
  have ran := Analysis.run_append (analyzeWords_eq_ok.mp accepted) second
  unfold analyzeWords SourceUnit.ofWords Analysis.expressions
  rw [ran]
  cases Analysis.run .start second <;> rfl

/-- Behind words that are accepted, words fail as they fail alone, with the same violation
at the same position. If they are accepted too, the unit of all words has the expressions
of both, the labels of both and the entry point of either. -/
theorem analyze_behind_accepted (accepted : source.analyzeWords first = .ok unit)
    (second : List Word) :
    (∀ error, source.analyzeWords (first ++ second) = .error error ↔
      source.analyzeWords second = .error error) ∧
      ∀ behind, source.analyzeWords second = .ok behind →
        ∃ whole, source.analyzeWords (first ++ second) = .ok whole ∧
          whole.expressions = unit.expressions ++ behind.expressions ∧
          whole.labels = unit.labels.merge behind.labels ∧
          whole.hasEntryPoint = (unit.hasEntryPoint || behind.hasEntryPoint) := by
  rw [analyzeWords_append accepted second]
  constructor
  · intro error
    cases source.analyzeWords second with
    | ok behind => simp [Except.map]
    | error other => simp [Except.map]
  · intro behind analyzed
    refine ⟨unit.append behind, ?_, rfl, unit.labels_append behind,
      unit.hasEntryPoint_append behind⟩
    rw [analyzed]
    rfl

/-- The second words import a label that the first export, and define the entry point. The
third words are an opener that no header waits for. -/
theorem analyze_behind_accepted_block :
    let source : Source := ⟨"f.tinka", "kue f cersva f x rinyv fal x clo 1 rinyv situv situv"⟩
    let second : List Word :=
      [⟨"xok", 60⟩, ⟨"f", 64⟩, ⟨"cersva", 66⟩, ⟨"_fasal", 73⟩, ⟨"rinyv", 80⟩, ⟨"situv", 86⟩]
    let third : List Word := [⟨"rinyv", 6⟩]
    (∃ whole, source.analyzeWords (Word.ofSource source.text ++ second) = .ok whole ∧
        whole.expressions.length = 11 ∧ whole.labels.entries = [("f", .exported)] ∧
        whole.hasEntryPoint = true) ∧
      source.analyzeWords (Word.ofSource source.text ++ third) =
        .error (.analysis .unexpectedOpener ⟨"f.tinka", 1, 7, source.text⟩) := by
  intro source second third
  let unit : SourceUnit := ⟨[.exportLabel "f", .function "f" [⟨"x", false⟩], .openBlock 1,
    .loop ⟨.variable "x" .zero, .niv, .constant "1"⟩, .openBlock 2, .closeBlock 2, .closeBlock 1]⟩
  have accepted : source.analyzeWords (Word.ofSource source.text) = .ok unit := by decide +kernel
  have analyzed : source.analyzeWords second =
      .ok ⟨[.importLabel "f", .function "_fasal" [], .openBlock 1, .closeBlock 1]⟩ := by
        decide +kernel
  have failed : source.analyzeWords third =
      .error (.analysis .unexpectedOpener ⟨"f.tinka", 1, 7, source.text⟩) := by
    decide +kernel
  obtain ⟨_, both⟩ := analyze_behind_accepted accepted second
  obtain ⟨errors, _⟩ := analyze_behind_accepted accepted third
  obtain ⟨whole, together, expressions, labels, entry⟩ := both _ analyzed
  refine ⟨⟨whole, together, ?_, ?_, ?_⟩, (errors _).mpr failed⟩
  · rw [expressions]
    rfl
  · rw [labels]
    decide +kernel
  · rw [entry]
    decide +kernel

end Source
end TinkaCompiler
