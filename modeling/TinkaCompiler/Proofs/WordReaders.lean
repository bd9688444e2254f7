import TinkaCompiler.Analysis.Statement

/-! Readers of single words.

A reader of a word looks at nothing but the text of the word. It accepts a text wherever the
word stands, or refuses it wherever the word stands, and then for a violation that names the
word and is shown at it. Everything else about these readers follows from that. -/

set_option autoImplicit false

namespace TinkaCompiler

def Violation.subject? : Violation → Option String
  | .outsideFunction keyword | .insideFunction keyword
  | .missingTerminator keyword _ => some keyword
  | .badFunctionName name | .reservedName name => some name
  | .unknownComparison _ _ comparison _ => some comparison
  | .notAVariable word | .invalidOperand word | .invalidLength word | .invalidParameter word
  | .unknownWord word =>
    some word
  | .missingOpener _ found => some found
  | .unexpectedOpener => some Keyword.openBlock.word
  | .unmatchedCloser => some Keyword.closeBlock.word
  | .unexpectedEnd _ | .unbalancedBlocks _ => none

inductive Judgement {α : Type} (reader : Word → Except Fault α) (text : String) : Prop where
  | accepted (value : α) : (∀ offset, reader ⟨text, offset⟩ = .ok value) → Judgement reader text
  | refused (violation : Violation) :
      violation.subject? = some text →
      (∀ offset, reader ⟨text, offset⟩ = .error (.atWord ⟨text, offset⟩ violation)) →
      Judgement reader text

def JudgesTexts {α : Type} (reader : Word → Except Fault α) : Prop :=
  ∀ text, Judgement reader text

namespace Word

theorem judges_operand : JudgesTexts operand := by
  intro text
  cases read : Operand.read? text with
  | some value => exact .accepted value fun offset => by simp only [operand, read]
  | none => exact .refused (.invalidOperand text) rfl fun offset => by simp only [operand, read]

theorem judges_functionName : JudgesTexts functionName := by
  intro text
  by_cases numbered : startsWithDigit text.toList
  · exact .refused (.badFunctionName text) rfl fun offset => if_pos numbered
  · exact .accepted text fun offset => if_neg numbered

theorem judges_parameter : JudgesTexts parameter := by
  intro text
  cases marked : pointerMark text.toList with
  | mk name pointer =>
      by_cases bad : name = [] ∨ startsWithDigit name ∨ '@' ∈ name
      · exact .refused (.invalidParameter text) rfl fun offset => by
          simp only [parameter, marked, if_pos bad]
      · exact .accepted ⟨String.ofList name, pointer⟩ fun offset => by
          simp only [parameter, marked, if_neg bad]

theorem judges_declaration : JudgesTexts declaration := by
  intro text
  cases divided : text.toList.dropWhile (· != '@') with
  | nil => exact .accepted (.declare text false 1) fun offset => by simp only [declaration, divided]
  | cons mark digits =>
      cases read : Text.Decimal.readBelow? lengthLimit digits with
      | none =>
          exact .refused (.invalidLength text) rfl fun offset => by
            simp only [declaration, divided, read]
      | some length =>
          by_cases fine : 0 < length ∧ text.toList.takeWhile (· != '@') ≠ []
          · refine .accepted (.declare (String.ofList (text.toList.takeWhile (· != '@'))) true
              length) fun offset => ?_
            simp only [declaration, divided, read, if_pos fine]
          · refine .refused (.invalidLength text) rfl fun offset => ?_
            simp only [declaration, divided, read, if_neg fine]

theorem judges_destination : JudgesTexts Statement.destination := by
  intro text
  by_cases discarded : text = Keyword.discard
  · exact .accepted .discard fun offset => if_pos discarded
  · have kept (offset : Nat) : Statement.destination ⟨text, offset⟩ = _ := if_neg discarded
    cases judges_operand text with
    | refused violation named read =>
        exact .refused violation named fun offset => by rw [kept, read]; rfl
    | accepted operand read =>
        cases operand with
        | «variable» name position =>
            exact .accepted (.variable name position) fun offset => by rw [kept, read]; rfl
        | constant _ =>
            exact .refused (.notAVariable text) rfl fun offset => by rw [kept, read]; rfl
        | function _ =>
            exact .refused (.notAVariable text) rfl fun offset => by rw [kept, read]; rfl

end Word

theorem JudgesTexts.ok_of_text {α : Type} {reader : Word → Except Fault α}
    (judges : JudgesTexts reader) {word other : Word} {value : α} (same : other.text = word.text)
    (read : reader word = .ok value) :
    reader other = .ok value := by
  obtain ⟨text, offset⟩ := word
  obtain ⟨_, place⟩ := other
  cases same
  cases judges text with
  | accepted _ always => rw [always place, ← always offset, read]
  | refused _ _ never =>
      rw [never offset] at read
      cases read

end TinkaCompiler
