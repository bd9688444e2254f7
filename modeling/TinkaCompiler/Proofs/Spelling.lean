import TinkaCompiler.Proofs.Reading
import TinkaCompiler.Proofs.WordReaders

/-! What words spell wherever they stand.

The reading of a word depends on its text alone. So words that are moved spell the same
outline, and words one after the other spell outlines one after the other. -/

set_option autoImplicit false

namespace TinkaCompiler

section Placing

variable {place : Word → Word} (keeps : ∀ word, (place word).text = word.text)

include keeps

theorem Word.mapM_place {α : Type} {reader : Word → Except Fault α} (judges : JudgesTexts reader)
    {words : List Word} {values : List α} (read : words.mapM reader = .ok values) :
    (words.map place).mapM reader = .ok values := by
  induction words generalizing values with
  | nil => exact read
  | cons word rest ih =>
      rw [List.mapM_cons] at read
      obtain ⟨value, first, read⟩ := Statement.bind_eq_ok.mp read
      obtain ⟨others, behind, read⟩ := Statement.bind_eq_ok.mp read
      rw [List.map_cons, List.mapM_cons]
      refine Statement.bind_eq_ok.mpr ⟨value, judges.ok_of_text (keeps word) first, ?_⟩
      exact Statement.bind_eq_ok.mpr ⟨others, ih behind, read⟩

theorem Word.forall_mem_place {stop : String} {words : List Word}
    (absent : ∀ word ∈ words, word.text ≠ stop) :
    ∀ word ∈ words.map place, word.text ≠ stop := by
  rw [List.forall_mem_map]
  intro word member
  rw [keeps word]
  exact absent word member

theorem Test.Spelled.placed {words : List Word} {test : Test} (spelled : Test.Spelled words test) :
    Test.Spelled (words.map place) test := by
  cases spelled with
  | words left comparison right =>
      refine .words (Word.judges_operand.ok_of_text (keeps _) left) ?_
        (Word.judges_operand.ok_of_text (keeps _) right)
      rw [keeps]
      exact comparison

theorem Leaf.Spelled.placed {words : List Word} {leaf : Leaf} (spelled : Leaf.Spelled words leaf) :
    Leaf.Spelled (words.map place) leaf := by
  cases spelled with
  | declare keyword declared =>
      exact .declare ((keeps _).trans keyword)
        (Word.judges_declaration.ok_of_text (keeps _) declared)
  | call keyword name noStop arguments stop target =>
      simp only [List.map_append, List.map_cons, List.map_nil, List.cons_append]
      exact .call ((keeps _).trans keyword) (Word.judges_functionName.ok_of_text (keeps _) name)
        (Word.forall_mem_place keeps noStop) (Word.mapM_place keeps Word.judges_operand arguments)
        ((keeps _).trans stop) (Word.judges_destination.ok_of_text (keeps _) target)
  | raw keyword length operands =>
      refine .raw ?_ (by rw [List.length_map, length])
        (Word.mapM_place keeps Word.judges_operand operands)
      rw [keeps]
      exact keyword

theorem Body.Spelled.placed {words : List Word} {body : Body} (spelled : Body.Spelled words body) :
    Body.Spelled (words.map place) body := by
  induction spelled with
  | done => exact .done
  | act leaf _ ih =>
      rw [List.map_append]
      exact .act (leaf.placed keeps) ih
  | leave keyword value _ ih =>
      exact .leave ((keeps _).trans keyword) (Word.judges_operand.ok_of_text (keeps _) value) ih
  | branch keyword test opener _ closer _ innerIh ih =>
      simp only [List.map_append, List.map_cons, List.cons_append]
      exact .branch ((keeps _).trans keyword) (test.placed keeps) ((keeps _).trans opener) innerIh
        ((keeps _).trans closer) ih
  | loop keyword test opener _ closer _ innerIh ih =>
      simp only [List.map_append, List.map_cons, List.cons_append]
      exact .loop ((keeps _).trans keyword) (test.placed keeps) ((keeps _).trans opener) innerIh
        ((keeps _).trans closer) ih

theorem Outline.Spelled.placed {words : List Word} {outline : Outline}
    (spelled : Outline.Spelled words outline) :
    Outline.Spelled (words.map place) outline := by
  induction spelled with
  | done => exact .done
  | @exportLabel keyword label more rest named _ ih =>
      rw [← keeps label]
      exact .exportLabel ((keeps _).trans named) ih
  | @importLabel keyword label more rest named _ ih =>
      rw [← keeps label]
      exact .importLabel ((keeps _).trans named) ih
  | function keyword name notReserved noOpener parameters opener body closer _ ih =>
      simp only [List.map_append, List.map_cons, List.cons_append]
      exact .function ((keeps _).trans keyword) (Word.judges_functionName.ok_of_text (keeps _) name)
        notReserved (Word.forall_mem_place keeps noOpener)
        (Word.mapM_place keeps Word.judges_parameter parameters)
        ((keeps _).trans opener) (body.placed keeps) ((keeps _).trans closer) ih

end Placing

theorem Outline.Spelled.append {first second : List Word} {outline others : Outline}
    (spelled : Outline.Spelled first outline) (behind : Outline.Spelled second others) :
    Outline.Spelled (first ++ second) (outline ++ others) := by
  induction spelled with
  | done => exact behind
  | exportLabel keyword _ ih => exact .exportLabel keyword ih
  | importLabel keyword _ ih => exact .importLabel keyword ih
  | function keyword name notReserved noOpener parameters opener body closer _ ih =>
      simp only [List.append_assoc, List.cons_append]
      have whole := Outline.Spelled.function keyword name notReserved noOpener parameters
        opener body closer ih
      simpa only [List.append_assoc, List.cons_append] using whole

end TinkaCompiler
