import TinkaCompiler.Proofs.Grammar

/-! Operands and their words.

A word is read as an operand piece by piece: the separators cut it, and every piece must have
characters. The word that an operand is written with leaves a position of zero out. It is read
as the same operand again, unless the name in front of that position is a number, since a
number without a position is a constant. -/

set_option autoImplicit false

namespace TinkaCompiler

namespace Operand

def pieces (word : String) : List (List Char) :=
  word.toList.splitOn '@'

/-- The operand that pieces stand for. Each piece but the last names a variable, moved by what
the pieces behind it stand for. A word has at least one piece. -/
def chain : List (List Char) → Operand
  | [] => zero
  | [last] => if last.all Char.isDigit then .constant (String.ofList last)
      else .variable (String.ofList last) zero
  | name :: position => .variable (String.ofList name) (chain position)

/-- Whether a variable in the operand, or in one of its positions, has a number for its name
and stands at position zero. -/
def hasNumberAtZero : Operand → Bool
  | .variable name position => (name.toList.all Char.isDigit && position = zero) ||
      position.hasNumberAtZero
  | .constant _ | .function _ => false

theorem chain_cons (name : List Char) {position : List (List Char)} (some : position ≠ []) :
    chain (name :: position) = .variable (String.ofList name) (chain position) := by
  cases position with
  | nil => exact absurd rfl some
  | cons first rest => rfl

theorem ofLast?_eq_some_iff (piece : List Char) (operand : Operand) :
    ofLast? piece = some operand ↔ piece ≠ [] ∧ operand = chain [piece] := by
  unfold ofLast?
  by_cases empty : piece = []
  · simp [empty]
  · rw [if_neg empty, chain]
    split
    · simp [empty, eq_comm]
    · simp [empty, eq_comm]

theorem modifyHead_nil_append (pieces : List (List Char)) : pieces.modifyHead ([] ++ ·) = pieces :=
  congrFun List.modifyHead_id pieces

/-- What has been read of a name belongs to the first of the pieces to come. -/
theorem readFrom?_eq_some_iff (piece text : List Char) (operand : Operand) :
    readFrom? piece text = some operand ↔
      (∀ name ∈ (text.splitOn '@').modifyHead (piece ++ ·), name ≠ []) ∧
        operand = chain ((text.splitOn '@').modifyHead (piece ++ ·)) := by
  induction text generalizing piece operand with
  | nil =>
      rw [List.splitOn_nil, List.modifyHead_cons, List.append_nil, List.forall_mem_singleton]
      exact ofLast?_eq_some_iff piece operand
  | cons c rest ih =>
      rw [readFrom?, List.splitOn_cons_eq_if_modifyHead]
      by_cases separator : c = '@'
      · rw [if_pos separator, if_pos (beq_iff_eq.mpr separator), List.modifyHead_cons,
          List.append_nil, List.forall_mem_cons, chain_cons piece (List.splitOn_ne_nil '@' rest)]
        by_cases empty : piece = []
        · simp [empty]
        · have behind (position : Operand) :
              readFrom? [] rest = some position ↔
                (∀ name ∈ rest.splitOn '@', name ≠ []) ∧ position = chain (rest.splitOn '@') := by
            have first := ih [] position
            rwa [modifyHead_nil_append] at first
          rw [if_neg empty, Option.map_eq_some_iff]
          constructor
          · rintro ⟨position, read, rfl⟩
            obtain ⟨some, rfl⟩ := (behind position).mp read
            exact ⟨⟨empty, some⟩, rfl⟩
          · rintro ⟨⟨_, some⟩, rfl⟩
            exact ⟨_, (behind _).mpr ⟨some, rfl⟩, rfl⟩
      · have joined : ((rest.splitOn '@').modifyHead (List.cons c)).modifyHead (piece ++ ·) =
            (rest.splitOn '@').modifyHead (piece ++ [c] ++ ·) := by
          rw [List.modifyHead_modifyHead]
          congr 1
          funext name
          simp
        rw [if_neg separator, if_neg (by simpa using separator), joined]
        exact ih (piece ++ [c]) operand

theorem read?_eq_some_iff (word : String) (operand : Operand) :
    read? word = some operand ↔ (∀ piece ∈ pieces word, piece ≠ []) ∧
      operand = chain (pieces word) := by
  have read := readFrom?_eq_some_iff [] word.toList operand
  rwa [modifyHead_nil_append] at read

/-! Writing. -/

theorem read?_render_iff {operand : Operand} (writable : operand.Writable) :
    read? operand.render = some operand ↔ operand.hasNumberAtZero = false := by
  induction operand with
  | constant text =>
      have read := readFrom?_spelling writable
      exact iff_of_true read rfl
  | «variable» name position ih =>
      obtain ⟨named, whole, writable⟩ := writable
      have characters : name.toList ≠ [] := by simpa using named
      rw [render, hasNumberAtZero, Bool.or_eq_false_iff]
      -- Where the position is left out, the name alone decides what its word is read as.
      by_cases atZero : position = zero
      · subst atZero
        rw [if_pos rfl, read?_of_whole whole, ofLast?, if_neg characters, String.ofList_toList]
        cases name.toList.all Char.isDigit <;> simp [hasNumberAtZero, zero]
      · rw [if_neg atZero, read?_separated named whole, Option.map_eq_some_iff]
        simp [atZero, ih writable]
  | function name => cases writable

/-- A word is an operand exactly if every piece of it has characters, and then the one that its
pieces stand for. The operand's own word is read as the same operand, except exactly if a
variable in it has a number for its name and stands at position zero. -/
theorem word_read_and_rendered (word : String) :
    (∀ operand, read? word = some operand ↔ (∀ piece ∈ pieces word, piece ≠ []) ∧
      operand = chain (pieces word)) ∧
      ∀ operand, read? word = some operand →
        (read? operand.render = some operand ↔ operand.hasNumberAtZero = false) := by
  refine ⟨read?_eq_some_iff word, fun operand read => read?_render_iff ?_⟩
  exact writable_of_readFrom? List.not_mem_nil read

/-- The innermost position is a number that is moved by zero. Its word without the zero is a
constant. -/
theorem word_read_number_at_zero :
    let operand : Operand := .variable "x" (.variable "5" zero)
    read? "x@5@0" = some operand ∧ operand.render = "x@5" ∧
      read? operand.render ≠ some operand := by
  intro operand
  have cut : pieces "x@5@0" = [['x'], ['5'], ['0']] := by decide
  obtain ⟨reads, rendered⟩ := word_read_and_rendered "x@5@0"
  have read : read? "x@5@0" = some operand := by
    rw [reads, cut]
    decide
  refine ⟨read, by decide, fun again => ?_⟩
  exact absurd ((rendered operand read).mp again) (by decide)

end Operand
end TinkaCompiler
