import Mathlib.Algebra.GroupWithZero.Nat
import Mathlib.Data.List.Basic
import TinkaCompiler.Proofs.Labels

/-! Lines of the target's text.

A line is a word for what it does and its operands, with single spaces between them. An
instruction prints as such a line if its literals are numbers and the name that it
carries is a word. Any other name breaks its line. -/

set_option autoImplicit false

namespace TinkaCompiler

namespace Text

def pieces (separator : Char) (text : String) : List String :=
  (text.toList.splitOn separator).map String.ofList

/-- The lines of a text. A line feed at the end starts no further line. -/
def lines (text : String) : List String :=
  if (pieces '\n' text).getLast? = some "" then (pieces '\n' text).dropLast else pieces '\n' text

def Solid (text : String) : Prop :=
  text ≠ "" ∧ ∀ c ∈ text.toList, isBlank c = false

def Number (text : String) : Prop :=
  text ≠ "" ∧ text.toList.all Char.isDigit

theorem length_pieces (separator : Char) (text : String) :
    (pieces separator text).length = text.toList.count separator + 1 := by
  rw [pieces, List.length_map]
  induction text.toList with
  | nil => rfl
  | cons c rest ih =>
      rw [List.splitOn_cons_eq_if_modifyHead, List.count_cons]
      by_cases same : c = separator
      · simp [same, ih]
      · simp [same, ih]

theorem pieces_append (separator : Char) (first second : String) :
    pieces separator (first ++ String.singleton separator ++ second) =
      pieces separator first ++ pieces separator second := by
  have joined : (first ++ String.singleton separator ++ second).toList =
      first.toList ++ separator :: second.toList := by
    simp
  rw [pieces, joined, List.splitOn_append_cons_self, List.map_append]
  rfl

theorem pieces_of_not_mem {separator : Char} {text : String} (absent : separator ∉ text.toList) :
    pieces separator text = [text] := by
  rw [pieces, List.splitOn_eq_singleton absent, List.map_singleton, String.ofList_toList]

theorem Solid.not_mem {text : String} (solid : Solid text) {blank : Char}
    (isBlank : isBlank blank) :
    blank ∉ text.toList := by
  intro member
  rw [solid.2 blank member] at isBlank
  cases isBlank

theorem pieces_intercalate {separator : Char} {texts : List String} (some : texts ≠ [])
    (absent : ∀ text ∈ texts, separator ∉ text.toList) :
    pieces separator ((String.singleton separator).intercalate texts) = texts := by
  rw [pieces, String.toList_intercalate, String.toList_singleton, List.splitOn_intercalate]
  · simp
  · simpa using absent
  · simpa using some

theorem not_mem_intercalate {c separator : Char} (other : c ≠ separator) {texts : List String}
    (absent : ∀ text ∈ texts, c ∉ text.toList) :
    c ∉ ((String.singleton separator).intercalate texts).toList := by
  induction texts with
  | nil => simp
  | cons first rest ih =>
      obtain ⟨start, others⟩ := List.forall_mem_cons.mp absent
      cases rest with
      | nil =>
          rw [String.intercalate_singleton]
          exact start
      | cons second more =>
          rw [String.intercalate_cons_cons, String.toList_append, String.toList_append,
            String.toList_singleton]
          simp only [List.mem_append, List.mem_singleton, not_or]
          exact ⟨⟨start, other⟩, ih others⟩

theorem eq_of_pieces {separator : Char} {text piece : String}
    (single : pieces separator text = [piece]) :
    text = piece := by
  have length := length_pieces separator text
  rw [single, List.length_singleton] at length
  have absent : separator ∉ text.toList := List.count_eq_zero.mp (by omega)
  rw [pieces_of_not_mem absent] at single
  exact List.singleton_inj.mp single

-- Decided along the text: a search through all characters would not end.
instance (text : String) : Decidable (Solid text) :=
  decidable_of_iff (text ≠ "" ∧ text.toList.all fun c => !isBlank c) (by simp [Solid])

theorem isBlank_of_isDigit {c : Char} (digit : c.isDigit) : isBlank c = false := by
  simp only [Char.isDigit, Bool.and_eq_true, decide_eq_true_eq, ge_iff_le,
    UInt32.le_iff_toNat_le] at digit
  have least : 48 ≤ c.toNat := digit.1
  have greatest : c.toNat ≤ 57 := digit.2
  simp only [isBlank, blankRanges, List.any_cons, List.any_nil, Bool.or_eq_false_iff,
    Bool.and_eq_false_iff, decide_eq_false_iff_not, and_true]
  omega

theorem Number.solid {text : String} (number : Number text) : Solid text :=
  ⟨number.1, fun c member => isBlank_of_isDigit (List.all_eq_true.mp number.2 c member)⟩

theorem number_toString (value : Nat) : Number (toString value) := by
  constructor
  · simp
  · rw [Nat.toString_eq_ofList_toDigits, String.toList_ofList, List.all_eq_true]
    exact fun c member => Nat.isDigit_of_mem_toDigits (by decide) (by decide) member

theorem Solid.append {first second : String} (start : Solid first) (rest : Solid second) :
    Solid (first ++ second) := by
  refine ⟨fun none => start.1 (String.append_eq_empty_iff.mp none).1, ?_⟩
  rw [String.toList_append, List.forall_mem_append]
  exact ⟨start.2, rest.2⟩

end Text

/-! Shapes of lines. -/

open Text (Solid Number pieces)

inductive Place.Shape : String → Prop where
  | number {text : String} : Number text → Shape text
  | register (held : Register) : Shape held.render
  | top : Shape "f5@"
  | cell {offset : String} : Number offset → Shape ("f5+" ++ offset ++ "@")
  | indexed (held : Register) : Shape ("f5+" ++ held.render ++ "@")

/-- Lines of the target language, cut at their spaces. -/
inductive Instruction.Shape : List String → Prop where
  | exportLabel {label : String} : Solid label → Shape ["kue", label]
  | importLabel {label : String} : Solid label → Shape ["xok", label]
  | define {label : String} : Solid label → Shape ["nll", label]
  | reserve {bytes : String} : Number bytes → Shape ["nta", bytes, "f5"]
  | add {amount : String} (target : Register) : Number amount → Shape ["ata", amount, target.render]
  | shiftLeft {amount : String} (target : Register) :
      Number amount → Shape ["dro", amount, target.render]
  | move {source target : String} :
      Place.Shape source → Place.Shape target → Shape ["krz", source, target]
  | compare {right : String} (comparison : Comparison) :
      Place.Shape right → Shape ["fi", "f1", right, comparison.word]
  | jumpIf {label : String} : Solid label → Shape ["malkrz", label, "xx"]
  | jump {label : String} : Solid label → Shape ["krz", label, "xx"]
  | call {function : String} : Solid function → Shape ["inj", function, "xx", "f5@"]
  | raw (mnemonic : Mnemonic) {operands : List String} :
      operands.length = mnemonic.arity → (∀ operand ∈ operands, Place.Shape operand) →
      Shape (mnemonic.word :: operands)

def IsLine (line : String) : Prop :=
  Instruction.Shape (pieces ' ' line)

theorem Register.solid_render (held : Register) : Solid held.render := by
  cases held <;> decide

theorem Place.Shape.solid {text : String} (shape : Place.Shape text) : Solid text := by
  cases shape with
  | number number => exact number.solid
  | register held => exact held.solid_render
  | top => decide
  | @cell offset number =>
      have front : Solid ("f5+" ++ offset) := Solid.append (by decide) number.solid
      exact front.append (by decide)
  | indexed held =>
      have front : Solid ("f5+" ++ held.render) := Solid.append (by decide) held.solid_render
      exact front.append (by decide)

namespace Instruction

theorem Shape.solid {tokens : List String} (shape : Shape tokens) :
    ∀ token ∈ tokens, Solid token := by
  have marks : Solid "xx" ∧ Solid "f1" ∧ Solid "f5" ∧ Solid "f5@" := by decide
  cases shape with
  | exportLabel label => simp [label, show Solid "kue" by decide]
  | importLabel label => simp [label, show Solid "xok" by decide]
  | define label => simp [label, show Solid "nll" by decide]
  | reserve bytes => simp [bytes.solid, marks, show Solid "nta" by decide]
  | add target amount => simp [amount.solid, target.solid_render, show Solid "ata" by decide]
  | shiftLeft target amount => simp [amount.solid, target.solid_render, show Solid "dro" by decide]
  | move source target => simp [source.solid, target.solid, show Solid "krz" by decide]
  | compare comparison right =>
      have word : Solid comparison.word := by cases comparison <;> decide
      simp [right.solid, word, marks, show Solid "fi" by decide]
  | jumpIf label => simp [label, marks, show Solid "malkrz" by decide]
  | jump label => simp [label, marks, show Solid "krz" by decide]
  | call function => simp [function, marks, show Solid "inj" by decide]
  | raw mnemonic _ operands =>
      rw [List.forall_mem_cons]
      exact ⟨by cases mnemonic <;> decide, fun operand member => (operands operand member).solid⟩

def tokens : Instruction → List String
  | .exportLabel label => ["kue", label]
  | .importLabel label => ["xok", label]
  | .define label => ["nll", label.render]
  | .reserve bytes => ["nta", toString bytes, "f5"]
  | .release bytes => ["ata", toString bytes, "f5"]
  | .move source target => ["krz", source.render, target.render]
  | .add amount target => ["ata", toString amount, target.render]
  | .shiftLeft amount target => ["dro", toString amount, target.render]
  | .compare right comparison => ["fi", "f1", right.render, comparison.word]
  | .jumpIf label => ["malkrz", label.render, "xx"]
  | .jump label => ["krz", label.render, "xx"]
  | .jumpBack => ["krz", "f5@", "xx"]
  | .call function => ["inj", function, "xx", "f5@"]
  | .raw mnemonic operands => mnemonic.word :: operands.map Place.render

/-- The name that an instruction carries, if it was not made by the lowering. -/
def name? : Instruction → Option String
  | .exportLabel label | .importLabel label => some label
  | .define (.named name) => some name
  | .call function => some function
  | _ => none

end Instruction

def Place.Formed : Place → Prop
  | .literal text => Number text
  | _ => True

@[simp]
theorem Place.formed_register (held : Register) : (Place.register held).Formed :=
  trivial

@[simp]
theorem Place.formed_top : Place.top.Formed :=
  trivial

@[simp]
theorem Place.formed_cell (offset : Nat) : (Place.cell offset).Formed :=
  trivial

/-- An instruction whose operands are those of its kind, whatever its name. -/
def Instruction.Formed : Instruction → Prop
  | .move source target => source.Formed ∧ target.Formed
  | .compare right _ => right.Formed
  | .jump label | .jumpIf label => Solid label.render
  | .raw mnemonic operands => operands.length = mnemonic.arity ∧ ∀ operand ∈ operands,
      operand.Formed
  | _ => True

theorem Place.Formed.shape {place : Place} (formed : place.Formed) : Place.Shape place.render := by
  cases place with
  | literal text => exact .number formed
  | register held => exact .register held
  | top => exact .top
  | cell offset => exact .cell (Text.number_toString offset)
  | indexed held => exact .indexed held

theorem Label.solid_of_isGenerated {label : Label} (generated : label.isGenerated) :
    Solid label.render := by
  have digits (number : Nat) := (Text.number_toString number).solid
  cases label with
  | named name => cases generated
  | branchEnd number => exact Solid.append (by decide) (digits number)
  | loopHead number => exact Solid.append (by decide) (digits number)
  | loopExit number => exact Solid.append (by decide) (digits number)
  | functionExit ordinal => exact Solid.append (by decide) (digits ordinal)

namespace Instruction

variable {instruction : Instruction}

theorem render_eq_intercalate (formed : instruction.Formed) :
    instruction.render = " ".intercalate instruction.tokens := by
  cases instruction with
  | raw mnemonic operands =>
      cases operands with
      | nil =>
          have count := formed.1
          cases mnemonic <;> cases count
      | cons operand rest => rw [render, tokens, List.map_cons, String.intercalate_cons_cons]
  | _ =>
      apply String.toList_injective
      simp [render, tokens]

theorem Formed.shape (formed : instruction.Formed)
    (named : ∀ name ∈ instruction.name?, Solid name) :
    Shape instruction.tokens := by
  cases instruction with
  | exportLabel label => exact .exportLabel (named label rfl)
  | importLabel label => exact .importLabel (named label rfl)
  | define label =>
      apply Shape.define
      cases label with
      | named name => exact named name rfl
      | _ => exact Label.solid_of_isGenerated rfl
  | reserve bytes => exact .reserve (Text.number_toString bytes)
  | release bytes => exact .add .f5 (Text.number_toString bytes)
  | move source target => exact .move formed.1.shape formed.2.shape
  | add amount target => exact .add target (Text.number_toString amount)
  | shiftLeft amount target => exact .shiftLeft target (Text.number_toString amount)
  | compare right comparison => exact .compare comparison (Place.Formed.shape formed)
  | jumpIf label => exact .jumpIf formed
  | jump label => exact .jump formed
  | jumpBack => exact .move .top (.register .xx)
  | call function => exact .call (named function rfl)
  | raw mnemonic operands =>
      refine .raw mnemonic (by rw [List.length_map, formed.1]) ?_
      rw [List.forall_mem_map]
      exact fun operand member => (formed.2 operand member).shape

theorem tokens_ne_nil : instruction.tokens ≠ [] := by
  cases instruction <;> exact List.cons_ne_nil _ _

theorem isLine_render (formed : instruction.Formed)
    (named : ∀ name ∈ instruction.name?, Solid name) :
    IsLine instruction.render := by
  have shape := formed.shape named
  have cut : pieces ' ' (" ".intercalate instruction.tokens) = instruction.tokens :=
    Text.pieces_intercalate tokens_ne_nil fun token member =>
      (shape.solid token member).not_mem (by decide)
  rw [IsLine, render_eq_intercalate formed, cut]
  exact shape

theorem not_mem_lineFeed (formed : instruction.Formed)
    (named : ∀ name ∈ instruction.name?, Solid name) :
    '\n' ∉ instruction.render.toList := by
  have absent : ∀ token ∈ instruction.tokens, '\n' ∉ token.toList :=
    fun token member => ((formed.shape named).solid token member).not_mem (by decide)
  have other : '\n' ≠ ' ' := by decide
  rw [render_eq_intercalate formed]
  exact Text.not_mem_intercalate other absent

/-! What breaks a line. -/

theorem Shape.label {keyword : String} {rest : List String} (shape : Shape (keyword :: rest))
    (labelled : keyword = "kue" ∨ keyword = "xok" ∨ keyword = "nll") :
    ∃ label, rest = [label] ∧ Solid label := by
  cases shape with
  | exportLabel solid => exact ⟨_, rfl, solid⟩
  | importLabel solid => exact ⟨_, rfl, solid⟩
  | define solid => exact ⟨_, rfl, solid⟩
  | raw mnemonic => cases mnemonic <;> exact absurd labelled (by decide)
  | _ => exact absurd labelled (by decide)

theorem Shape.function {rest : List String} (shape : Shape ("inj" :: rest)) :
    ∃ function, rest = [function, "xx", "f5@"] ∧ Solid function := by
  generalize keyword : "inj" = first at shape
  cases shape with
  | call solid => exact ⟨_, rfl, solid⟩
  | raw mnemonic => cases mnemonic <;> exact absurd keyword (by decide)
  | _ => exact absurd keyword (by decide)

theorem solid_of_isLine_label {keyword label : String}
    (labelled : keyword = "kue" ∨ keyword = "xok" ∨ keyword = "nll")
    (isLine : IsLine (keyword ++ " " ++ label)) : Solid label := by
  have whole : ' ' ∉ keyword.toList := by
    rcases labelled with rfl | rfl | rfl <;> decide
  have cut : pieces ' ' (keyword ++ " " ++ label) = keyword :: pieces ' ' label := by
    rw [show " " = String.singleton ' ' from rfl, Text.pieces_append, Text.pieces_of_not_mem whole]
    rfl
  rw [IsLine, cut] at isLine
  obtain ⟨piece, single, solid⟩ := isLine.label labelled
  rw [Text.eq_of_pieces single]
  exact solid

theorem solid_of_isLine_call {function : String}
    (isLine : IsLine ("inj" ++ " " ++ (function ++ " " ++ "xx f5@"))) :
    Solid function := by
  have cut : pieces ' ' ("inj" ++ " " ++ (function ++ " " ++ "xx f5@")) =
      "inj" :: (pieces ' ' function ++ ["xx", "f5@"]) := by
    rw [show " " = String.singleton ' ' from rfl, Text.pieces_append, Text.pieces_append]
    rfl
  rw [IsLine, cut] at isLine
  obtain ⟨piece, split, solid⟩ := isLine.function
  have single : pieces ' ' function = [piece] :=
    List.append_cancel_right (show pieces ' ' function ++ ["xx", "f5@"] =
      [piece] ++ ["xx", "f5@"] from split)
  rw [Text.eq_of_pieces single]
  exact solid

/-- A name that holds a blank, or nothing, breaks its line. -/
theorem solid_of_isLine {name : String} (carried : instruction.name? = some name)
    (isLine : IsLine instruction.render) :
    Solid name := by
  cases instruction with
  | exportLabel label =>
      cases carried
      have same : (Instruction.exportLabel name).render = "kue" ++ " " ++ name :=
        String.toList_injective (by simp [render])
      exact solid_of_isLine_label (by simp) (same ▸ isLine)
  | importLabel label =>
      cases carried
      have same : (Instruction.importLabel name).render = "xok" ++ " " ++ name :=
        String.toList_injective (by simp [render])
      exact solid_of_isLine_label (by simp) (same ▸ isLine)
  | define label =>
      cases label with
      | named label =>
          cases carried
          have same : (Instruction.define (.named name)).render = "nll" ++ " " ++ name :=
            String.toList_injective (by simp [render, Label.render])
          exact solid_of_isLine_label (by simp) (same ▸ isLine)
      | _ => cases carried
  | call function =>
      cases carried
      have same : (Instruction.call name).render = "inj" ++ " " ++ (name ++ " " ++ "xx f5@") :=
        String.toList_injective (by simp [render])
      exact solid_of_isLine_call (same ▸ isLine)
  | _ => cases carried

theorem count_lineFeed_render (formed : instruction.Formed) :
    instruction.render.toList.count '\n' =
      (instruction.name?.toList.map (·.toList.count '\n')).sum := by
  cases carried : instruction.name? with
  | none => exact List.count_eq_zero.mpr (not_mem_lineFeed formed (by simp [carried]))
  | some name =>
      cases instruction with
      | define label => cases label <;> cases carried; simp [render, Label.render]
      | exportLabel label => cases carried; simp [render]
      | importLabel label => cases carried; simp [render]
      | call function => cases carried; simp [render]
      | _ => cases carried

end Instruction

/-! Listings. -/

namespace Instruction

theorem lines_listing (code : List Instruction) :
    Text.lines (listing code) = code.flatMap fun instruction => pieces '\n' instruction.render := by
  have cut : pieces '\n' (listing code) =
      (code.flatMap fun instruction => pieces '\n' instruction.render) ++ [""] := by
    induction code with
    | nil => rfl
    | cons instruction rest ih =>
        rw [listing, List.map_cons, String.join_cons, show "\n" = String.singleton '\n' from rfl,
          Text.pieces_append]
        rw [List.flatMap_cons, List.append_assoc, ← ih]
        rfl
  rw [Text.lines, cut, if_pos (by simp), List.dropLast_concat]

variable {code : List Instruction} (formed : ∀ instruction ∈ code, instruction.Formed)

include formed

theorem length_lines_listing :
    (Text.lines (listing code)).length =
      code.length + ((code.filterMap name?).map (·.toList.count '\n')).sum := by
  rw [lines_listing]
  induction code with
  | nil => rfl
  | cons instruction rest ih =>
      obtain ⟨first, others⟩ := List.forall_mem_cons.mp formed
      have feeds := count_lineFeed_render first
      rw [List.flatMap_cons, List.length_append, ih others, Text.length_pieces, feeds,
        List.length_cons]
      cases carried : instruction.name? with
      | none =>
          rw [List.filterMap_cons_none carried]
          simp only [Option.toList_none, List.map_nil, List.sum_nil]
          omega
      | some name =>
          rw [List.filterMap_cons_some carried, List.map_cons, List.sum_cons]
          simp only [Option.toList_some, List.map_singleton, List.sum_singleton]
          omega

theorem lines_listing_of_solid (solid : ∀ name ∈ code.filterMap name?, Solid name) :
    Text.lines (listing code) = code.map render := by
  rw [lines_listing, List.map_eq_flatMap]
  apply List.flatMap_congr
  intro instruction member
  apply Text.pieces_of_not_mem
  apply not_mem_lineFeed (formed instruction member)
  exact fun name carried => solid name (List.mem_filterMap.mpr ⟨instruction, member, carried⟩)

/-- Every line of a listing holds one instruction exactly if all names are words. -/
theorem isLine_listing_iff :
    ((Text.lines (listing code)).length = code.length ∧
        ∀ line ∈ Text.lines (listing code), IsLine line) ↔
      ∀ name ∈ code.filterMap name?, Solid name := by
  constructor
  · rintro ⟨count, each⟩ name member
    obtain ⟨instruction, known, carried⟩ := List.mem_filterMap.mp member
    -- There is no line feed to spare, so the line of this instruction is not cut.
    have spare : ((code.filterMap name?).map (·.toList.count '\n')).sum = 0 := by
      have total := length_lines_listing formed
      omega
    rw [List.sum_eq_zero_iff_forall_eq_nat, List.forall_mem_map] at spare
    have absent : '\n' ∉ instruction.render.toList := by
      rw [← List.count_eq_zero, count_lineFeed_render (formed instruction known), carried]
      exact spare name member
    apply solid_of_isLine carried
    apply each
    rw [lines_listing, List.mem_flatMap]
    exact ⟨instruction, known,
      by rw [Text.pieces_of_not_mem absent]; exact List.mem_singleton_self _⟩
  · intro solid
    rw [lines_listing_of_solid formed solid, List.length_map, List.forall_mem_map]
    refine ⟨rfl, fun instruction member =>
      isLine_render (formed instruction member) fun name carried => ?_⟩
    exact solid name (List.mem_filterMap.mpr ⟨instruction, member, carried⟩)

end Instruction
end TinkaCompiler
