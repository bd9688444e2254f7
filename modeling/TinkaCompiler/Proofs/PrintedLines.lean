import TinkaCompiler.Proofs.CallingConvention
import TinkaCompiler.Proofs.Grammar
import TinkaCompiler.Proofs.LineShapes
import TinkaCompiler.Proofs.Linking
import TinkaCompiler.Proofs.Scanning
import TinkaCompiler.Proofs.Stages

/-! Which programs print one instruction to a line.

All that a program prints is made of numbers, registers and fixed words, except for the
names of functions and labels. A name is a word of a source, and a word may hold a blank
behind a single hyphen. Such a name stands in the text as it is, and only such a name can
break a line. -/

set_option autoImplicit false

namespace TinkaCompiler

namespace Instruction

def Nameless (instruction : Instruction) : Prop :=
  instruction.Formed ∧ instruction.name? = none

@[simp]
theorem nameless_reserve (bytes : Nat) : (reserve bytes).Nameless :=
  ⟨trivial, rfl⟩

@[simp]
theorem nameless_release (bytes : Nat) : (release bytes).Nameless :=
  ⟨trivial, rfl⟩

@[simp]
theorem nameless_add (amount : Nat) (target : Register) : (add amount target).Nameless :=
  ⟨trivial, rfl⟩

@[simp]
theorem nameless_shiftLeft (amount : Nat) (target : Register) :
    (shiftLeft amount target).Nameless :=
  ⟨trivial, rfl⟩

@[simp]
theorem nameless_jumpBack : jumpBack.Nameless :=
  ⟨trivial, rfl⟩

@[simp]
theorem nameless_move {source target : Place} :
    (move source target).Nameless ↔ source.Formed ∧ target.Formed :=
  ⟨fun nameless => nameless.1, fun formed => ⟨formed, rfl⟩⟩

@[simp]
theorem nameless_compare {right : Place} {comparison : Comparison} :
    (compare right comparison).Nameless ↔ right.Formed :=
  ⟨fun nameless => nameless.1, fun formed => ⟨formed, rfl⟩⟩

theorem nameless_define {label : Label} (generated : label.isGenerated) :
    (define label).Nameless := by
  cases label with
  | named name => cases generated
  | _ => exact ⟨trivial, rfl⟩

theorem nameless_jump {label : Label} (generated : label.isGenerated) : (jump label).Nameless :=
  ⟨Label.solid_of_isGenerated generated, rfl⟩

theorem nameless_jumpIf {label : Label} (generated : label.isGenerated) : (jumpIf label).Nameless :=
  ⟨Label.solid_of_isGenerated generated, rfl⟩

theorem nameless_releaseCells (cells : Nat) :
    ∀ instruction ∈ releaseCells cells, instruction.Nameless := by
  unfold releaseCells
  split <;> simp

theorem nameless_reserveCells (cells : Nat) :
    ∀ instruction ∈ reserveCells cells, instruction.Nameless := by
  unfold reserveCells
  split <;> simp

theorem names_of_nameless {code : List Instruction}
    (nameless : ∀ instruction ∈ code, instruction.Nameless) :
    code.filterMap name? = [] :=
  List.filterMap_eq_nil_iff.mpr fun instruction member => (nameless instruction member).2

end Instruction

namespace Emission

variable {α β : Type}

structure Yields (emission : Emission α) (result : α → Prop) : Prop where
  nameless : ∀ instruction ∈ emission.code, instruction.Nameless
  result : ∀ value, emission.outcome = .ok value → result value

theorem yields_pure {value : α} {result : α → Prop} (holds : result value) :
    (pure value : Emission α).Yields result :=
  ⟨List.forall_mem_nil _, fun _ success => Except.ok.inj success ▸ holds⟩

theorem yields_emit {code : List Instruction}
    (nameless : ∀ instruction ∈ code, instruction.Nameless) :
    (emit code).Yields fun _ => True :=
  ⟨nameless, fun _ _ => trivial⟩

theorem yields_ofExcept {outcome : Except GenerationError α} {result : α → Prop}
    (holds : ∀ value, outcome = .ok value → result value) : (ofExcept outcome).Yields result :=
  ⟨List.forall_mem_nil _, holds⟩

theorem Yields.bind {first : Emission α} {after : α → Emission β} {middle : α → Prop}
    {result : β → Prop} (start : first.Yields middle)
    (rest : ∀ value, middle value → (after value).Yields result) :
    (first >>= after).Yields result := by
  rw [bind_eq_follow]
  cases outcome : first.outcome with
  | error error =>
      rw [follow_of_error outcome]
      exact ⟨start.nameless, fun _ success => nomatch success⟩
  | ok value =>
      have next := rest value (start.result value outcome)
      rw [follow_of_ok outcome]
      exact ⟨List.forall_mem_append.mpr ⟨start.nameless, next.nameless⟩, next.result⟩

end Emission

namespace Frame

open Emission

variable (frame : Frame)

theorem Resolves.formed {frame : Frame} {pushed : Nat} {scratch : Register} {operand : Operand}
    {resolved : Resolved} (resolves : Resolves frame pushed scratch operand resolved)
    (writable : operand.Writable) :
    resolved.place.Formed ∧ ∀ instruction ∈ resolved.prelude, instruction.Nameless := by
  induction resolves with
  | constant text => exact ⟨writable, List.forall_mem_nil _⟩
  | static => exact ⟨trivial, List.forall_mem_nil _⟩
  | dynamic _ _ _ _ ih =>
      obtain ⟨place, prelude⟩ := ih writable.2.2
      refine ⟨trivial, List.forall_mem_append.mpr ⟨prelude, ?_⟩⟩
      simp [place]

theorem yields_resolve (pushed : Nat) (scratch : Register) {operand : Operand}
    (writable : operand.Writable) :
    (ofExcept (frame.resolve pushed scratch operand)).Yields fun resolved =>
      resolved.place.Formed ∧ ∀ instruction ∈ resolved.prelude, instruction.Nameless :=
  yields_ofExcept fun _ success => (resolves_of_resolve success).formed writable

theorem yields_load (pushed : Nat) (scratch : Register) {operand : Operand}
    (writable : operand.Writable) :
    (frame.load pushed scratch operand).Yields Place.Formed := by
  unfold load
  refine (frame.yields_resolve pushed scratch writable).bind fun resolved formed => ?_
  exact (yields_emit formed.2).bind fun _ _ => yields_pure formed.1

theorem yields_push (pushed : Nat) {operand : Operand} (writable : operand.Writable) :
    (frame.push pushed operand).Yields fun _ => True := by
  unfold push
  refine (frame.yields_resolve pushed .f0 writable).bind fun resolved formed => yields_emit ?_
  rw [List.forall_mem_append, List.forall_mem_append]
  exact ⟨⟨by simp, formed.2⟩, by simp [formed.1]⟩

theorem yields_compare {condition : Condition} (left : condition.left.Writable)
    (right : condition.right.Writable) :
    (frame.compare condition).Yields fun _ => True := by
  unfold compare
  refine (frame.yields_load 0 .f0 left).bind fun leftPlace leftFormed => ?_
  refine (yields_emit (by simp [leftFormed])).bind fun _ _ => ?_
  refine (frame.yields_load 0 .f0 right).bind fun rightPlace rightFormed => ?_
  exact yields_emit (by simp [rightFormed])

theorem yields_pushArguments (pushed : Nat) {arguments : List Operand}
    (writable : ∀ argument ∈ arguments, argument.Writable) :
    (frame.pushArguments pushed arguments).Yields fun _ => True := by
  induction arguments generalizing pushed with
  | nil => exact yields_pure trivial
  | cons argument rest ih =>
      obtain ⟨first, others⟩ := List.forall_mem_cons.mp writable
      rw [pushArguments]
      exact (frame.yields_push (pushed + 1) first).bind fun _ _ => ih (pushed + 1) others

theorem yields_store {destination : Destination} (writable : destination.Writable) :
    (frame.store destination).Yields fun _ => True := by
  cases destination with
  | discard => exact yields_pure trivial
  | «variable» name position =>
      rw [store]
      exact (frame.yields_load 0 .f1 writable).bind fun target formed =>
        yields_emit (by simp [formed])

theorem map_fst_assignCells (first : Nat) (operands : List Operand) :
    (assignCells first operands).map (·.1) = operands := by
  induction operands generalizing first with
  | nil => rfl
  | cons operand rest ih =>
      rw [assignCells]
      split <;> rw [List.map_cons, ih]

section Raw

variable {assigned : List (Operand × Option Nat)} (writable : ∀ pair ∈ assigned, pair.1.Writable)

include writable

theorem yields_spill : (frame.spill assigned).Yields fun _ => True := by
  induction assigned with
  | nil => exact yields_pure trivial
  | cons first rest ih =>
      obtain ⟨here, others⟩ := List.forall_mem_cons.mp writable
      obtain ⟨operand, _ | number⟩ := first
      · exact ih others
      · rw [spill]
        exact (frame.yields_push number here).bind fun _ _ => ih others

theorem yields_loadAll (spilled : Nat) :
    (frame.loadAll spilled assigned).Yields fun places =>
      places.length = assigned.length ∧ ∀ place ∈ places, place.Formed := by
  induction assigned with
  | nil => exact yields_pure ⟨rfl, List.forall_mem_nil _⟩
  | cons first rest ih =>
      obtain ⟨here, others⟩ := List.forall_mem_cons.mp writable
      obtain ⟨operand, _ | number⟩ := first
      · rw [loadAll]
        refine (frame.yields_load spilled .f0 here).bind fun place formed => ?_
        refine (ih others).bind fun places all => yields_pure ?_
        exact ⟨congrArg (· + 1) all.1, List.forall_mem_cons.mpr ⟨formed, all.2⟩⟩
      · rw [loadAll]
        refine (ih others).bind fun places all => yields_pure ?_
        exact ⟨congrArg (· + 1) all.1, List.forall_mem_cons.mpr ⟨trivial, all.2⟩⟩

theorem yields_writeBack (mnemonic : Mnemonic) (spilled index : Nat) :
    (frame.writeBack mnemonic spilled index assigned).Yields fun _ => True := by
  induction assigned generalizing index with
  | nil => exact yields_pure trivial
  | cons first rest ih =>
      obtain ⟨here, others⟩ := List.forall_mem_cons.mp writable
      obtain ⟨operand, _ | number⟩ := first
      · exact ih others (index + 1)
      · rw [writeBack]
        by_cases written : mnemonic.writes index
        · simp only [written, if_true]
          refine (frame.yields_load spilled .f0 here).bind fun target formed => ?_
          exact (yields_emit (by simp [formed, temporary])).bind fun _ _ => ih others (index + 1)
        · simp only [written]
          exact ih others (index + 1)

end Raw

theorem yields_raw {mnemonic : Mnemonic} {operands : List Operand}
    (count : operands.length = mnemonic.arity) (writable : ∀ operand ∈ operands, operand.Writable) :
    (frame.raw mnemonic operands).Yields fun _ => True := by
  have assigned : ∀ pair ∈ assignCells 1 operands, pair.1.Writable := by
    intro pair member
    apply writable
    rw [← map_fst_assignCells 1 operands]
    exact List.mem_map_of_mem member
  have length : (assignCells 1 operands).length = mnemonic.arity := by
    rw [← count, ← List.length_map (·.1), map_fst_assignCells]
  unfold raw
  refine (frame.yields_spill assigned).bind fun _ _ => ?_
  refine (frame.yields_loadAll assigned _).bind fun places all => ?_
  have nameless : (Instruction.raw mnemonic places).Nameless := ⟨⟨all.1.trans length, all.2⟩, rfl⟩
  refine (yields_emit (by simpa using nameless)).bind fun _ _ => ?_
  refine (frame.yields_writeBack assigned mnemonic _ 0).bind fun _ _ => ?_
  exact yields_emit (Instruction.nameless_releaseCells _)

end Frame

namespace Instruction

structure Prints (code : List Instruction) (names : List String) : Prop where
  formed : ∀ instruction ∈ code, instruction.Formed
  names : code.filterMap name? = names

theorem prints_of_nameless {code : List Instruction}
    (nameless : ∀ instruction ∈ code, instruction.Nameless) :
    Prints code [] :=
  ⟨fun instruction member => (nameless instruction member).1, names_of_nameless nameless⟩

theorem prints_singleton {instruction : Instruction} (formed : instruction.Formed) :
    Prints [instruction] instruction.name?.toList := by
  refine ⟨List.forall_mem_singleton.mpr formed, ?_⟩
  rw [List.filterMap_eq_flatMap_toList, List.flatMap_singleton]

theorem Prints.append {code more : List Instruction} {names others : List String}
    (start : Prints code names) (rest : Prints more others) :
    Prints (code ++ more) (names ++ others) := by
  refine ⟨List.forall_mem_append.mpr ⟨start.formed, rest.formed⟩, ?_⟩
  rw [List.filterMap_append, start.names, rest.names]

theorem Prints.flatMap {α : Type} {items : List α} {code : α → List Instruction}
    {names : α → List String} (each : ∀ item ∈ items, Prints (code item) (names item)) :
    Prints (items.flatMap code) (items.flatMap names) := by
  induction items with
  | nil => exact ⟨List.forall_mem_nil _, rfl⟩
  | cons item rest ih =>
      obtain ⟨first, others⟩ := List.forall_mem_cons.mp each
      exact first.append (ih others)

end Instruction

/-! The code of expressions. -/

namespace Expression

def name? : Expression → Option String
  | .exportLabel label | .importLabel label => some label
  | .function name _ => some name
  | .call callee _ _ => some callee
  | _ => none

def Written : Expression → Prop
  | .branch condition | .loop condition => condition.left.Writable ∧ condition.right.Writable
  | .returnValue value => value.Writable
  | .call _ arguments destination => (∀ argument ∈ arguments, argument.Writable) ∧
      destination.Writable
  | .raw mnemonic operands => operands.length = mnemonic.arity ∧ ∀ operand ∈ operands,
      operand.Writable
  | _ => True

end Expression

theorem Grammar.Simple.written {expression : Expression} (simple : Simple expression) :
    expression.Written := by
  cases simple with
  | cell => trivial
  | cells => trivial
  | returnValue writable => exact writable
  | call _ arguments destination => exact ⟨arguments, destination⟩
  | raw count operands => exact ⟨count, operands⟩

theorem Grammar.Header.written {header : Expression} (heads : Header header) : header.Written := by
  cases heads with
  | branch left right => exact ⟨left, right⟩
  | loop left right => exact ⟨left, right⟩

theorem Grammar.Statements.written {depth : Nat} {expressions : List Expression}
    (statements : Statements depth expressions) :
    ∀ expression ∈ expressions, expression.Written := by
  induction statements with
  | nil => simp
  | simple simple _ ih => exact List.forall_mem_cons.mpr ⟨simple.written, ih⟩
  | block heads _ _ innerIh ih =>
      simp only [List.cons_append, List.forall_mem_cons, List.forall_mem_append]
      exact ⟨heads.written, trivial, innerIh, trivial, ih⟩

theorem Grammar.Program.written {expressions : List Expression} (program : Program expressions) :
    ∀ expression ∈ expressions, expression.Written := by
  induction program with
  | nil => simp
  | exportLabel _ ih => exact List.forall_mem_cons.mpr ⟨trivial, ih⟩
  | importLabel _ ih => exact List.forall_mem_cons.mpr ⟨trivial, ih⟩
  | function _ _ statements _ ih =>
      simp only [List.cons_append, List.forall_mem_cons, List.forall_mem_append]
      exact ⟨trivial, trivial, statements.written, trivial, ih⟩

namespace Lowering

open Instruction

namespace State

theorem nameless_returnJump (state : State) :
    ∀ instruction ∈ state.returnJump, instruction.Nameless := by
  unfold returnJump
  split
  · rw [List.forall_mem_append, List.forall_mem_singleton]
    exact ⟨nameless_reserveCells _, nameless_jump rfl⟩
  · rw [List.forall_mem_singleton]
    exact nameless_jump rfl

theorem nameless_leaveFunction (state : State) (ordinal : Nat) :
    ∀ instruction ∈ state.leaveFunction ordinal, instruction.Nameless := by
  rw [leaveFunction, List.forall_mem_append, List.forall_mem_append, List.forall_mem_singleton,
    List.forall_mem_singleton]
  exact ⟨⟨nameless_define rfl, nameless_releaseCells _⟩, nameless_jumpBack⟩

theorem nameless_openBlock (state : State) (depth : Nat) :
    ∀ instruction ∈ (state.lower (.openBlock depth)).code, instruction.Nameless := by
  rw [lower, openBlock]
  split
  · exact List.forall_mem_singleton.mpr (nameless_jumpIf rfl)
  · exact List.forall_mem_singleton.mpr (nameless_jumpIf rfl)
  all_goals exact List.forall_mem_nil _

theorem nameless_closeBlock (state : State) (depth : Nat) :
    ∀ instruction ∈ (state.lower (.closeBlock depth)).code, instruction.Nameless := by
  rw [lower, closeBlock]
  split
  · exact List.forall_mem_singleton.mpr (nameless_define rfl)
  · exact List.forall_mem_cons.mpr ⟨nameless_jump rfl,
      List.forall_mem_singleton.mpr (nameless_define rfl)⟩
  · exact nameless_leaveFunction state _
  all_goals exact List.forall_mem_nil _

theorem prints_call {state : State} {function : String} {arguments : List Operand}
    {destination : Destination}
    (success : (state.lower (.call function arguments destination)).error = none)
    (written : (Expression.call function arguments destination).Written) :
    Prints (state.lower (.call function arguments destination)).code [function] := by
  obtain ⟨_, _, code⟩ := Frame.code_call (Step.outcome_of_error_eq_none success)
  rw [lower, Step.code_ofEmission, code]
  -- Only the call itself carries a name.
  have before := prints_of_nameless (state.frame.yields_pushArguments 0 written.1).nameless
  have taken := prints_of_nameless (List.forall_mem_singleton.mpr (nameless_reserve cellSize))
  have called := @prints_singleton (.call function) trivial
  have behind := prints_of_nameless (List.forall_mem_cons.mpr
    ⟨nameless_release ((arguments.length + 1) * cellSize),
      (state.frame.yields_store written.2).nameless⟩)
  exact before.append (taken.append (called.append behind))

/-- A step prints the name of its expression, and nothing else that is not formed. -/
theorem prints_lower {state : State} {expression : Expression}
    (success : (state.lower expression).error = none) (written : expression.Written) :
    Prints (state.lower expression).code expression.name?.toList := by
  cases expression with
  | exportLabel label => exact @prints_singleton (.exportLabel label) trivial
  | importLabel label => exact @prints_singleton (.importLabel label) trivial
  | function name parameters => exact @prints_singleton (.define (.named name)) trivial
  | call function arguments destination => exact prints_call success written
  | declare name pointer length =>
      exact prints_of_nameless (List.forall_mem_singleton.mpr (nameless_reserve _))
  | openBlock depth => exact prints_of_nameless (state.nameless_openBlock depth)
  | closeBlock depth => exact prints_of_nameless (state.nameless_closeBlock depth)
  | branch condition =>
      rw [code_branch]
      exact prints_of_nameless (state.frame.yields_compare written.1 written.2).nameless
  | loop condition =>
      rw [code_loop]
      refine prints_of_nameless (List.forall_mem_cons.mpr ⟨nameless_define rfl, ?_⟩)
      exact (state.frame.yields_compare written.1 written.2).nameless
  | returnValue value =>
      have jumps (place : Place) (formed : place.Formed) :
          (Emission.emit ([.move place (.register .f0)] ++ state.returnJump)).Yields
            fun _ => True :=
        Emission.yields_emit (List.forall_mem_append.mpr ⟨by simp [formed],
          state.nameless_returnJump⟩)
      rw [lower, returnValue, Step.code_ofEmission]
      exact prints_of_nameless ((state.frame.yields_load 0 .f0 written).bind jumps).nameless
  | raw mnemonic operands =>
      rw [lower, Step.code_ofEmission]
      exact prints_of_nameless (state.frame.yields_raw written.1 written.2).nameless

end State
end Lowering

theorem Outline.prints_lines {outline : Outline} (accepted : outline.check = .ok ())
    (written : ∀ expression ∈ outline.expressions, expression.Written) :
    Instruction.Prints ((outline.lines .start).map (·.instruction))
      (outline.expressions.filterMap Expression.name?) := by
  have staged := Outline.staged accepted
  have code : (outline.lines .start).map (·.instruction) =
      (Program.stages outline.expressions).flatMap Lowering.Stage.code := by
    rw [staged.lines, ← Lowering.Stage.flatMap_code]
    rfl
  have passed := Program.map_expression_stagesFrom .start outline.expressions
  rw [code, List.filterMap_eq_flatMap_toList]
  nth_rewrite 2 [← passed]
  rw [List.flatMap_map]
  refine Instruction.Prints.flatMap fun stage member => ?_
  refine Lowering.State.prints_lower (staged.succeeds stage member) (written _ ?_)
  rw [← passed]
  exact List.mem_map_of_mem member

/-! Names are never empty, because words are not. -/

def Expression.Named (expression : Expression) : Prop :=
  ∀ name ∈ expression.name?, name ≠ ""

theorem Expression.named_of_no_name {expression : Expression} (none : expression.name? = none) :
    expression.Named := by
  intro name carried
  rw [none] at carried
  cases carried

theorem Statement.callTarget_ne_empty {name : String} (some : name ≠ "") :
    callTarget name ≠ "" := by
  unfold callTarget
  split
  · decide
  · exact some

theorem Leaf.Spelled.named {words : List Word} {leaf : Leaf} (spelled : Leaf.Spelled words leaf)
    (some : ∀ word ∈ words, word.text ≠ "") : leaf.expression.Named := by
  cases spelled with
  | declare => exact Expression.named_of_no_name rfl
  | raw => exact Expression.named_of_no_name rfl
  | @call keyword word stop target argumentWords name _ _ _ read =>
      obtain ⟨rfl, _⟩ := Word.functionName_eq_ok.mp read
      rintro _ ⟨⟩
      exact Statement.callTarget_ne_empty (some word (by simp))

theorem Body.Spelled.named {words : List Word} {body : Body} (spelled : Body.Spelled words body)
    (some : ∀ word ∈ words, word.text ≠ "") (depth : Nat) :
    ∀ expression ∈ body.expressions depth, expression.Named := by
  induction spelled generalizing depth with
  | done => exact List.forall_mem_nil _
  | act leaf _ ih =>
      obtain ⟨here, others⟩ := List.forall_mem_append.mp some
      exact List.forall_mem_cons.mpr ⟨leaf.named here, ih others depth⟩
  | leave _ _ _ ih =>
      simp only [List.forall_mem_cons] at some
      exact List.forall_mem_cons.mpr ⟨Expression.named_of_no_name rfl, ih some.2.2 depth⟩
  | branch _ _ _ _ _ _ innerIh ih | loop _ _ _ _ _ _ innerIh ih =>
      simp only [List.cons_append, List.forall_mem_cons, List.forall_mem_append] at some
      simp only [Body.expressions, List.cons_append, List.forall_mem_cons, List.forall_mem_append]
      exact ⟨Expression.named_of_no_name rfl, Expression.named_of_no_name rfl,
        innerIh some.2.1.2.2 (depth + 1), Expression.named_of_no_name rfl, ih some.2.2.2 depth⟩

theorem Outline.Spelled.named {words : List Word} {outline : Outline}
    (spelled : Outline.Spelled words outline) (some : ∀ word ∈ words, word.text ≠ "") :
    ∀ expression ∈ outline.expressions, expression.Named := by
  induction spelled with
  | done => exact List.forall_mem_nil _
  | exportLabel _ _ ih | importLabel _ _ ih =>
      simp only [List.forall_mem_cons] at some
      refine List.forall_mem_cons.mpr ⟨?_, ih some.2.2⟩
      rintro _ ⟨⟩
      exact some.2.1
  | function _ read _ _ _ _ body _ _ ih =>
      obtain ⟨rfl, _⟩ := Word.functionName_eq_ok.mp read
      simp only [List.cons_append, List.forall_mem_cons, List.forall_mem_append] at some
      rw [expressions_cons, List.forall_mem_append]
      simp only [Item.expressions, List.cons_append, List.forall_mem_cons, List.forall_mem_append]
      refine ⟨⟨?_, Expression.named_of_no_name rfl, body.named some.2.2.1.2.2 1,
        Expression.named_of_no_name rfl, List.forall_mem_nil _⟩, ih some.2.2.2.2⟩
      rintro _ ⟨⟩
      exact some.2.1

theorem Source.Reads.printed {source : Source} {outline : Outline} (reads : source.Reads outline) :
    ∀ expression ∈ outline.expressions, expression.Written ∧ expression.Named := by
  intro expression member
  have some : ∀ word ∈ Word.ofSource source.text, word.text ≠ "" :=
    Word.text_ne_empty_of_mem_scan trivial
  exact ⟨reads.program.written expression member, reads.named some expression member⟩

namespace Compilation

theorem prints_program {sources : List Source} {outlines : List Outline} {compilation : Compilation}
    (reads : List.Forall₂ Source.Reads sources outlines)
    (compiled : ofSources sources = .ok compilation) :
    Instruction.Prints compilation.program
      ((Outline.linked outlines).expressions.filterMap Expression.name?) ∧
      ∀ expression ∈ (Outline.linked outlines).expressions, expression.Named := by
  obtain ⟨accepted, body⟩ := accepted_of_reads reads compiled
  have printed : ∀ expression ∈ (Outline.linked outlines).expressions,
      expression.Written ∧ expression.Named := by
    intro expression member
    obtain ⟨outline, known, inside⟩ := Outline.mem_expressions_linked.mp member
    obtain ⟨source, _, spelled⟩ := Source.exists_reads reads known
    exact spelled.printed expression inside
  have prints := Outline.prints_lines accepted fun expression member =>
    (printed expression member).1
  rw [← body] at prints
  refine ⟨?_, fun expression member => (printed expression member).2⟩
  have entry : Text.Solid entryPoint := by decide
  unfold program
  split
  · exact (@Instruction.prints_singleton (.jump (.named entryPoint)) entry).append prints
  · exact prints

/-- A program has a line more than instructions for each line feed in a name. Every line
holds one instruction exactly if no name of a label, a function or a called function
holds a blank, and then the lines are those of the instructions. -/
theorem one_line_each_iff {sources : List Source} {units : List SourceUnit}
    {compilation : Compilation} (analyzed : sources.mapM Source.analyze = .ok units)
    (compiled : ofSources sources = .ok compilation) :
    let names := (linkedExpressions units).filterMap Expression.name?
    let lines := Text.lines compilation.assembly
    lines.length = compilation.program.length + (names.map (·.toList.count '\n')).sum ∧
      ((lines.length = compilation.program.length ∧ ∀ line ∈ lines, IsLine line) ↔
        ∀ name ∈ names, ∀ c ∈ name.toList, Text.isBlank c = false) ∧
      ((∀ name ∈ names, ∀ c ∈ name.toList, Text.isBlank c = false) →
        lines = compilation.program.map Instruction.render) := by
  intro names lines
  obtain ⟨outlines, reads, rfl⟩ := Source.mapM_analyze_eq_ok.mp analyzed
  obtain ⟨prints, named⟩ := prints_program reads compiled
  have same : names = compilation.program.filterMap Instruction.name? := by
    rw [prints.names, ← Outline.linkedExpressions_units]
  have solid_iff : (∀ name ∈ names, ∀ c ∈ name.toList, Text.isBlank c = false) ↔
      ∀ name ∈ names, Text.Solid name := by
    refine forall₂_congr fun name member => ⟨fun whole => ⟨?_, whole⟩, fun solid => solid.2⟩
    rw [same, prints.names] at member
    obtain ⟨expression, known, carried⟩ := List.mem_filterMap.mp member
    exact named expression known name carried
  rw [solid_iff, same]
  exact ⟨Instruction.length_lines_listing prints.formed,
    Instruction.isLine_listing_iff prints.formed, Instruction.lines_listing_of_solid prints.formed⟩

/-- Hyphens inside words break no line. -/
theorem one_line_each_hyphenated :
    let sources : List Source := [⟨"", "kue f-g cersva f-g x rinyv fenxeo h 7 el x situv"⟩]
    let unit : SourceUnit := ⟨[.exportLabel "f-g", .function "f-g" [⟨"x", false⟩], .openBlock 1,
      .call "h" [.constant "7"] (.variable "x" .zero), .closeBlock 1]⟩
    let lines := ["kue f-g", "nll f-g", "nta 4 f5", "krz 7 f5@", "nta 4 f5",
      "inj h xx f5@", "ata 8 f5", "krz f0 f5+4@", "nll dosnud1", "krz f5@ xx"]
    sources.mapM Source.analyze = .ok [unit] ∧
      (ofSources sources).map (Text.lines ·.assembly) = .ok lines ∧ ∀ line ∈ lines,
        IsLine line := by
  intro sources unit lines
  have analyzed : sources.mapM Source.analyze = .ok [unit] := by decide +kernel
  have printed : (ofSources sources).map (Text.lines ·.assembly) = .ok lines := by decide +kernel
  have solid : ∀ name ∈ (linkedExpressions [unit]).filterMap Expression.name?, Text.Solid name := by
    decide +kernel
  refine ⟨analyzed, printed, ?_⟩
  cases compiled : ofSources sources with
  | error error =>
      rw [compiled] at printed
      cases printed
  | ok compilation =>
      rw [compiled] at printed
      rw [← Except.ok.inj printed]
      exact ((one_line_each_iff analyzed compiled).2.1.mpr fun name member =>
        (solid name member).2).2

/-- A hyphen at the end of a line takes the line feed into the label, and the one
instruction of the program prints as two lines. -/
theorem line_broken_by_hyphen :
    (ofSources [⟨"", "kue a-\n"⟩]).map
      (fun compilation => (compilation.program, Text.lines compilation.assembly)) =
        .ok ([.exportLabel "a-\n"], ["kue a-", ""]) := by
  decide +kernel

end Compilation
end TinkaCompiler
