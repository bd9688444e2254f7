import TinkaCompiler.Proofs.FunctionCells
import TinkaCompiler.Proofs.Scope
import TinkaCompiler.Proofs.Spilling

/-! Names of variables as operands.

The words that bind a name and the words of operands are read by different rules. A name
never holds a separator, so as an operand it is a variable at position zero, unless it
consists of digits: then it is a constant. Parameters cannot be named so, but declared
variables can, and such a variable has cells that no operand reaches by its name alone. -/

set_option autoImplicit false

namespace TinkaCompiler

/-! Words without a separator. -/

theorem Word.operand_of_whole {word : Word} {operand : Operand} (whole : '@' ∉ word.text.toList)
    (read : word.operand = .ok operand) :
    operand = if word.text.toList.all Char.isDigit then .constant word.text
      else .variable word.text .zero := by
  unfold Word.operand at read
  rw [Operand.read?_of_whole whole, Operand.ofLast?, String.ofList_toList] at read
  split at read
  · rename_i found
    cases read
    split at found
    · cases found
    · split at found
      · rename_i digits
        rw [if_pos digits, Option.some.inj found]
      · rename_i other
        rw [if_neg other, Option.some.inj found]
  · cases read

def Expression.boundNames : Expression → List String
  | .declare name _ _ => [name]
  | .function _ parameters => parameters.map (·.name)
  | _ => []

def Expression.NamesWritable : Expression → Prop
  | .declare name _ _ => '@' ∉ name.toList
  | .function _ parameters => ∀ parameter ∈ parameters, parameter.Writable
  | _ => True

theorem Expression.NamesWritable.whole {expression : Expression} (named : expression.NamesWritable)
    {name : String} (bound : name ∈ expression.boundNames) : '@' ∉ name.toList := by
  cases expression with
  | declare other pointer length =>
      cases List.mem_singleton.mp bound
      exact named
  | function function parameters =>
      obtain ⟨parameter, member, rfl⟩ := List.mem_map.mp bound
      exact (named parameter member).whole
  | _ => cases bound

theorem Parameter.Writable.not_digits {parameter : Parameter} (writable : parameter.Writable) :
    parameter.name.toList.all Char.isDigit = false := by
  cases characters : parameter.name.toList with
  | nil => exact absurd (String.toList_eq_nil_iff.mp characters) writable.named
  | cons first rest =>
      rw [List.all_cons, writable.notNumbered first (by rw [characters]; rfl), Bool.false_and]

namespace Grammar

theorem Simple.namesWritable {expression : Expression} (simple : Simple expression) :
    expression.NamesWritable := by
  cases simple with
  | cell whole => exact whole
  | cells _ whole _ _ => exact whole
  | _ => trivial

theorem Statements.namesWritable {depth : Nat} {expressions : List Expression}
    (statements : Statements depth expressions) :
    ∀ expression ∈ expressions, expression.NamesWritable := by
  induction statements with
  | nil => simp
  | simple simple _ ih => exact List.forall_mem_cons.mpr ⟨simple.namesWritable, ih⟩
  | block heads _ _ innerIh ih =>
      simp only [List.cons_append, List.forall_mem_cons, List.forall_mem_append]
      exact ⟨by cases heads <;> trivial, trivial, innerIh, trivial, ih⟩

theorem Program.namesWritable {expressions : List Expression} (program : Program expressions) :
    ∀ expression ∈ expressions, expression.NamesWritable := by
  induction program with
  | nil => simp
  | exportLabel _ ih => exact List.forall_mem_cons.mpr ⟨trivial, ih⟩
  | importLabel _ ih => exact List.forall_mem_cons.mpr ⟨trivial, ih⟩
  | function _ writable statements _ ih =>
      simp only [List.cons_append, List.forall_mem_cons, List.forall_mem_append]
      exact ⟨writable, trivial, statements.namesWritable, trivial, ih⟩

end Grammar

theorem Source.namesWritable {sources : List Source} {outlines : List Outline}
    (reads : List.Forall₂ Source.Reads sources outlines) :
    ∀ expression ∈ (Outline.linked outlines).expressions, expression.NamesWritable := by
  intro expression member
  obtain ⟨outline, known, inside⟩ := Outline.mem_expressions_linked.mp member
  obtain ⟨source, _, spelled⟩ := Source.exists_reads reads known
  exact spelled.program.namesWritable expression inside

/-! The frame at a stage. -/

section Frames

open Lowering (State Stage Enclosure Nested)

/-- Each stage of a body finds the frame that the stages before it have made. -/
theorem Body.frame_of_placed (body : Body) {depth : Nat} {state : State} {passed later : List Stage}
    {stage : Stage} (placed : body.stages depth state = passed ++ stage :: later) :
    stage.state.frame = (passed.map (·.expression)).foldl Frame.enter state.frame := by
  induction body using Body.induction_by_kind generalizing depth state passed later with
  | done => simp [stages] at placed
  | act leaf rest ih =>
      cases passed with
      | nil =>
          obtain ⟨rfl, _⟩ := List.cons.inj placed
          rfl
      | cons first passed =>
          obtain ⟨rfl, behind⟩ := List.cons.inj placed
          rw [ih behind, State.state_leaf, List.map_cons, List.foldl_cons]
  | leave value rest ih =>
      cases passed with
      | nil =>
          obtain ⟨rfl, _⟩ := List.cons.inj placed
          rfl
      | cons first passed =>
          obtain ⟨rfl, behind⟩ := List.cons.inj placed
          rw [ih behind]
          rfl
  | block kind test inner rest innerIh ih =>
      have headed : state.frame.enter (kind.header test.skipping) = state.frame := by
        cases kind <;> rfl
      have closing : (inner.after (kind.into state)).frame =
          (inner.expressions (depth + 1)).foldl Frame.enter state.frame := by
        rw [inner.after_frame _ (depth + 1), kind.into_frame]
      rw [stages_tree] at placed
      rcases split_block placed with
        ⟨rfl, rfl⟩ | ⟨rfl, rfl⟩ | ⟨less, more, rfl, inside⟩ | ⟨rfl, rfl⟩ | ⟨less, rfl, behind⟩
      · rfl
      · rw [kind.into_frame]
        exact headed.symm
      · rw [innerIh inside, kind.into_frame, List.map_cons, List.foldl_cons, headed]
        rfl
      · rw [closing, List.map_cons, List.foldl_cons, headed, List.map_cons, map_expression_stages]
        rfl
      · rw [ih behind, State.outOfBlock_frame, closing, List.map_cons, List.foldl_cons, headed]
        simp only [List.map_cons, List.map_append, List.foldl_cons, List.foldl_append,
          map_expression_stages, Frame.enter]

theorem Lowering.Enclosure.frame_of_placed {stages : List Stage} (block : Enclosure stages)
    (nested : Nested stages) {name : String} {parameters : List Parameter}
    (heads : block.header.expression = .function name parameters) {passed later : List Stage}
    {stage : Stage} (placed : block.inner = passed ++ stage :: later) :
    stage.state.frame =
      (passed.map (·.expression)).foldl Frame.enter (.ofParameters parameters) := by
  obtain ⟨state, body, _, inner, _⟩ := block.exists_function nested heads
  exact body.frame_of_placed (inner.symm.trans placed)

end Frames

/-! Names that are bound at a stage. -/

namespace Frame

/-- A name keeps its height until it is declared again. -/
theorem binding?_foldl_enter {frame : Frame} {expressions : List Expression} {name : String}
    (inside : ∀ expression ∈ expressions, expression.isFunction = false)
    (fresh : ∀ expression ∈ expressions, name ∉ expression.boundNames) :
    (expressions.foldl Frame.enter frame).binding? name = frame.binding? name := by
  induction expressions generalizing frame with
  | nil => rfl
  | cons expression rest ih =>
      rw [List.forall_mem_cons] at inside fresh
      rw [List.foldl_cons, ih inside.2 fresh.2]
      cases expression with
      | declare other pointer length =>
          rw [enter, binding?_declare, if_neg (by simpa [Expression.boundNames] using fresh.1)]
      | function other parameters => simp [Expression.isFunction] at inside
      | _ => rfl

/-- Of several parameters with one name the last is meant. -/
theorem binding?_ofParameters {first second : List Parameter} {parameter : Parameter}
    (last : parameter.name ∉ second.map (·.name)) :
    (ofParameters (first ++ parameter :: second)).binding? parameter.name =
      some (first.length + 1) := by
  show (List.foldl _ empty (first ++ parameter :: second)).binding? parameter.name = _
  rw [List.foldl_append, List.foldl_cons, binding?_declareAll_of_notMem _ last,
    binding?_declare, if_pos rfl, height_declareAll, empty, Nat.zero_add]

theorem height_ofParameters (parameters : List Parameter) :
    (ofParameters parameters).height = parameters.length + 1 := by
  rw [ofParameters, height_declareAll, empty, Nat.zero_add]

end Frame

namespace Lowering

/-- A name that is bound in a function when some stages of its body are passed, with the
number of cells that have been taken since its first cell: by the last parameter that has it,
behind which the return address lies, or by the last declaration. -/
inductive Distance (parameters : List Parameter) (passed : List Stage) (name : String) :
    Nat → Prop where
  | parameter {first second : List Parameter} {pointer : Bool} :
      parameters = first ++ ⟨name, pointer⟩ :: second → name ∉ second.map (·.name) →
      (∀ stage ∈ passed, name ∉ stage.expression.boundNames) →
      Distance parameters passed name (second.length + 1 + Stage.declared passed)
  | declaration {earlier later : List Stage} {stage : Stage} {pointer : Bool} {length : Nat} :
      passed = earlier ++ stage :: later → stage.expression = .declare name pointer length →
      (∀ stage ∈ later, name ∉ stage.expression.boundNames) →
      Distance parameters passed name (Stage.declared later)

section Bound

variable {stages passed later : List Stage} {stage : Stage} {block : Enclosure stages}
  {function name : String} {parameters : List Parameter} {distance : Nat}

theorem Distance.mem_boundNames (bound : Distance parameters passed name distance)
    (heads : block.header.expression = .function function parameters)
    (placed : block.inner = passed ++ stage :: later) :
    ∃ binder ∈ stages, name ∈ binder.expression.boundNames := by
  cases bound with
  | parameter named _ _ =>
      refine ⟨block.header, block.header_mem, ?_⟩
      simp [heads, named, Expression.boundNames]
  | @declaration _ _ binder _ _ split declares _ =>
      refine ⟨binder, block.mem_iff.mpr (by simp [placed, split]), ?_⟩
      simp [declares, Expression.boundNames]

theorem Distance.binding? (bound : Distance parameters passed name distance)
    (nested : Nested stages) (heads : block.header.expression = .function function parameters)
    (placed : block.inner = passed ++ stage :: later) :
    ∃ declared, stage.state.frame.binding? name = some declared ∧
      stage.state.frame.height = declared + distance := by
  obtain ⟨state, body, _, inner, _⟩ := block.exists_function nested heads
  have inside : ∀ other ∈ block.inner, other.expression.isFunction = false := by
    rw [inner]
    exact fun other member => (body.forall_mem_stages _ _ other member).1
  have height : ∀ {before after : List Stage} {other : Stage},
      block.inner = before ++ other :: after →
      other.state.frame.height = parameters.length + 1 + Stage.declared before := by
    intro before after other split
    rw [(body.counted 1 _ before other after (inner.symm.trans split)).height]
    exact congrArg (· + Stage.declared before) (Frame.height_ofParameters parameters)
  have frame := block.frame_of_placed nested heads placed
  cases bound with
  | @parameter first second pointer named last fresh =>
      refine ⟨first.length + 1, ?_, ?_⟩
      · rw [frame, Frame.binding?_foldl_enter (by simp_all) (by simpa using fresh), named]
        exact @Frame.binding?_ofParameters _ _ ⟨name, pointer⟩ last
      · rw [height placed, named, List.length_append, List.length_cons]
        omega
  | @declaration earlier between binder pointer length split declares fresh =>
      have whole : block.inner = earlier ++ binder :: (between ++ stage :: later) := by
        rw [placed, split, List.append_assoc, List.cons_append]
      refine ⟨binder.state.frame.height + length, ?_, ?_⟩
      · rw [frame, split, List.map_append, List.foldl_append,
          ← block.frame_of_placed nested heads whole, List.map_cons, List.foldl_cons,
          Frame.binding?_foldl_enter (by simp_all) (by simpa using fresh), declares, Frame.enter,
          Frame.binding?_declare, if_pos rfl]
      · have taken : Stage.declared (binder :: between) = length + Stage.declared between := by
          rw [Stage.declared, List.map_cons, List.sum_cons, declares]
          rfl
        rw [height placed, height whole, split, Stage.declared_append, taken]
        omega

end Bound
end Lowering

/-! The place of an operand that needs no address arithmetic. -/

namespace Frame

variable {frame : Frame}

theorem assignCells_of_static {operands : List Operand} (first : Nat)
    (fixed : operands.any Operand.isDynamic = false) :
    assignCells first operands = operands.map (·, none) := by
  induction operands with
  | nil => rfl
  | cons operand rest ih =>
      rw [List.any_cons, Bool.or_eq_false_iff] at fixed
      rw [assignCells, fixed.1, Bool.false_and, if_neg Bool.false_ne_true,
        ih fixed.2, List.map_cons]

theorem code_writeBack_unassigned (mnemonic : Mnemonic) (spilled index : Nat)
    (operands : List Operand) :
    (frame.writeBack mnemonic spilled index (operands.map (·, none))).code = [] := by
  induction operands generalizing index with
  | nil => rfl
  | cons operand rest ih => exact ih (index + 1)

/-- Whatever the other operands are, one with a fixed address stands as it is resolved. -/
theorem getElem?_loadAll {first temporaries : Nat} {operands : List Operand} {places : List Place}
    (success : (frame.loadAll temporaries (assignCells first operands)).outcome = .ok places)
    {index : Nat} {operand : Operand} (found : operands[index]? = some operand)
    (fixed : operand.isDynamic = false) :
    ∃ resolved, places[index]? = some resolved.place ∧
      Resolves frame temporaries .f0 operand resolved := by
  induction operands generalizing first places index with
  | nil => simp at found
  | cons head rest ih =>
      rcases loadAll_cons success with
        ⟨behind, spills, rfl, loads, _⟩ | ⟨resolved, behind, _, rfl, resolves, loads, _⟩
      · cases index with
        | zero =>
            cases found
            simp [Operand.isSpilled_cons_zero, fixed] at spills
        | succ index => exact ih loads found
      · cases index with
        | zero =>
            cases found
            exact ⟨resolved, rfl, resolves⟩
        | succ index => exact ih loads found

theorem Resolves.place_of_variable {pushed declared : Nat} {scratch : Register} {name : String}
    {resolved : Resolved} (resolves : Resolves frame pushed scratch (.variable name .zero) resolved)
    (bound : frame.binding? name = some declared) :
    resolved.place = .cell ((frame.height + pushed - declared) * cellSize) := by
  cases resolves with
  | static found _ read _ =>
      cases found.symm.trans bound
      cases read
      rfl
  | dynamic moving => cases moving

end Frame

namespace Lowering

/-- What a directly written instruction has for an operand word that is the name of a
variable. A name of digits is taken as a constant. Any other stands for the first cell of the
variable, wherever the top is when the line is reached, and is printed as its distance from
the top if no address is computed for the instruction. -/
structure Stage.Addresses (stage : Stage) (mnemonic : Mnemonic) (operands : List Operand)
    (index : Nat) (name : String) (distance : Nat) (before : List Instruction) (places : List Place)
    (behind : List Instruction) (place : Place) : Prop where
  code : stage.code = before ++ .raw mnemonic places :: behind
  stands : places[index]? = some place
  bound : ∃ declared, stage.state.frame.binding? name = some declared ∧
    stage.state.frame.height = declared + distance
  constant : name.toList.all Char.isDigit → place = .literal name
  cell : name.toList.all Char.isDigit = false → ∀ (target : Target) (machine : Machine),
    (operands.countP Operand.isDynamic - 1) * cellSize ≤ machine.registers .f5 →
      (machine.run target before).address? place =
        some (machine.registers .f5 + distance * cellSize)
  alone : operands.any Operand.isDynamic = false → before = [] ∧ behind = [] ∧
    (place.render = "f5+" ++ toString (4 * distance) ++ "@" ↔ name.toList.all Char.isDigit = false)

theorem Stage.exists_addresses {stage : Stage} {mnemonic : Mnemonic} {operands : List Operand}
    {index : Nat} {name : String} {distance : Nat} (covers : stage.state.frame.Covers)
    (success : (stage.state.lower stage.expression).error = none)
    (writes : stage.expression = .raw mnemonic operands)
    (found : operands[index]? =
      some (if name.toList.all Char.isDigit then .constant name else .variable name .zero))
    (bound : ∃ declared, stage.state.frame.binding? name = some declared ∧
      stage.state.frame.height = declared + distance) :
    ∃ before places behind place,
      stage.Addresses mnemonic operands index name distance before places behind place := by
  rw [writes] at success
  obtain ⟨places, pushes, loads, copies, emitted⟩ :=
    Frame.code_raw (Step.outcome_of_error_eq_none success)
  have code : stage.code = (stage.state.frame.raw mnemonic operands).code := by
    rw [Stage.code, writes]
    exact Step.code_ofEmission _ _ _
  obtain ⟨resolved, stands, resolves⟩ := Frame.getElem?_loadAll loads found (by split <;> rfl)
  have constant : name.toList.all Char.isDigit → resolved.place = .literal name := by
    intro digits
    rw [if_pos digits] at resolves
    cases resolves
    rfl
  have place : name.toList.all Char.isDigit = false →
      resolved.place = .cell ((distance + (operands.countP Operand.isDynamic - 1)) * cellSize) := by
    intro other
    obtain ⟨declared, known, height⟩ := bound
    rw [if_neg (by simp [other]), Operand.length_spilled] at resolves
    rw [resolves.place_of_variable known, height, Nat.add_assoc, Nat.add_sub_cancel_left]
  refine ⟨_, places, _, resolved.place, code.trans emitted, stands, bound, constant, ?_, ?_⟩
  · intro other target machine room
    have top := (Frame.run_prepared covers target pushes loads room).top
    rw [place other, Machine.address?, ← top, Nat.add_mul, Nat.add_assoc,
      Nat.add_comm (distance * cellSize)]
  · intro fixed
    have count : operands.countP Operand.isDynamic = 0 := by simpa using fixed
    have none : Operand.spilled operands = [] := by
      rw [← List.length_eq_zero_iff, Operand.length_spilled, count]
    refine ⟨?_, ?_, ?_⟩
    · rw [Frame.code_loadAll_of_static loads fixed, none]
      rfl
    · rw [Frame.assignCells_of_static 1 fixed, Frame.code_writeBack_unassigned, none]
      rfl
    · cases digits : name.toList.all Char.isDigit with
      | true =>
          -- The printed cell starts with a letter.
          rw [constant digits]
          refine iff_of_false (fun same => ?_) (by simp)
          have letter : 'f' ∈ name.toList := by
            rw [show name = _ from same]
            simp
          exact absurd (List.all_eq_true.mp digits 'f' letter) (by decide)
      | false =>
          rw [place digits, count, Nat.zero_sub, Nat.add_zero, Nat.mul_comm]
          exact iff_of_true rfl rfl

end Lowering

/-! Compiled programs. -/

theorem Word.getElem?_mapM {α : Type} {read : Word → Except Fault α} {words : List Word}
    {values : List α} (all : words.mapM read = .ok values) {index : Nat} {word : Word}
    (written : words[index]? = some word) :
    ∃ value, values[index]? = some value ∧ read word = .ok value := by
  induction words generalizing values index with
  | nil => simp at written
  | cons head rest ih =>
      rw [List.mapM_cons] at all
      obtain ⟨first, firstRead, all⟩ := Statement.bind_eq_ok.mp all
      obtain ⟨others, othersRead, all⟩ := Statement.bind_eq_ok.mp all
      cases all
      cases index with
      | zero =>
          cases written
          exact ⟨first, rfl, firstRead⟩
      | succ index => exact ih othersRead written

namespace Compilation

open Lowering (Stage Enclosure Distance)

/-- In a compiled program, an operand word that is the name of a parameter or of a declared
variable refers to the first cell of the variable exactly if it does not consist of digits,
which is so for every parameter. -/
theorem bound_name_addressed_iff {sources : List Source} {units : List SourceUnit}
    {compilation : Compilation} (analyzed : sources.mapM Source.analyze = .ok units)
    (compiled : ofSources sources = .ok compilation)
    (block : Enclosure (Program.stages (linkedExpressions units))) {function : String}
    {parameters : List Parameter} (heads : block.header.expression = .function function parameters)
    {passed later : List Stage} {stage : Stage} (placed : block.inner = passed ++ stage :: later)
    {mnemonic : Mnemonic} {operands : List Operand}
    (writes : stage.expression = .raw mnemonic operands) {words : List Word}
    (read : words.mapM Word.operand = .ok operands) {index : Nat} {word : Word}
    (written : words[index]? = some word) {distance : Nat}
    (bound : Distance parameters passed word.text distance) :
    (word.text ∈ parameters.map (·.name) → word.text.toList.all Char.isDigit = false) ∧
      ∃ before places behind place,
        stage.Addresses mnemonic operands index word.text distance before places behind place ∧
        compilation.body = (block.front ++ block.header :: block.opener :: passed).flatMap
          Stage.code ++ (before ++ .raw mnemonic places :: behind) ++
            (later ++ block.closer :: block.behind).flatMap Stage.code := by
  obtain ⟨outlines, reads, rfl⟩ := Source.mapM_analyze_eq_ok.mp analyzed
  obtain ⟨accepted, body⟩ := accepted_of_reads reads compiled
  have linked := Outline.linkedExpressions_units outlines
  have nested := Outline.nested_stages accepted
  have staged := Outline.staged accepted
  have named := Source.namesWritable reads
  rw [← linked] at nested staged named
  have known : ∀ other ∈ Program.stages (linkedExpressions (outlines.map Outline.unit)),
      other.expression.NamesWritable := by
    intro other member
    apply named
    rw [← Program.map_expression_stagesFrom .start (linkedExpressions _)]
    exact List.mem_map_of_mem member
  have member : stage ∈ Program.stages (linkedExpressions (outlines.map Outline.unit)) :=
    block.mem_iff.mpr (by simp [placed])
  have covers : stage.state.frame.Covers := by
    rw [block.frame_of_placed nested heads placed]
    exact (Frame.covers_ofParameters parameters).foldl_enter _
  constructor
  · intro parameter
    obtain ⟨parameter, taken, same⟩ := List.mem_map.mp parameter
    have writable := known block.header block.header_mem
    rw [heads] at writable
    rw [← same]
    exact (writable parameter taken).not_digits
  · obtain ⟨binder, binding, binds⟩ := bound.mem_boundNames heads placed
    obtain ⟨operand, found, operandRead⟩ := Word.getElem?_mapM read written
    rw [Word.operand_of_whole ((known binder binding).whole binds) operandRead] at found
    obtain ⟨before, places, behind, place, addresses⟩ :=
      Stage.exists_addresses covers (staged.succeeds stage member) writes found
        (bound.binding? nested heads placed)
    refine ⟨before, places, behind, place, addresses, ?_⟩
    have parts := congrArg (List.flatMap Stage.code) block.placed
    rw [placed] at parts
    rw [body, ← addresses.code, staged.lines, ← Stage.flatMap_code]
    refine parts.trans ?_
    simp

/-- A name that starts with a digit, used in a branch, with one more variable declared since,
and a parameter behind which another one and the return address lie. -/
theorem bound_name_addressed_in_branch :
    let source : Source :=
      ⟨"", "cersva f x y rinyv anax 5@2 anax 5a anax b fi x clo 1 rinyv krz x 5a situv situv"⟩
    let branch : Condition := ⟨.variable "x" .zero, .niv, .constant "1"⟩
    let operands : List Operand := [.variable "x" .zero, .variable "5a" .zero]
    let units : List SourceUnit :=
      [⟨[.function "f" [⟨"x", false⟩, ⟨"y", false⟩], .openBlock 1, .declare "5" true 2,
        .declare "5a" false 1, .declare "b" false 1, .branch branch, .openBlock 2,
        .raw .krz operands, .closeBlock 2, .closeBlock 1]⟩]
    [source].mapM Source.analyze = .ok units ∧ ∃ compilation, ofSources [source] = .ok compilation ∧
      (∃ places place, .raw .krz places ∈ compilation.body ∧ places[0]? = some place ∧
        place.render = "f5+24@") ∧
      ∃ places place, .raw .krz places ∈ compilation.body ∧ places[1]? = some place ∧
        place.render = "f5+4@" := by
  intro source branch operands units
  have analyzed : [source].mapM Source.analyze = .ok units := by decide +kernel
  have accepted : (ofSources [source]).isOk := by decide +kernel
  let stages := Program.stages (linkedExpressions units)
  let block : Enclosure stages := {
    front := []
    header := stages.get ⟨0, by decide +kernel⟩
    opener := stages.get ⟨1, by decide +kernel⟩
    inner := (stages.drop 2).take 7
    closer := stages.get ⟨9, by decide +kernel⟩
    behind := []
    depth := 1
    placed := by decide +kernel
    opens := by decide +kernel
    closes := by decide +kernel
    within := by decide +kernel }
  let passed := (stages.drop 2).take 5
  let stage := stages.get ⟨7, by decide +kernel⟩
  have heads : block.header.expression = .function "f" [⟨"x", false⟩, ⟨"y", false⟩] := by
    decide +kernel
  have placed : block.inner = passed ++ stage :: (stages.drop 8).take 1 := by decide +kernel
  have writes : stage.expression = .raw .krz operands := by decide +kernel
  let words : List Word := [⟨"x", 0⟩, ⟨"5a", 0⟩]
  have read : words.mapM Word.operand = .ok operands := by decide +kernel
  have first : Distance [⟨"x", false⟩, ⟨"y", false⟩] passed "x" 6 :=
    @Distance.parameter _ _ _ [] [⟨"y", false⟩] false rfl (by decide) (by decide +kernel)
  have second : Distance [⟨"x", false⟩, ⟨"y", false⟩] passed "5a" 1 :=
    @Distance.declaration _ _ _ (passed.take 1) (passed.drop 2)
      (stages.get ⟨3, by decide +kernel⟩) false 1 (by decide +kernel) (by decide +kernel)
        (by decide +kernel)
  cases compiled : ofSources [source] with
  | error error =>
      rw [compiled] at accepted
      cases accepted
  | ok compilation =>
      obtain ⟨letters, _, places, _, place, one, body⟩ :=
        bound_name_addressed_iff analyzed compiled block heads placed writes read
          (show words[0]? = _ from rfl) first
      obtain ⟨_, _, others, _, other, two, same⟩ :=
        bound_name_addressed_iff analyzed compiled block heads placed writes read
          (show words[1]? = _ from rfl) second
      refine ⟨analyzed, compilation, rfl, ⟨places, place, by simp [body], one.stands, ?_⟩,
        others, other, by simp [same], two.stands, ?_⟩
      · exact (one.alone (by decide)).2.2.mpr (letters (by decide))
      · exact (two.alone (by decide)).2.2.mpr (by decide)

/-- A variable that is named like a number: the instruction has the number in its place, and
the cell that is taken for the variable is left alone. -/
theorem number_in_place_of_variable :
    let source : Source := ⟨"", "cersva f rinyv anax 5 krz 1 5 situv"⟩
    [source].mapM Source.analyze = .ok [⟨[.function "f" [], .openBlock 1, .declare "5" false 1,
        .raw .krz [.constant "1", .constant "5"], .closeBlock 1]⟩] ∧
      (ofSources [source]).map (·.body) = .ok [.define (.named "f"), .reserve 4,
        .raw .krz [.literal "1", .literal "5"], .define (.functionExit 1), .release 4,
        .jumpBack] := by
  decide +kernel

end Compilation
end TinkaCompiler
