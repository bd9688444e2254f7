import TinkaCompiler.Proofs.Linking

/-! Scope: which programs can be lowered.

A program that was analyzed without a fault is lowered exactly if every variable it
uses is a parameter of the function or declared in it before the use, and every
constant position leads to an offset that fits an address. -/

set_option autoImplicit false

namespace TinkaCompiler

def Expression.operands : Expression → List Operand
  | .branch condition | .loop condition => [condition.left, condition.right]
  | .returnValue value => [value]
  | .call _ arguments .discard => arguments
  | .call _ arguments (.variable name position) => arguments ++ [.variable name position]
  | .raw _ operands => operands
  | .exportLabel _ | .importLabel _ | .declare _ _ _ | .openBlock _ | .closeBlock _
  | .function _ _ => []

/-- Where an expression stands in a unit: the header of its function is the last
header before it. -/
structure SourceUnit.Position (unit : SourceUnit) where
  before : List Expression
  name : String
  parameters : List Parameter
  within : List Expression
  expression : Expression
  after : List Expression
  spelled : unit.expressions = before ++ .function name parameters :: within ++ expression :: after
  inside : ∀ earlier ∈ within, earlier.isFunction = false

namespace SourceUnit.Position

variable {unit : SourceUnit}

def Binds (position : unit.Position) (name : String) : Prop :=
  name ∈ position.parameters.map (·.name) ∨ ∃ pointer length,
    .declare name pointer length ∈ position.within

def frame (position : unit.Position) : Frame :=
  position.within.foldl Frame.enter (.ofParameters position.parameters)

end SourceUnit.Position

/-- Every variable is in scope where it is used, and every offset in range. -/
def SourceUnit.WellScoped (unit : SourceUnit) : Prop :=
  ∀ position : unit.Position,
    (∀ operand ∈ position.expression.operands, ∀ name ∈ operand.names, position.Binds name) ∧
      ∀ use ∈ position.expression.uses, position.frame.InRange use.pushed use.operand

namespace Frame

theorem check_eq_ok_iff {frame : Frame} {uses : List Use} :
    frame.check uses = .ok () ↔
      ∀ use ∈ uses, ∃ resolved, frame.resolve use.pushed .f0 use.operand = .ok resolved := by
  induction uses with
  | nil => simp [check]
  | cons use rest ih =>
      rw [List.forall_mem_cons, ← ih]
      exact check_then_eq_ok

theorem error_of_check {frame : Frame} {uses : List Use} {error : GenerationError}
    (failed : frame.check uses = .error error) :
    ∃ use ∈ uses, frame.resolve use.pushed .f0 use.operand = .error error := by
  induction uses with
  | nil => cases failed
  | cons use rest ih =>
      rcases check_then_eq_error.mp failed with here | ⟨_, later⟩
      · exact ⟨use, List.mem_cons_self, here⟩
      · obtain ⟨other, member, found⟩ := ih later
        exact ⟨other, List.mem_cons_of_mem _ member, found⟩

theorem checkAll_eq_ok_iff {frame : Frame} {expressions : List Expression} :
    frame.checkAll expressions = .ok () ↔
      ∀ before expression after, expressions = before ++ expression :: after →
        (before.foldl Frame.enter frame).check expression.uses = .ok () := by
  induction expressions generalizing frame with
  | nil => simp [checkAll]
  | cons first rest ih =>
      rw [checkAll]
      constructor
      · intro accepted before expression after split
        obtain ⟨checked, others⟩ := checks_eq_ok.mp accepted
        cases before with
        | nil =>
            obtain ⟨rfl, rfl⟩ := List.cons.inj split
            exact checked
        | cons head before =>
            obtain ⟨rfl, rest⟩ := List.cons.inj split
            exact ih.mp others before expression after rest
      · intro all
        refine checks_eq_ok.mpr ⟨all [] first rest rfl,
          ih.mpr fun before expression after split => ?_⟩
        exact all (first :: before) expression after (by rw [split]; rfl)

theorem error_of_checkAll {frame : Frame} {expressions : List Expression} {error : GenerationError}
    (failed : frame.checkAll expressions = .error error) :
    ∃ expression ∈ expressions, ∃ use ∈ expression.uses, ∃ current : Frame,
      current.resolve use.pushed .f0 use.operand = .error error := by
  induction expressions generalizing frame with
  | nil => cases failed
  | cons first rest ih =>
      rcases check_then_eq_error.mp failed with here | ⟨_, later⟩
      · obtain ⟨use, member, found⟩ := error_of_check here
        exact ⟨first, List.mem_cons_self, use, member, frame, found⟩
      · obtain ⟨expression, member, rest⟩ := ih later
        exact ⟨expression, List.mem_cons_of_mem _ member, rest⟩

/-! Frames of a program bind no variable above their cells. -/

theorem Covers.foldl_enter {frame : Frame} (covers : frame.Covers) (expressions : List Expression) :
    (expressions.foldl Frame.enter frame).Covers := by
  induction expressions generalizing frame with
  | nil => exact covers
  | cons expression rest ih => exact ih (covers.enter expression)

/-! The names that a frame binds. -/

theorem isSome_binding?_declareAll (frame : Frame) (parameters : List Parameter) (name : String) :
    ((parameters.foldl (fun frame parameter => frame.declare parameter.name 1) frame).binding?
        name).isSome ↔
      (frame.binding? name).isSome ∨ name ∈ parameters.map (·.name) := by
  induction parameters generalizing frame with
  | nil => simp
  | cons parameter rest ih =>
      rw [List.foldl_cons, ih, binding?_declare, List.map_cons, List.mem_cons]
      by_cases same : name = parameter.name <;> simp [same]

theorem isSome_binding?_ofParameters (parameters : List Parameter) (name : String) :
    ((ofParameters parameters).binding? name).isSome ↔ name ∈ parameters.map (·.name) := by
  have bound := isSome_binding?_declareAll empty parameters name
  rwa [show (empty.binding? name).isSome = false from rfl, Bool.false_eq_true, false_or] at bound

theorem isSome_binding?_foldl_enter {frame : Frame} {expressions : List Expression} (name : String)
    (noFunction : ∀ expression ∈ expressions, expression.isFunction = false) :
    ((expressions.foldl Frame.enter frame).binding? name).isSome ↔
      (frame.binding? name).isSome ∨ ∃ pointer length,
        .declare name pointer length ∈ expressions := by
  induction expressions generalizing frame with
  | nil => simp
  | cons expression rest ih =>
      rw [List.forall_mem_cons] at noFunction
      rw [List.foldl_cons, ih noFunction.2]
      cases expression with
      | declare other pointer length =>
          rw [Frame.enter, binding?_declare]
          by_cases same : name = other
          · subst same
            have declared : ∃ pointer' length', Expression.declare name pointer' length' ∈
                Expression.declare name pointer length :: rest :=
                  ⟨pointer, length, List.mem_cons_self⟩
            rw [if_pos rfl]
            exact iff_of_true (Or.inl rfl) (Or.inr declared)
          · simp [same]
      | function other parameters => simp [Expression.isFunction] at noFunction
      | _ => simp [Frame.enter]

end Frame

/-! The operands of an expression are those that it uses. -/

namespace Frame

theorem mem_argumentUses {operand : Operand} {pushed : Nat} {arguments : List Operand} :
    (∃ use ∈ argumentUses pushed arguments, use.operand = operand) ↔ operand ∈ arguments := by
  induction arguments generalizing pushed with
  | nil => simp [argumentUses]
  | cons argument rest ih =>
      rw [argumentUses, List.exists_mem_cons_iff, ih, List.mem_cons, eq_comm]

theorem mem_assignCells {operand : Operand} {first : Nat} {operands : List Operand} :
    (∃ assigned ∈ assignCells first operands, assigned.1 = operand) ↔ operand ∈ operands := by
  induction operands generalizing first with
  | nil => simp [assignCells]
  | cons head rest ih =>
      rw [assignCells]
      split
      · rw [List.exists_mem_cons_iff, ih, List.mem_cons, eq_comm]
      · rw [List.exists_mem_cons_iff, ih, List.mem_cons, eq_comm]

theorem mem_spillUses_or_loadUses {operand : Operand} {spilled : Nat}
    {assigned : List (Operand × Option Nat)} :
    (∃ use ∈ spillUses assigned ++ loadUses spilled assigned, use.operand = operand) ↔
      ∃ pair ∈ assigned, pair.1 = operand := by
  induction assigned with
  | nil => simp [spillUses, loadUses]
  | cons pair rest ih =>
      obtain ⟨head, cell⟩ := pair
      rw [List.exists_mem_cons_iff, ← ih]
      cases cell with
      | none =>
          simp only [spillUses, loadUses, List.mem_append, List.mem_cons]
          grind
      | some number =>
          simp only [spillUses, loadUses, List.mem_append, List.mem_cons]
          grind

theorem mem_of_mem_writeBackUses {mnemonic : Mnemonic} {spilled index : Nat}
    {assigned : List (Operand × Option Nat)} {use : Use}
    (member : use ∈ writeBackUses mnemonic spilled index assigned) :
    ∃ pair ∈ assigned, pair.1 = use.operand := by
  fun_induction writeBackUses mnemonic spilled index assigned with
  | case1 => cases member
  | case2 index operand rest ih => simp [ih member]
  | case3 index operand number rest written ih =>
      cases member with
      | head => exact ⟨_, List.mem_cons_self, rfl⟩
      | tail _ member => simp [ih member]
  | case4 index operand number rest written ih => simp [ih member]

end Frame

namespace Expression

theorem mem_operands_iff {expression : Expression} {operand : Operand} :
    operand ∈ expression.operands ↔ ∃ use ∈ expression.uses, use.operand = operand := by
  cases expression with
  | branch condition => simp [operands, uses, eq_comm]
  | loop condition => simp [operands, uses, eq_comm]
  | returnValue value => simp [operands, uses, eq_comm]
  | call function arguments destination =>
      simp only [uses, List.mem_append, or_and_right, exists_or, Frame.mem_argumentUses]
      cases destination with
      | discard => simp [operands, Frame.destinationUses]
      | «variable» name position => simp [operands, Frame.destinationUses, eq_comm]
  | raw mnemonic given =>
      simp only [uses, operands, Frame.rawUses, List.mem_append (s := _ ++ _),
        or_and_right, exists_or, Frame.mem_spillUses_or_loadUses]
      rw [Frame.mem_assignCells]
      refine ⟨Or.inl, ?_⟩
      rintro (member | ⟨use, member, rfl⟩)
      · exact member
      · exact Frame.mem_assignCells.mp (Frame.mem_of_mem_writeBackUses member)
  | _ => simp [operands, uses]

end Expression

/-! Words never spell an operand with a function in it. -/

theorem Operand.addressable_of_readFrom? {piece text : List Char} {operand : Operand}
    (read : readFrom? piece text = some operand) : operand.Addressable := by
  induction text generalizing piece operand with
  | nil =>
      unfold readFrom? ofLast? at read
      split at read
      · cases read
      · split at read
        · cases read
          trivial
        · cases read
          trivial
  | cons c rest ih =>
      rw [readFrom?] at read
      split at read
      · split at read
        · cases read
        · obtain ⟨position, found, rfl⟩ := Option.map_eq_some_iff.mp read
          rw [Operand.Addressable]
          exact ih found
      · exact ih read

theorem Word.addressable_of_operand {word : Word} {operand : Operand}
    (read : word.operand = .ok operand) :
    operand.Addressable := by
  unfold Word.operand at read
  split at read
  · rename_i found spelled
    cases read
    exact Operand.addressable_of_readFrom? spelled
  · cases read

theorem Word.addressable_of_operands {words : List Word} {operands : List Operand}
    (read : words.mapM Word.operand = .ok operands) :
    ∀ operand ∈ operands, operand.Addressable := by
  induction words generalizing operands with
  | nil =>
      cases read
      simp
  | cons word rest ih =>
      rw [List.mapM_cons] at read
      obtain ⟨first, firstRead, read⟩ := Statement.bind_eq_ok.mp read
      obtain ⟨others, othersRead, read⟩ := Statement.bind_eq_ok.mp read
      cases read
      rw [List.forall_mem_cons]
      exact ⟨addressable_of_operand firstRead, ih othersRead⟩

theorem Statement.addressable_of_destination {word : Word} {name : String} {position : Operand}
    (read : destination word = .ok (.variable name position)) :
    (Operand.variable name position).Addressable := by
  unfold destination at read
  split at read
  · cases read
  · obtain ⟨operand, found, read⟩ := bind_eq_ok.mp read
    cases operand with
    | constant text => cases read
    | function other => cases read
    | «variable» other inner =>
        cases read
        exact Word.addressable_of_operand found

def Expression.Addressable (expression : Expression) : Prop :=
  ∀ operand ∈ expression.operands, operand.Addressable

theorem Leaf.Spelled.addressable {words : List Word} {leaf : Leaf}
    (spelled : Leaf.Spelled words leaf) :
    leaf.expression.Addressable := by
  cases spelled with
  | declare keyword declared =>
      intro operand member
      cases member
  | @call _ _ _ _ _ _ arguments destination keyword named plain argumentsRead stop
      destinationRead =>
      cases destination with
      | discard => exact Word.addressable_of_operands argumentsRead
      | «variable» name position =>
          intro operand member
          rcases List.mem_append.mp member with member | member
          · exact Word.addressable_of_operands argumentsRead operand member
          · rw [List.mem_singleton.mp member]
            exact Statement.addressable_of_destination destinationRead
  | raw mnemonic arity operandsRead => exact Word.addressable_of_operands operandsRead

theorem Test.Spelled.addressable {words : List Word} {test : Test}
    (spelled : Test.Spelled words test) :
    ∀ operand ∈ [test.left, test.right], operand.Addressable := by
  cases spelled with
  | words left comparison right =>
      rw [List.forall_mem_cons, List.forall_mem_singleton]
      exact ⟨Word.addressable_of_operand left, Word.addressable_of_operand right⟩

theorem Expression.addressable_of_no_operands {expression : Expression}
    (none : expression.operands = []) :
    expression.Addressable := by
  intro operand member
  rw [none] at member
  cases member

theorem Body.Spelled.addressable {words : List Word} {body : Body}
    (spelled : Body.Spelled words body) (depth : Nat) :
    ∀ expression ∈ body.expressions depth, expression.Addressable := by
  induction spelled generalizing depth with
  | done => simp [Body.expressions]
  | act leaf _ ih =>
      rw [Body.expressions, List.forall_mem_cons]
      exact ⟨leaf.addressable, ih depth⟩
  | leave keyword value _ ih =>
      rw [Body.expressions, List.forall_mem_cons]
      refine ⟨fun operand member => ?_, ih depth⟩
      rw [List.mem_singleton.mp member]
      exact Word.addressable_of_operand value
  | branch keyword test opener _ closer _ innerAll ih =>
      rw [Body.expressions, List.forall_mem_append, List.forall_mem_cons, List.forall_mem_cons,
        List.forall_mem_cons]
      exact ⟨⟨test.addressable, Expression.addressable_of_no_operands rfl, innerAll (depth + 1)⟩,
        Expression.addressable_of_no_operands rfl, ih depth⟩
  | loop keyword test opener _ closer _ innerAll ih =>
      rw [Body.expressions, List.forall_mem_append, List.forall_mem_cons, List.forall_mem_cons,
        List.forall_mem_cons]
      exact ⟨⟨test.addressable, Expression.addressable_of_no_operands rfl, innerAll (depth + 1)⟩,
        Expression.addressable_of_no_operands rfl, ih depth⟩

theorem Outline.Spelled.addressable {words : List Word} {outline : Outline}
    (spelled : Outline.Spelled words outline) :
    ∀ expression ∈ outline.expressions, expression.Addressable := by
  induction spelled with
  | done => simp
  | exportLabel keyword _ ih =>
      rw [expressions_cons, Item.expressions, List.singleton_append, List.forall_mem_cons]
      exact ⟨Expression.addressable_of_no_operands rfl, ih⟩
  | importLabel keyword _ ih =>
      rw [expressions_cons, Item.expressions, List.singleton_append, List.forall_mem_cons]
      exact ⟨Expression.addressable_of_no_operands rfl, ih⟩
  | function keyword named allowed plain parameters opener body closer _ ih =>
      rw [expressions_cons, Item.expressions, List.forall_mem_append, List.forall_mem_append,
        List.forall_mem_cons, List.forall_mem_cons, List.forall_mem_singleton]
      exact ⟨⟨⟨Expression.addressable_of_no_operands rfl, Expression.addressable_of_no_operands rfl,
        body.addressable 1⟩, Expression.addressable_of_no_operands rfl⟩, ih⟩

namespace Outline

/-- Each function starts a new frame, so the frame in front of an outline does not
matter. -/
theorem checkAll_expressions (outline : Outline) (frame : Frame) :
    frame.checkAll outline.expressions = outline.check := by
  induction outline generalizing frame with
  | nil => rfl
  | cons item rest ih =>
      rw [expressions_cons, Frame.checkAll_append, ih, check]
      cases item with
      | exportLabel label => rfl
      | importLabel label => rfl
      | function name parameters body =>
          have marks : frame.checkAll (Item.function name parameters body).expressions =
              (Item.function name parameters body).check := by
            simp only [Item.expressions, List.cons_append]
            rw [Frame.checkAll, Frame.checkAll, Frame.checkAll_append]
            simp only [Item.check, Frame.enter, Expression.uses, Frame.check]
            cases (Frame.ofParameters parameters).checkAll (body.expressions 1) <;> rfl
          rw [marks]

theorem header_before {outline : Outline} {before after : List Expression} {expression : Expression}
    (split : outline.expressions = before ++ expression :: after) (used : expression.uses ≠ []) :
    ∃ header ∈ before, header.isFunction := by
  induction outline generalizing before with
  | nil => simp at split
  | cons item rest ih =>
      rw [expressions_cons] at split
      cases before with
      | nil =>
          cases item <;>
            · obtain ⟨rfl, _⟩ := List.cons.inj split
              exact absurd rfl used
      | cons head more =>
          cases item with
          | function name parameters body =>
              obtain ⟨first, _⟩ := List.cons.inj split
              exact ⟨head, List.mem_cons_self, by rw [← first]; rfl⟩
          | _ =>
              obtain ⟨_, split⟩ := List.cons.inj split
              obtain ⟨header, member, found⟩ := ih split
              exact ⟨header, List.mem_cons_of_mem head member, found⟩

end Outline

theorem Expression.exists_last_header {expressions : List Expression}
    (some : ∃ header ∈ expressions, header.isFunction) :
    ∃ before name parameters within, expressions = before ++ .function name parameters :: within ∧
      ∀ earlier ∈ within, earlier.isFunction = false := by
  induction expressions with
  | nil => simp at some
  | cons head rest ih =>
      by_cases later : ∃ header ∈ rest, header.isFunction
      · obtain ⟨before, name, parameters, within, rfl, inside⟩ := ih later
        exact ⟨head :: before, name, parameters, within, rfl, inside⟩
      · have inside : ∀ earlier ∈ rest, earlier.isFunction = false := by simpa using later
        cases head with
        | function name parameters => exact ⟨[], name, parameters, rest, rfl, inside⟩
        | _ =>
            rw [List.exists_mem_cons_iff] at some
            exact absurd (some.resolve_left Bool.false_ne_true) later

namespace Outline

/-- The checks of a unit are passed exactly if it is well scoped. -/
theorem check_iff_wellScoped {outline : Outline}
    (addressable : ∀ expression ∈ outline.expressions, expression.Addressable) :
    outline.check = .ok () ↔ outline.unit.WellScoped := by
  -- The frame in which an expression is checked is the one its function has reached.
  have resolves : ∀ position : outline.unit.Position,
      position.frame.check position.expression.uses = .ok () ↔
        (∀ operand ∈ position.expression.operands, ∀ name ∈ operand.names, position.Binds name) ∧
          ∀ use ∈ position.expression.uses, position.frame.InRange use.pushed use.operand := by
    intro position
    have member : position.expression ∈ outline.expressions := by
      rw [← unit_expressions, position.spelled]
      simp
    have covers : position.frame.Covers := (Frame.covers_ofParameters _).foldl_enter _
    have binds : ∀ name, (position.frame.binding? name).isSome ↔ position.Binds name := by
      intro name
      rw [SourceUnit.Position.frame, Frame.isSome_binding?_foldl_enter name position.inside,
        Frame.isSome_binding?_ofParameters]
      rfl
    simp only [Frame.check_eq_ok_iff, Expression.mem_operands_iff, ← binds]
    constructor
    · intro all
      have each : ∀ use ∈ position.expression.uses, _ := fun use used =>
        (Frame.resolve_succeeds_iff covers
          (addressable _ member _ (Expression.mem_operands_iff.mpr ⟨use, used, rfl⟩))).mp
          (all use used)
      exact ⟨by rintro _ ⟨use, used, rfl⟩; exact (each use used).1,
        fun use used => (each use used).2⟩
    · intro ⟨bound, inRange⟩ use used
      exact (Frame.resolve_succeeds_iff covers
        (addressable _ member _ (Expression.mem_operands_iff.mpr ⟨use, used, rfl⟩))).mpr
          ⟨bound _ ⟨use, used, rfl⟩, inRange use used⟩
  rw [← checkAll_expressions outline .empty, Frame.checkAll_eq_ok_iff]
  constructor
  · intro all position
    have checked :=
      all (position.before ++ .function position.name position.parameters :: position.within)
        position.expression position.after (by rw [← unit_expressions, position.spelled])
    rw [List.foldl_append, List.foldl_cons] at checked
    exact (resolves position).mp checked
  · intro wellScoped before expression after split
    by_cases used : expression.uses = []
    · rw [used]
      rfl
    · obtain ⟨earlier, name, parameters, within, rfl, inside⟩ :=
        Expression.exists_last_header (header_before split used)
      have checked := (resolves ⟨earlier, name, parameters, within, expression, after,
        split, inside⟩).mpr (wellScoped _)
      rw [List.foldl_append, List.foldl_cons]
      exact checked

theorem error_kind_of_check {outline : Outline}
    (addressable : ∀ expression ∈ outline.expressions, expression.Addressable)
    {error : GenerationError} (failed : outline.check = .error error) :
    (∃ name, error = .undefinedVariable name) ∨ ∃ operand, error = .invalidPosition operand := by
  rw [← checkAll_expressions outline .empty] at failed
  obtain ⟨expression, member, use, used, frame, unresolved⟩ := Frame.error_of_checkAll failed
  exact Frame.error_of_resolve
    (addressable expression member use.operand (Expression.mem_operands_iff.mpr ⟨use, used, rfl⟩))
      unresolved

end Outline

namespace Compilation

/-- Sources that are analyzed without a fault compile exactly if each of them is well
scoped; otherwise a variable is undefined or a position invalid. -/
theorem ofSources_succeeds_iff_wellScoped {sources : List Source} {units : List SourceUnit}
    (analyzed : sources.mapM Source.analyze = .ok units) :
    ((∃ compilation, ofSources sources = .ok compilation) ↔ ∀ unit ∈ units, unit.WellScoped) ∧
      ∀ error, ofSources sources = .error error →
        (∃ name, error = .generation (.undefinedVariable name)) ∨
          ∃ operand, error = .generation (.invalidPosition operand) := by
  obtain ⟨outlines, reads, rfl⟩ := Source.mapM_analyze_eq_ok.mp analyzed
  have addressable : ∀ outline ∈ outlines,
      ∀ expression ∈ outline.expressions, expression.Addressable := by
    intro outline member
    obtain ⟨source, _, spelled⟩ := Source.exists_reads reads member
    exact Outline.Spelled.addressable spelled
  have accepted : (Outline.linked outlines).check = .ok () ↔
      ∀ unit ∈ outlines.map Outline.unit, unit.WellScoped := by
    rw [List.forall_mem_map, Outline.check_eq_ok_iff]
    simp only [Outline.mem_linked]
    constructor
    · intro all outline member
      rw [← Outline.check_iff_wellScoped (addressable outline member), Outline.check_eq_ok_iff]
      exact fun item inside => all item ⟨outline, member, inside⟩
    · rintro all item ⟨outline, member, inside⟩
      exact Outline.check_eq_ok_iff.mp
        ((Outline.check_iff_wellScoped (addressable outline member)).mpr (all outline member))
          item inside
  rw [ofSources_of_units analyzed, link_outlines, ← accepted]
  cases checked : (Outline.linked outlines).check with
  | ok _ => simp
  | error error =>
      have everywhere : ∀ expression ∈ (Outline.linked outlines).expressions,
          expression.Addressable := by
        intro expression member
        obtain ⟨item, linked, inside⟩ := List.mem_flatMap.mp member
        obtain ⟨outline, known, stands⟩ := Outline.mem_linked.mp linked
        exact addressable outline known expression (List.mem_flatMap.mpr ⟨item, stands, inside⟩)
      simpa using Outline.error_kind_of_check everywhere checked

/-- The variable of one function is not in scope in the next. -/
theorem not_wellScoped_in_next_function :
    let source : Source :=
      ⟨"", "cersva f rinyv anax x dosnud x situv cersva g rinyv dosnud x situv"⟩
    let unit : SourceUnit := ⟨[.function "f" [], .openBlock 1, .declare "x" false 1,
      .returnValue (.variable "x" .zero), .closeBlock 1,
      .function "g" [], .openBlock 1, .returnValue (.variable "x" .zero), .closeBlock 1]⟩
    [source].mapM Source.analyze = .ok [unit] ∧ (ofSources [source]).isOk = false ∧
      ¬ unit.WellScoped := by
  intro source unit
  have analyzed : [source].mapM Source.analyze = .ok [unit] := by decide +kernel
  have rejected : (ofSources [source]).isOk = false := by decide +kernel
  refine ⟨analyzed, rejected, fun wellScoped => ?_⟩
  obtain ⟨compilation, accepted⟩ :=
    (ofSources_succeeds_iff_wellScoped analyzed).1.mpr (List.forall_mem_singleton.mpr wellScoped)
  rw [accepted] at rejected
  cases rejected

end Compilation
end TinkaCompiler
