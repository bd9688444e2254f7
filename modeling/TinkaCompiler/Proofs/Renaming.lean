import Mathlib.Data.List.Forall2
import Mathlib.Data.Set.Function
import TinkaCompiler.Proofs.Scope

/-! Names of variables do not reach the code.

A frame is asked for the height at which a name is bound and for nothing else about the
name. So two programs that differ only in the names of their variables, and in which of
them are pointers, have frames that answer alike all the way, and become the same
instructions or fail alike. -/

set_option autoImplicit false

namespace TinkaCompiler

/-! Programs under other names. -/

/-- Gives the variables of an operand other names. Functions keep theirs. -/
def Operand.rename (names : String → String) : Operand → Operand
  | .constant text => .constant text
  | .variable name position => .variable (names name) (position.rename names)
  | .function name => .function name

def Condition.rename (names : String → String) (condition : Condition) : Condition :=
  ⟨condition.left.rename names, condition.comparison, condition.right.rename names⟩

def Destination.rename (names : String → String) : Destination → Destination
  | .discard => .discard
  | .variable name position => .variable (names name) (position.rename names)

namespace Expression

def variableNames : Expression → List String
  | .declare name _ _ => [name]
  | .function _ parameters => parameters.map (·.name)
  | expression => expression.operands.flatMap Operand.names

/-- The same expression with other names for its variables. Whether they are pointers
may differ. -/
inductive Renamed (names : String → String) : Expression → Expression → Prop where
  | exportLabel (label : String) : Renamed names (.exportLabel label) (.exportLabel label)
  | importLabel (label : String) : Renamed names (.importLabel label) (.importLabel label)
  | declare (name : String) (pointer other : Bool) (length : Nat) :
      Renamed names (.declare name pointer length) (.declare (names name) other length)
  | branch (condition : Condition) :
      Renamed names (.branch condition) (.branch (condition.rename names))
  | loop (condition : Condition) : Renamed names (.loop condition) (.loop (condition.rename names))
  | openBlock (depth : Nat) : Renamed names (.openBlock depth) (.openBlock depth)
  | closeBlock (depth : Nat) : Renamed names (.closeBlock depth) (.closeBlock depth)
  | function (name : String) {parameters others : List Parameter} :
      List.Forall₂ (fun parameter other => other.name = names parameter.name) parameters others →
      Renamed names (.function name parameters) (.function name others)
  | returnValue (value : Operand) :
      Renamed names (.returnValue value) (.returnValue (value.rename names))
  | call (function : String) (arguments : List Operand) (destination : Destination) :
      Renamed names (.call function arguments destination)
        (.call function (arguments.map (·.rename names)) (destination.rename names))
  | raw (mnemonic : Mnemonic) (operands : List Operand) :
      Renamed names (.raw mnemonic operands) (.raw mnemonic (operands.map (·.rename names)))

end Expression

inductive GenerationError.Renamed (names : String → String) :
    GenerationError → GenerationError → Prop where
  | undefinedVariable (name : String) :
      Renamed names (.undefinedVariable name) (.undefinedVariable (names name))
  | notAddressable (function : String) :
      Renamed names (.notAddressable function) (.notAddressable function)
  | invalidPosition (operand : Operand) :
      Renamed names (.invalidPosition operand.render)
        (.invalidPosition (operand.rename names).render)
  | unmatchedBlock : Renamed names .unmatchedBlock .unmatchedBlock
  | unclosedBlocks (count : Nat) : Renamed names (.unclosedBlocks count) (.unclosedBlocks count)

@[simp]
theorem Operand.isConstant_rename (names : String → String) (operand : Operand) :
    (operand.rename names).isConstant = operand.isConstant := by
  cases operand <;> rfl

@[simp]
theorem Operand.isDynamic_rename (names : String → String) (operand : Operand) :
    (operand.rename names).isDynamic = operand.isDynamic := by
  cases operand with
  | «variable» name position => exact congrArg not (position.isConstant_rename names)
  | _ => rfl

/-! Computations that go alike. -/

inductive Alike (names : String → String) {α : Type} :
    Except GenerationError α → Except GenerationError α → Prop where
  | ok (value : α) : Alike names (.ok value) (.ok value)
  | error {error other : GenerationError} :
      error.Renamed names other → Alike names (.error error) (.error other)

namespace Alike

variable {names : String → String} {α β : Type}

theorem bind {first second : Except GenerationError α} {after other : α → Except GenerationError β}
    (alike : Alike names first second) (behind : ∀ value, Alike names (after value) (other value)) :
    Alike names (first >>= after) (second >>= other) := by
  cases alike with
  | ok value => exact behind value
  | error renamed => exact .error renamed

theorem eq_ok_iff {first second : Except GenerationError α} (alike : Alike names first second)
    (value : α) :
    first = .ok value ↔ second = .ok value := by
  cases alike with
  | ok _ => exact Iff.rfl
  | error _ => exact iff_of_false nofun nofun

theorem renamed {first second : Except GenerationError α} (alike : Alike names first second)
    {error other : GenerationError} (failed : first = .error error)
    (otherFailed : second = .error other) :
    error.Renamed names other := by
  cases alike with
  | ok _ => cases failed
  | error renamed =>
      cases failed
      cases otherFailed
      exact renamed

end Alike

namespace Emission

variable {α β : Type}

structure Alike (names : String → String) (first second : Emission α) : Prop where
  code : second.code = first.code
  outcome : TinkaCompiler.Alike names first.outcome second.outcome

variable {names : String → String}

theorem alike_pure (value : α) : Alike names (pure value) (pure value) :=
  ⟨rfl, .ok value⟩

theorem alike_emit (code : List Instruction) : Alike names (emit code) (emit code) :=
  ⟨rfl, .ok ()⟩

theorem alike_ofExcept {first second : Except GenerationError α}
    (alike : TinkaCompiler.Alike names first second) :
    Alike names (ofExcept first) (ofExcept second) :=
  ⟨rfl, alike⟩

theorem Alike.bind {first second : Emission α} {after other : α → Emission β}
    (alike : Alike names first second) (behind : ∀ value, Alike names (after value) (other value)) :
    Alike names (first >>= after) (second >>= other) := by
  obtain ⟨code, outcome⟩ := first
  obtain ⟨otherCode, otherOutcome⟩ := second
  obtain ⟨rfl, outcomes⟩ := alike
  cases outcomes with
  | ok value => exact ⟨congrArg (otherCode ++ ·) (behind value).code, (behind value).outcome⟩
  | error renamed => exact ⟨rfl, .error renamed⟩

end Emission

/-! Frames that answer alike. -/

namespace Frame

/-- Frames of one size that bind each of some names as the other binds its new name. -/
structure Mirrors (names : String → String) (known : Set String) (frame other : Frame) : Prop where
  height : other.height = frame.height
  callerCells : other.callerCells = frame.callerCells
  binding : ∀ name ∈ known, other.binding? (names name) = frame.binding? name

variable {names : String → String} {known : Set String} {frame other : Frame}

theorem mirrors_empty : Mirrors names known empty empty :=
  ⟨rfl, rfl, fun _ _ => rfl⟩

theorem Mirrors.locals (mirrors : Mirrors names known frame other) :
    other.locals = frame.locals := by
  rw [Frame.locals, mirrors.height, mirrors.callerCells, Frame.locals]

/-- Two names that stay apart do not hide each other's bindings. -/
theorem Mirrors.declare (injective : Set.InjOn names known)
    (mirrors : Mirrors names known frame other) {name : String} (member : name ∈ known)
    (length : Nat) :
    Mirrors names known (frame.declare name length) (other.declare (names name) length) := by
  refine ⟨congrArg (· + length) mirrors.height, mirrors.callerCells, fun asked inside => ?_⟩
  simp only [binding?_declare, mirrors.height, mirrors.binding asked inside,
    injective.eq_iff inside member]

theorem Mirrors.declareAll (injective : Set.InjOn names known) {parameters others : List Parameter}
    (renamed : List.Forall₂ (fun parameter other => other.name = names parameter.name)
      parameters others)
    (members : ∀ parameter ∈ parameters, parameter.name ∈ known)
    (mirrors : Mirrors names known frame other) :
    Mirrors names known
      (parameters.foldl (fun frame parameter => frame.declare parameter.name 1) frame)
        (others.foldl (fun frame parameter => frame.declare parameter.name 1) other) := by
  -- A parameter can hide one before it, so the frames are any that mirror each other.
  induction renamed generalizing frame other with
  | nil => exact mirrors
  | cons same _ ih =>
      obtain ⟨member, rest⟩ := List.forall_mem_cons.mp members
      rw [List.foldl_cons, List.foldl_cons, same]
      exact ih rest (mirrors.declare injective member 1)

theorem mirrors_ofParameters (injective : Set.InjOn names known)
    {parameters others : List Parameter}
    (renamed : List.Forall₂ (fun parameter other => other.name = names parameter.name) parameters
      others) (members : ∀ parameter ∈ parameters, parameter.name ∈ known) :
    Mirrors names known (ofParameters parameters) (ofParameters others) := by
  have bound := Mirrors.declareAll injective renamed members mirrors_empty
  have height := congrArg (· + 1) bound.height
  exact ⟨height, height, bound.binding⟩

open Emission (alike_pure alike_emit alike_ofExcept)

section Operands

variable (mirrors : Mirrors names known frame other)

include mirrors

theorem Mirrors.resolve (pushed : Nat) (scratch : Register) {operand : Operand}
    (members : ∀ name ∈ operand.names, name ∈ known) :
    Alike names (frame.resolve pushed scratch operand)
      (other.resolve pushed scratch (operand.rename names)) := by
  induction operand with
  | constant text => exact .ok _
  | function name => exact .error (.notAddressable name)
  | «variable» name position ih =>
      obtain ⟨member, inner⟩ := List.forall_mem_cons.mp members
      -- Both frames look for the name, then at its height, and then at the position.
      have same := mirrors.binding name member
      rw [Operand.rename]
      cases found : frame.binding? name with
      | none =>
          rw [resolve_unbound scratch position found, resolve_unbound scratch _ (same.trans found)]
          exact .error (.undefinedVariable name)
      | some bound =>
          have otherFound := same.trans found
          by_cases below : frame.height + pushed < bound
          · rw [resolve_below scratch position found below,
              resolve_below scratch _ otherFound (by rwa [mirrors.height])]
            exact .error (.invalidPosition (.variable name position))
          · have covered := Nat.not_lt.mp below
            have otherCovered : bound ≤ other.height + pushed := by rwa [mirrors.height]
            cases moving : position.isConstant with
            | true =>
                cases position with
                | constant text =>
                    rw [Operand.rename, resolve_static scratch text found covered,
                      resolve_static scratch text otherFound otherCovered, mirrors.height]
                    -- The text of a failure holds the name, its cause does not.
                    have failed : @Alike names Resolved _ _ :=
                      .error (.invalidPosition (.variable name (.constant text)))
                    split
                    · split
                      · exact .ok _
                      · exact failed
                    · exact failed
                | function called => cases moving
                | «variable» inner deeper => cases moving
            | false =>
                rw [resolve_dynamic scratch moving found covered,
                  resolve_dynamic scratch (by rwa [Operand.isConstant_rename]) otherFound
                  otherCovered, mirrors.height]
                exact (ih inner).bind fun resolved => .ok _

theorem Mirrors.load (pushed : Nat) (scratch : Register) {operand : Operand}
    (members : ∀ name ∈ operand.names, name ∈ known) :
    Emission.Alike names (frame.load pushed scratch operand)
      (other.load pushed scratch (operand.rename names)) :=
  (alike_ofExcept (mirrors.resolve pushed scratch members)).bind fun resolved =>
    (alike_emit resolved.prelude).bind fun _ => alike_pure resolved.place

theorem Mirrors.push (pushed : Nat) {operand : Operand}
    (members : ∀ name ∈ operand.names, name ∈ known) :
    Emission.Alike names (frame.push pushed operand) (other.push pushed (operand.rename names)) :=
  (alike_ofExcept (mirrors.resolve pushed .f0 members)).bind fun _ => alike_emit _

theorem Mirrors.compare {condition : Condition} (left : ∀ name ∈ condition.left.names, name ∈ known)
    (right : ∀ name ∈ condition.right.names, name ∈ known) :
    Emission.Alike names (frame.compare condition) (other.compare (condition.rename names)) :=
  (mirrors.load 0 .f0 left).bind fun _ => (alike_emit _).bind fun _ =>
    (mirrors.load 0 .f0 right).bind fun _ => alike_emit _

theorem Mirrors.pushArguments (pushed : Nat) {arguments : List Operand}
    (members : ∀ argument ∈ arguments, ∀ name ∈ argument.names, name ∈ known) :
    Emission.Alike names (frame.pushArguments pushed arguments)
      (other.pushArguments pushed (arguments.map (·.rename names))) := by
  induction arguments generalizing pushed with
  | nil => exact alike_pure ()
  | cons argument rest ih =>
      obtain ⟨first, others⟩ := List.forall_mem_cons.mp members
      exact (mirrors.push (pushed + 1) first).bind fun _ => ih (pushed + 1) others

theorem Mirrors.call (function : String) {arguments : List Operand} {destination : Destination}
    (members : ∀ operand ∈ (Expression.call function arguments destination).operands,
      ∀ name ∈ operand.names, name ∈ known) :
    Emission.Alike names (frame.call function arguments destination)
      (other.call function (arguments.map (·.rename names)) (destination.rename names)) := by
  have called (inside : ∀ argument ∈ arguments, ∀ name ∈ argument.names, name ∈ known)
      (stored : Emission.Alike names (frame.store destination)
        (other.store (destination.rename names))) :
      Emission.Alike names (frame.call function arguments destination)
        (other.call function (arguments.map (·.rename names)) (destination.rename names)) := by
    unfold Frame.call
    rw [List.length_map]
    exact (mirrors.pushArguments 0 inside).bind fun _ => (alike_emit _).bind fun _ => stored
  cases destination with
  | discard => exact called members (alike_pure ())
  | «variable» name position =>
      obtain ⟨inside, target⟩ := List.forall_mem_append.mp members
      exact called inside
        ((mirrors.load 0 .f1 (List.forall_mem_singleton.mp target)).bind fun _ => alike_emit _)

end Operands

/-! Directly written instructions. The same operands get temporary cells. -/

theorem assignCells_rename (names : String → String) (first : Nat) (operands : List Operand) :
    assignCells first (operands.map (·.rename names)) =
      (assignCells first operands).map (Prod.map (·.rename names) id) := by
  induction operands generalizing first with
  | nil => rfl
  | cons operand rest ih =>
      have dynamic : (rest.map (·.rename names)).any Operand.isDynamic =
          rest.any Operand.isDynamic := by
        simp [List.any_map, Function.comp_def]
      rw [List.map_cons, assignCells, assignCells, Operand.isDynamic_rename, dynamic, ih, ih]
      split <;> rfl

section Assigned

variable (mirrors : Mirrors names known frame other) {assigned : List (Operand × Option Nat)}
  (members : ∀ pair ∈ assigned, ∀ name ∈ pair.1.names, name ∈ known)

include mirrors members

theorem Mirrors.spill :
    Emission.Alike names (frame.spill assigned)
      (other.spill (assigned.map (Prod.map (·.rename names) id))) := by
  induction assigned with
  | nil => exact alike_pure ()
  | cons first rest ih =>
      obtain ⟨here, others⟩ := List.forall_mem_cons.mp members
      obtain ⟨operand, _ | number⟩ := first
      · exact ih others
      · exact (mirrors.push number here).bind fun _ => ih others

theorem Mirrors.loadAll (spilled : Nat) :
    Emission.Alike names (frame.loadAll spilled assigned)
      (other.loadAll spilled (assigned.map (Prod.map (·.rename names) id))) := by
  induction assigned with
  | nil => exact alike_pure []
  | cons first rest ih =>
      obtain ⟨here, others⟩ := List.forall_mem_cons.mp members
      obtain ⟨operand, _ | number⟩ := first
      · exact (mirrors.load spilled .f0 here).bind fun _ => (ih others).bind fun _ => alike_pure _
      · exact (ih others).bind fun _ => alike_pure _

theorem Mirrors.writeBack (mnemonic : Mnemonic) (spilled index : Nat) :
    Emission.Alike names (frame.writeBack mnemonic spilled index assigned)
      (other.writeBack mnemonic spilled index (assigned.map (Prod.map (·.rename names) id))) := by
  induction assigned generalizing index with
  | nil => exact alike_pure ()
  | cons first rest ih =>
      obtain ⟨here, others⟩ := List.forall_mem_cons.mp members
      obtain ⟨operand, _ | number⟩ := first
      · exact ih others (index + 1)
      · rw [List.map_cons, Prod.map, id, Frame.writeBack, Frame.writeBack]
        by_cases written : mnemonic.writes index
        · simp only [written, if_true]
          exact (mirrors.load spilled .f0 here).bind fun _ =>
            (alike_emit _).bind fun _ => ih others (index + 1)
        · simp only [written]
          exact ih others (index + 1)

end Assigned

theorem Mirrors.raw (mirrors : Mirrors names known frame other) (mnemonic : Mnemonic)
    {operands : List Operand}
    (members : ∀ operand ∈ operands, ∀ name ∈ operand.names, name ∈ known) :
    Emission.Alike names (frame.raw mnemonic operands)
      (other.raw mnemonic (operands.map (·.rename names))) := by
  have assigned : ∀ pair ∈ assignCells 1 operands, ∀ name ∈ pair.1.names, name ∈ known :=
    fun pair member => members pair.1 (mem_assignCells.mp ⟨pair, member, rfl⟩)
  have spilled : ((assignCells 1 operands).map (Prod.map (·.rename names) id)).countP (·.2.isSome) =
      (assignCells 1 operands).countP (·.2.isSome) := List.countP_map
  simp only [Frame.raw, assignCells_rename, spilled]
  exact (mirrors.spill assigned).bind fun _ => (mirrors.loadAll assigned _).bind fun _ =>
    (alike_emit _).bind fun _ =>
      (mirrors.writeBack assigned mnemonic _ 0).bind fun _ => alike_emit _

end Frame

/-! Steps that go alike. -/

namespace Lowering

variable {names : String → String} {known : Set String}

structure State.Mirrors (names : String → String) (known : Set String) (state other : State) :
    Prop where
  frame : state.frame.Mirrors names known other.frame
  blocks : other.blocks = state.blocks
  counters : other.counters = state.counters
  function : other.function = state.function
  functionCells : other.functionCells = state.functionCells
  returnedOutside : other.returnedOutside = state.returnedOutside

structure Step.Mirrors (names : String → String) (known : Set String) (step other : Step) :
    Prop where
  state : step.state.Mirrors names known other.state
  code : other.code = step.code
  error : Option.Rel (GenerationError.Renamed names) step.error other.error

theorem Step.mirrors_ofEmission {first second : Emission Unit}
    (alike : Emission.Alike names first second) {kept next otherKept otherNext : State}
    (keeping : kept.Mirrors names known otherKept) (going : next.Mirrors names known otherNext) :
    (Step.ofEmission first kept next).Mirrors names known
      (Step.ofEmission second otherKept otherNext) := by
  obtain ⟨code, outcome⟩ := first
  obtain ⟨otherCode, otherOutcome⟩ := second
  obtain ⟨rfl, outcomes⟩ := alike
  cases outcomes with
  | ok value => exact ⟨going, rfl, .none⟩
  | error renamed => exact ⟨keeping, rfl, .some renamed⟩

namespace State

theorem mirrors_start : State.Mirrors names known .start .start :=
  ⟨Frame.mirrors_empty, rfl, rfl, rfl, rfl, rfl⟩

theorem Mirrors.returnJump {state other : State} (mirrors : state.Mirrors names known other) :
    other.returnJump = state.returnJump := by
  rw [State.returnJump, mirrors.function, mirrors.functionCells, mirrors.frame.locals,
    State.returnJump]

theorem Mirrors.openBlock {state other : State} (mirrors : state.Mirrors names known other) :
    state.openBlock.Mirrors names known other.openBlock := by
  rw [State.openBlock, State.openBlock, mirrors.blocks]
  split
  · exact ⟨mirrors, rfl, .none⟩
  · exact ⟨mirrors, rfl, .none⟩
  · exact ⟨mirrors, rfl, .none⟩
  all_goals exact ⟨mirrors, rfl, .some .unmatchedBlock⟩

theorem Mirrors.closeBlock {state other : State} (mirrors : state.Mirrors names known other) :
    state.closeBlock.Mirrors names known other.closeBlock := by
  have closed (rest : List Block) :
      State.Mirrors names known { state with blocks := rest } { other with blocks := rest } :=
    { mirrors with blocks := rfl }
  rw [State.closeBlock, State.closeBlock, mirrors.blocks]
  split
  · exact ⟨closed _, rfl, .none⟩
  · exact ⟨closed _, rfl, .none⟩
  · -- The exit releases the cells of the function, which are counted without names.
    refine ⟨⟨Frame.mirrors_empty, rfl, mirrors.counters, rfl, rfl, mirrors.returnedOutside⟩,
      ?_, .none⟩
    simp only [Step.done, leaveFunction, mirrors.frame.locals]
  · exact ⟨closed _, rfl, .some .unmatchedBlock⟩
  · exact ⟨closed _, rfl, .some .unmatchedBlock⟩
  · exact ⟨mirrors, rfl, .some .unmatchedBlock⟩

/-- A step of a renamed expression does what the step of the expression does. -/
theorem Mirrors.lower (injective : Set.InjOn names known) {state other : State}
    (mirrors : state.Mirrors names known other) {expression renamed : Expression}
    (same : expression.Renamed names renamed)
    (members : ∀ name ∈ expression.variableNames, name ∈ known) :
    (state.lower expression).Mirrors names known (other.lower renamed) := by
  have operands {list : List Operand} (inside : ∀ name ∈ list.flatMap Operand.names, name ∈ known) :
      ∀ operand ∈ list, ∀ name ∈ operand.names, name ∈ known :=
    fun operand member name found => inside name (List.mem_flatMap.mpr ⟨operand, member, found⟩)
  cases same with
  | exportLabel label => exact ⟨mirrors, rfl, .none⟩
  | importLabel label => exact ⟨mirrors, rfl, .none⟩
  | declare name pointer flag length =>
      have member : name ∈ known := members name List.mem_cons_self
      exact ⟨{ mirrors with frame := mirrors.frame.declare injective member length }, rfl, .none⟩
  | branch condition =>
      obtain ⟨left, right⟩ := List.forall_mem_cons.mp (operands members)
      refine Step.mirrors_ofEmission
        (mirrors.frame.compare left (List.forall_mem_singleton.mp right)) mirrors ?_
      exact ⟨mirrors.frame, by simp only [mirrors.blocks, mirrors.counters],
        by simp only [mirrors.counters], mirrors.function, mirrors.functionCells,
        mirrors.returnedOutside⟩
  | loop condition =>
      obtain ⟨left, right⟩ := List.forall_mem_cons.mp (operands members)
      have compared := mirrors.frame.compare left (List.forall_mem_singleton.mp right)
      rw [State.lower, State.lower, State.loop, State.loop, mirrors.counters]
      refine Step.mirrors_ofEmission ((Emission.alike_emit _).bind fun _ => compared)
        { mirrors with counters := rfl } ?_
      exact { mirrors with blocks := by simp only [mirrors.blocks], counters := rfl }
  | openBlock depth => exact mirrors.openBlock
  | closeBlock depth => exact mirrors.closeBlock
  | function name parameters =>
      have frames := Frame.mirrors_ofParameters injective parameters fun parameter member =>
        members parameter.name (List.mem_map_of_mem member)
      refine ⟨⟨frames, ?_, ?_, ?_, mirrors.functionCells, mirrors.returnedOutside⟩, rfl, .none⟩
      · simp only [State.lower, enterFunction, Step.done, mirrors.blocks, mirrors.counters]
      · simp only [State.lower, enterFunction, Step.done, mirrors.counters]
      · simp only [State.lower, enterFunction, Step.done, mirrors.counters]
  | returnValue value =>
      have loaded := mirrors.frame.load 0 .f0 (List.forall_mem_singleton.mp (operands members))
      rw [State.lower, State.lower, State.returnValue, State.returnValue, mirrors.returnJump]
      refine Step.mirrors_ofEmission (loaded.bind fun _ => Emission.alike_emit _) mirrors ?_
      exact { mirrors with
        returnedOutside := by simp only [mirrors.returnedOutside, mirrors.function] }
  | call function arguments destination =>
      exact Step.mirrors_ofEmission (mirrors.frame.call function (operands members)) mirrors mirrors
  | raw mnemonic list =>
      exact Step.mirrors_ofEmission (mirrors.frame.raw mnemonic (operands members)) mirrors mirrors

theorem Mirrors.finish {state other : State} (mirrors : state.Mirrors names known other) :
    Alike names state.finish other.finish := by
  rw [State.finish, State.finish, mirrors.blocks, mirrors.returnedOutside, mirrors.frame.height]
  split
  · exact .error (.unclosedBlocks _)
  · split <;> exact .ok _

end State
end Lowering

/-! Whole programs. -/

namespace Program

open Lowering (State)

variable {names : String → String} {known : Set String} {expressions others : List Expression}

theorem cellsUntilClose_renamed
    (renamed : List.Forall₂ (Expression.Renamed names) expressions others) (opened : Nat) :
    cellsUntilClose opened others = cellsUntilClose opened expressions := by
  induction renamed with
  | nil => rfl
  | cons same _ ih => cases same <;> simp only [cellsUntilClose, ih]

theorem declaredCells_renamed
    (renamed : List.Forall₂ (Expression.Renamed names) expressions others) :
    declaredCells others = declaredCells expressions := by
  induction renamed with
  | nil => rfl
  | cons same rest ih => cases same <;> simp only [declaredCells, ih, cellsUntilClose_renamed rest]

theorem anticipate_renamed (renamed : List.Forall₂ (Expression.Renamed names) expressions others)
    {expression other : Expression} (same : expression.Renamed names other)
    {state otherState : State} (mirrors : state.Mirrors names known otherState) :
    (anticipate state expressions expression).Mirrors names known
      (anticipate otherState others other) := by
  cases same with
  | function name parameters =>
      exact { mirrors with functionCells := declaredCells_renamed renamed }
  | _ => exact mirrors

theorem generateFrom_renamed (injective : Set.InjOn names known)
    (renamed : List.Forall₂ (Expression.Renamed names) expressions others)
    (members : ∀ expression ∈ expressions, ∀ name ∈ expression.variableNames, name ∈ known)
    {state other : State} (mirrors : state.Mirrors names known other) :
    Alike names (generateFrom state expressions) (generateFrom other others) := by
  induction renamed generalizing state other with
  | nil => exact mirrors.finish
  | @cons expression renamed rest others same behind ih =>
      obtain ⟨here, later⟩ := List.forall_mem_cons.mp members
      -- The cells of a function are counted ahead, in what follows its header.
      have stepped := (anticipate_renamed behind same mirrors).lower injective same here
      rw [generateFrom, generateFrom]
      generalize (anticipate state rest expression).lower expression = step at stepped
      generalize (anticipate other others renamed).lower renamed = otherStep at stepped
      obtain ⟨next, code, error⟩ := step
      obtain ⟨otherNext, otherCode, otherError⟩ := otherStep
      obtain ⟨going, rfl, failing⟩ := stepped
      cases failing with
      | some failed => exact .error failed
      | none => exact (ih later going).bind fun _ => .ok _

/-- Other names for the variables of a program, different ones for different variables,
and other marks of pointers leave its code as it is. A program that fails under its own
names fails under the others in the same way. -/
theorem generate_renamed (renamed : List.Forall₂ (Expression.Renamed names) expressions others)
    (injective : Set.InjOn names {name | ∃ expression ∈ expressions,
      name ∈ expression.variableNames}) :
    (∀ code, generate expressions = .ok code ↔ generate others = .ok code) ∧
      ∀ error other, generate expressions = .error error → generate others = .error other →
        error.Renamed names other := by
  have alike : Alike names (generate expressions) (generate others) :=
    generateFrom_renamed injective renamed
      (fun expression member name found => ⟨expression, member, found⟩) Lowering.State.mirrors_start
  exact ⟨alike.eq_ok_iff, fun _ _ => alike.renamed⟩

/-- Two names that change places; one of them is also the function's, and the parameter is
declared again. A use that comes before all declarations fails under both names. -/
theorem generate_renamed_swapped :
    let names : String → String := Equiv.swap "x" "y"
    let expressions : List Expression :=
      [.function "y" [⟨"x", false⟩], .openBlock 1, .declare "y" true 3,
        .raw .ata [.variable "y" (.variable "x" .zero),
          .variable "y" (.variable "y" (.variable "x" .zero))],
        .declare "x" false 1, .returnValue (.variable "x" .zero), .closeBlock 1]
    let others : List Expression :=
      [.function "y" [⟨"y", true⟩], .openBlock 1, .declare "x" false 3,
        .raw .ata [.variable "x" (.variable "y" .zero),
          .variable "x" (.variable "x" (.variable "y" .zero))],
        .declare "y" true 1, .returnValue (.variable "y" .zero), .closeBlock 1]
    let early : Expression := .call "y" [.constant "1"] (.variable "x" (.variable "y" .zero))
    let otherEarly : Expression := .call "y" [.constant "1"] (.variable "y" (.variable "x" .zero))
    (∃ code, generate expressions = .ok code ∧ generate others = .ok code ∧ code.length = 21) ∧
      generate (early :: expressions) = .error (.undefinedVariable "x") ∧
      generate (otherEarly :: others) = .error (.undefinedVariable "y") ∧
      GenerationError.Renamed names (.undefinedVariable "x") (.undefinedVariable "y") := by
  intro names expressions others early otherEarly
  have injective (known : Set String) : Set.InjOn names known :=
    (Equiv.swap "x" "y").injective.injOn
  have renamed : List.Forall₂ (Expression.Renamed names) expressions others :=
    .cons (.function _ (.cons rfl .nil)) <| .cons (.openBlock _) <| .cons (.declare _ _ _ _) <|
      .cons (.raw _ _) <| .cons (.declare _ _ _ _) <| .cons (.returnValue _) <|
        .cons (.closeBlock _) .nil
  have failed : generate (early :: expressions) = .error (.undefinedVariable "x") := by
    decide +kernel
  have otherFailed : generate (otherEarly :: others) = .error (.undefinedVariable "y") := by
    decide +kernel
  refine ⟨?_, failed, otherFailed, ?_⟩
  · have length : (generate expressions).map List.length = .ok 21 := by decide +kernel
    cases generated : generate expressions with
    | error error =>
        rw [generated] at length
        cases length
    | ok code =>
        rw [generated] at length
        exact ⟨code, rfl, ((generate_renamed renamed (injective _)).1 code).mp generated,
          Except.ok.inj length⟩
  · exact (generate_renamed (.cons (.call _ _ _) renamed) (injective _)).2 _ _ failed otherFailed

end Program
end TinkaCompiler
