import TinkaCompiler.Proofs.CallingConvention

/-! Variables never share a cell.

A frame keeps one height for each name and forgets how many cells the name has. The
expressions lowered so far still tell: the latest of them that binds the name gives its
number of cells. With these numbers the cells of two names never overlap, whether names
are bound again, parameters have the same name or functions are entered inside others,
and none of them is the cell that holds the return address. -/

set_option autoImplicit false

namespace TinkaCompiler

def Expression.cellsFor? (name : String) : Expression → Option Nat
  | .declare other _ length => if name = other then some length else none
  | .function _ parameters => if name ∈ parameters.map (·.name) then some 1 else none
  | _ => none

/-- Cells of a name by the latest of some expressions that binds it. The latest comes first. -/
def Expression.latestCells? : List Expression → String → Option Nat
  | [], _ => none
  | expression :: earlier, name => (expression.cellsFor? name).or (latestCells? earlier name)

namespace Frame

variable {frame : Frame} {cells? : String → Option Nat}

structure Holds (frame : Frame) (cells? : String → Option Nat) (name : String) (bound cells : Nat) :
    Prop where
  bound : frame.binding? name = some bound
  cells : cells? name = some cells

/-- All variables lie apart among the cells in use. Each is below the return address or
above it, and where there is none, above the bottom. -/
structure Laid (frame : Frame) (cells? : String → Option Nat) : Prop where
  callerCells : frame.callerCells ≤ frame.height
  counted : ∀ name, (frame.binding? name).isSome → (cells? name).isSome
  within : ∀ name bound cells,
    frame.Holds cells? name bound cells → cells ≤ bound ∧ bound ≤ frame.height
  clear : ∀ name bound cells, frame.Holds cells? name bound cells →
    bound < frame.callerCells ∨ frame.callerCells + cells ≤ bound
  apart : ∀ name bound cells other otherBound otherCells, name ≠ other →
    frame.Holds cells? name bound cells → frame.Holds cells? other otherBound otherCells →
    bound + otherCells ≤ otherBound ∨ otherBound + cells ≤ bound

theorem laid_empty (cells? : String → Option Nat) : empty.Laid cells? where
  callerCells := Nat.le_refl 0
  counted _ found := nomatch found
  within _ _ _ held := nomatch held.bound
  clear _ _ _ held := nomatch held.bound
  apart _ _ _ _ _ _ _ held _ := nomatch held.bound

/-- A variable of a frame in which one more name is bound is the new one, on top, or an
earlier one of another name. -/
theorem holds_declare {name : String} {length : Nat} {other : String} {bound cells : Nat}
    (held : (frame.declare name length).Holds
      (fun other => if other = name then some length else cells? other) other bound cells) :
    other = name ∧ bound = frame.height + length ∧ cells = length ∨
      other ≠ name ∧ frame.Holds cells? other bound cells := by
  obtain ⟨found, counted⟩ := held
  rw [binding?_declare] at found
  by_cases same : other = name
  · rw [if_pos same] at found counted
    exact Or.inl ⟨same, (Option.some.inj found).symm, (Option.some.inj counted).symm⟩
  · rw [if_neg same] at found counted
    exact Or.inr ⟨same, found, counted⟩

theorem Laid.declare (laid : frame.Laid cells?) (name : String) (length : Nat) :
    (frame.declare name length).Laid fun other =>
      if other = name then some length else cells? other where
  callerCells := Nat.le_add_right_of_le laid.callerCells
  counted other found := by
    by_cases same : other = name
    · rw [if_pos same]
      rfl
    · rw [binding?_declare, if_neg same] at found
      rw [if_neg same]
      exact laid.counted other found
  within other bound cells held := by
    show _ ∧ bound ≤ frame.height + length
    rcases holds_declare held with ⟨_, rfl, rfl⟩ | ⟨_, earlier⟩
    · omega
    · have inside := laid.within other bound cells earlier
      omega
  clear other bound cells held := by
    show bound < frame.callerCells ∨ frame.callerCells + cells ≤ bound
    rcases holds_declare held with ⟨_, rfl, rfl⟩ | ⟨_, earlier⟩
    · exact Or.inr (Nat.add_le_add_right laid.callerCells _)
    · exact laid.clear other bound cells earlier
  apart first bound cells second otherBound otherCells different held otherHeld := by
    -- What was bound before lies below the height at which the new name starts.
    rcases holds_declare held with ⟨rfl, rfl, rfl⟩ | ⟨_, earlier⟩ <;>
      rcases holds_declare otherHeld with ⟨rfl, rfl, rfl⟩ | ⟨_, otherEarlier⟩
    · exact absurd rfl different
    · have inside := laid.within _ _ _ otherEarlier
      omega
    · have inside := laid.within _ _ _ earlier
      omega
    · exact laid.apart _ _ _ _ _ _ different earlier otherEarlier

theorem Laid.congr {others? : String → Option Nat} (laid : frame.Laid cells?)
    (same : ∀ name, cells? name = others? name) : frame.Laid others? := by
  obtain rfl : cells? = others? := funext same
  exact laid

theorem Laid.declareAll (laid : frame.Laid cells?) (parameters : List Parameter) :
    (parameters.foldl (fun frame parameter => frame.declare parameter.name 1) frame).Laid
      fun name => if name ∈ parameters.map (·.name) then some 1 else cells? name := by
  induction parameters generalizing frame cells? with
  | nil => exact laid.congr fun name => (if_neg List.not_mem_nil).symm
  | cons parameter rest ih =>
      -- A name may stand twice among the parameters; it has one cell either way.
      apply (ih (laid.declare parameter.name 1)).congr
      intro name
      by_cases later : name ∈ rest.map (·.name)
      · simp [later]
      · by_cases first : name = parameter.name <;> simp [later, first]

/-- Parameters lie below the cell of the return address, which is the last of the
caller's cells. -/
theorem laid_ofParameters (cells? : String → Option Nat) (parameters : List Parameter) :
    (ofParameters parameters).Laid fun name =>
      if name ∈ parameters.map (·.name) then some 1 else cells? name := by
  have laid := (laid_empty cells?).declareAll parameters
  unfold ofParameters
  generalize parameters.foldl (fun frame parameter => frame.declare parameter.name 1) empty =
    bound at laid ⊢
  constructor
  case callerCells => exact Nat.le_refl _
  case counted => exact laid.counted
  case within =>
    intro name height cells held
    have inside := laid.within name height cells ⟨held.bound, held.cells⟩
    exact ⟨inside.1, Nat.le_succ_of_le inside.2⟩
  case clear =>
    intro name height cells held
    have inside := laid.within name height cells ⟨held.bound, held.cells⟩
    exact Or.inl (Nat.lt_succ_of_le inside.2)
  case apart =>
    intro name height cells other otherHeight otherCells different held otherHeld
    exact laid.apart _ _ _ _ _ _ different ⟨held.bound, held.cells⟩
      ⟨otherHeld.bound, otherHeld.cells⟩

open Expression (latestCells?)

theorem Laid.enter {history : List Expression} (laid : frame.Laid (latestCells? history))
    (expression : Expression) :
    (frame.enter expression).Laid (latestCells? (expression :: history)) := by
  cases expression with
  | declare name pointer length =>
      apply (laid.declare name length).congr
      intro other
      by_cases same : other = name <;> simp [latestCells?, Expression.cellsFor?, same]
  | function name parameters =>
      apply (laid_ofParameters (latestCells? history) parameters).congr
      intro other
      by_cases member : other ∈ parameters.map (·.name)
      · rw [if_pos member, latestCells?, Expression.cellsFor?, if_pos member, Option.some_or]
      · rw [if_neg member, latestCells?, Expression.cellsFor?, if_neg member, Option.none_or]
  | _ => exact laid

def offset (frame : Frame) (pushed : Nat) (name : String) (index : Nat) : Nat :=
  (frame.height + pushed - (frame.binding? name).getD 0 + index) * cellSize

/-- A constant position in a variable: below the number of its cells, and with an offset
that fits an address. -/
structure Refers (frame : Frame) (cells? : String → Option Nat) (pushed : Nat)
    (name text : String) (index : Nat) : Prop where
  named : (frame.binding? name).isSome
  cells : ∃ cells, cells? name = some cells ∧ index < cells
  position : Text.Decimal.readBelow? addressLimit text.toList = some index
  fits : frame.offset pushed name index < addressLimit

section Offsets

variable {pushed : Nat} {name text : String} {index : Nat}

theorem Refers.exists_holds (refers : frame.Refers cells? pushed name text index) :
    ∃ bound cells, frame.Holds cells? name bound cells ∧ index < cells ∧
      frame.offset pushed name index = (frame.height + pushed - bound + index) * cellSize := by
  obtain ⟨bound, found⟩ := Option.isSome_iff_exists.mp refers.named
  obtain ⟨cells, counted, below⟩ := refers.cells
  refine ⟨bound, cells, ⟨found, counted⟩, below, ?_⟩
  rw [offset, found, Option.getD_some]

theorem Refers.resolve (refers : frame.Refers cells? pushed name text index)
    (laid : frame.Laid cells?) (scratch : Register) :
    frame.resolve pushed scratch (.variable name (.constant text)) =
      .ok ⟨.cell (frame.offset pushed name index), []⟩ := by
  obtain ⟨bound, cells, held, _, same⟩ := refers.exists_holds
  have inside := laid.within name bound cells held
  have fits := refers.fits
  rw [same] at fits ⊢
  rw [resolve_static scratch text held.bound (Nat.le_add_right_of_le inside.2), refers.position]
  exact if_pos fits

theorem Refers.offset_among (refers : frame.Refers cells? pushed name text index)
    (laid : frame.Laid cells?) :
    cellSize * pushed ≤ frame.offset pushed name index ∧
      frame.offset pushed name index < cellSize * (pushed + frame.height) := by
  obtain ⟨bound, cells, held, below, same⟩ := refers.exists_holds
  have inside := laid.within name bound cells held
  rw [same]
  simp only [cellSize]
  omega

/-- The return address is in the last of the caller's cells. Where there are none, its
offset is the one behind the cells in use. -/
theorem Refers.offset_ne_return (refers : frame.Refers cells? pushed name text index)
    (laid : frame.Laid cells?) :
    frame.offset pushed name index ≠ cellSize * (frame.height + pushed - frame.callerCells) := by
  obtain ⟨bound, cells, held, below, same⟩ := refers.exists_holds
  have inside := laid.within name bound cells held
  have clear := laid.clear name bound cells held
  have caller := laid.callerCells
  rw [same]
  simp only [cellSize]
  omega

theorem Refers.offset_ne {other otherText : String} {otherIndex : Nat}
    (refers : frame.Refers cells? pushed name text index)
    (otherRefers : frame.Refers cells? pushed other otherText otherIndex) (laid : frame.Laid cells?)
    (different : (name, index) ≠ (other, otherIndex)) :
    frame.offset pushed name index ≠ frame.offset pushed other otherIndex := by
  obtain ⟨bound, cells, held, below, same⟩ := refers.exists_holds
  obtain ⟨otherBound, otherCells, otherHeld, otherBelow, otherSame⟩ := otherRefers.exists_holds
  have inside := laid.within name bound cells held
  have otherInside := laid.within other otherBound otherCells otherHeld
  rw [same, otherSame]
  simp only [cellSize]
  by_cases equal : name = other
  · -- Two cells of one variable.
    subst equal
    obtain rfl := Option.some.inj (held.bound.symm.trans otherHeld.bound)
    have indices : index ≠ otherIndex := fun indices => different (by rw [indices])
    omega
  · have apart := laid.apart _ _ _ _ _ _ equal held otherHeld
    omega

end Offsets
end Frame

namespace Lowering.State

open Expression (latestCells?)

/-- States with the expressions lowered so far, the latest first. Steps that failed count. -/
inductive Lowered : List Expression → State → Prop where
  | start : Lowered [] .start
  | lower {history : List Expression} {state : State} (expression : Expression) :
      Lowered history state → Lowered (expression :: history) (state.lower expression).state
  | anticipate {history : List Expression} {state : State} (cells : Nat) :
      Lowered history state → Lowered history { state with functionCells := cells }

theorem Lowered.laid {history : List Expression} {state : State} (lowered : Lowered history state) :
    state.frame.Laid (latestCells? history) := by
  induction lowered with
  | start => exact Frame.laid_empty _
  | @lower history state expression _ ih =>
      rcases state.frame_lower expression with same | ⟨same, _⟩
      · rw [same]
        exact ih.enter expression
      · -- The end of a function forgets all variables.
        rw [same]
        exact Frame.laid_empty _
  | anticipate cells _ ih => exact ih

/-- Every variable that is bound has a number of cells, and each of them is resolved to an
offset in the part of the stack that is in use, other than that of the return address.
Different cells, of one variable or of two, have different offsets. -/
theorem variable_cells_distinct {history : List Expression} {state : State}
    (lowered : Lowered history state) (pushed : Nat) :
    (∀ name, (state.frame.binding? name).isSome → (latestCells? history name).isSome) ∧
      (∀ name text index, state.frame.Refers (latestCells? history) pushed name text index →
        (∀ scratch, state.frame.resolve pushed scratch (.variable name (.constant text)) =
          .ok ⟨.cell (state.frame.offset pushed name index), []⟩) ∧
        cellSize * pushed ≤ state.frame.offset pushed name index ∧
        state.frame.offset pushed name index < cellSize * (pushed + state.frame.height) ∧
        state.frame.offset pushed name index ≠
        cellSize * (state.frame.height + pushed - state.frame.callerCells)) ∧
      ∀ name text index other otherText otherIndex,
        state.frame.Refers (latestCells? history) pushed name text index →
        state.frame.Refers (latestCells? history) pushed other otherText otherIndex →
        (name, index) ≠ (other, otherIndex) →
        state.frame.offset pushed name index ≠ state.frame.offset pushed other otherIndex := by
  have laid := lowered.laid
  refine ⟨laid.counted, ?_, ?_⟩
  · intro name text index refers
    have among := refers.offset_among laid
    exact ⟨refers.resolve laid, among.1, among.2, refers.offset_ne_return laid⟩
  · intro name text index other otherText otherIndex refers otherRefers different
    exact refers.offset_ne otherRefers laid different

/-- A function two of whose parameters have one name, which then means the later one. Its
other parameter is declared again, and two cells have been pushed. -/
theorem variable_cells_distinct_shadowed :
    let history : List Expression := [.declare "b" false 1, .declare "x" true 3,
      .function "f" [⟨"a", false⟩, ⟨"b", true⟩, ⟨"a", false⟩]]
    let state : State := history.foldr
      (fun expression state => (state.lower expression).state) .start
    state.frame.bindings = [("b", 8), ("x", 7), ("a", 3), ("b", 2), ("a", 1)] ∧
      state.frame.resolve 2 .f0 (.variable "x" (.constant "+2")) = .ok ⟨.cell 20, []⟩ ∧
      state.frame.resolve 2 .f0 (.variable "b" .zero) = .ok ⟨.cell 8, []⟩ ∧
      state.frame.resolve 2 .f1 (.variable "a" .zero) = .ok ⟨.cell 28, []⟩ ∧
      cellSize * (state.frame.height + 2 - state.frame.callerCells) = 24 ∧
      state.frame.offset 2 "x" 2 ≠ state.frame.offset 2 "a" 0 := by
  intro history state
  have lowered : Lowered history state := .lower _ (.lower _ (.lower _ .start))
  have bindings : state.frame.bindings = [("b", 8), ("x", 7), ("a", 3), ("b", 2), ("a", 1)] := by
    decide +kernel
  have last : state.frame.Refers (latestCells? history) 2 "x" "+2" 2 :=
    ⟨by decide +kernel, ⟨3, by decide +kernel, by decide⟩, by decide +kernel, by decide +kernel⟩
  have again : state.frame.Refers (latestCells? history) 2 "b" "0" 0 :=
    ⟨by decide +kernel, ⟨1, by decide +kernel, by decide⟩, by decide +kernel, by decide +kernel⟩
  have twice : state.frame.Refers (latestCells? history) 2 "a" "0" 0 :=
    ⟨by decide +kernel, ⟨1, by decide +kernel, by decide⟩, by decide +kernel, by decide +kernel⟩
  obtain ⟨_, resolved, distinct⟩ := variable_cells_distinct lowered 2
  exact ⟨bindings, (resolved _ _ _ last).1 .f0, (resolved _ _ _ again).1 .f0,
    (resolved _ _ _ twice).1 .f1, by decide +kernel, distinct _ _ _ _ _ _ last twice (by decide)⟩

end Lowering.State
end TinkaCompiler
