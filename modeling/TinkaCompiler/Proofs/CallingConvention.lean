import TinkaCompiler.Proofs.Addressing

/-! What caller and callee agree on.

A caller pushes the arguments, takes one more cell for the return address and calls.
The callee was lowered with a frame of its own, and finds parameter and return address
in the cells that the caller filled, however many cells it has taken since. Behind the
call the caller's stack is as high as before, and the result is stored. -/

set_option autoImplicit false

namespace TinkaCompiler

/-! The caller's code. -/

/-- The cell of an argument below the caller's top. The return address follows the
last argument. -/
def argumentCell (top index : Nat) : Nat :=
  top - (index + 1) * cellSize

def Resolved.pushing (resolved : Resolved) : List Instruction :=
  .reserve cellSize :: (resolved.prelude ++ [.move resolved.place .top])

namespace Frame

variable {frame : Frame}

theorem code_push {pushed : Nat} {operand : Operand}
    (success : (frame.push pushed operand).outcome = .ok ()) :
    ∃ resolved, Resolves frame pushed .f0 operand resolved ∧
      (frame.push pushed operand).code = resolved.pushing := by
  obtain ⟨resolved, found, _, code⟩ := Emission.bind_eq_ok success
  exact ⟨resolved, resolves_of_resolve found, code⟩

theorem code_store {name : String} {position : Operand}
    (success : (frame.store (.variable name position)).outcome = .ok ()) :
    ∃ resolved, Resolves frame 0 .f1 (.variable name position) resolved ∧
      (frame.store (.variable name position)).code =
        resolved.prelude ++ [.move (.register .f0) resolved.place] := by
  obtain ⟨place, loaded, _, code⟩ := Emission.bind_eq_ok success
  obtain ⟨resolved, found, _⟩ := Emission.bind_eq_ok loaded
  refine ⟨resolved, resolves_of_resolve found, ?_⟩
  rw [load_of_resolve found] at loaded
  cases loaded
  rw [store, code, load_of_resolve found]
  rfl

theorem code_call {function : String} {arguments : List Operand} {destination : Destination}
    (success : (frame.call function arguments destination).outcome = .ok ()) :
    (frame.pushArguments 0 arguments).outcome = .ok () ∧
      (frame.store destination).outcome = .ok () ∧
        (frame.call function arguments destination).code = (frame.pushArguments 0 arguments).code ++
          .reserve cellSize :: .call function :: .release ((arguments.length + 1) * cellSize) ::
            (frame.store destination).code := by
  obtain ⟨_, pushes, rest, code⟩ := Emission.bind_eq_ok success
  obtain ⟨_, _, stores, behind⟩ := Emission.bind_eq_ok rest
  refine ⟨pushes, stores, ?_⟩
  rw [call, code, behind]
  rfl

theorem isPlain_push {pushed : Nat} {operand : Operand} {resolved : Resolved}
    (resolves : Resolves frame pushed .f0 operand resolved) :
    ∀ instruction ∈ resolved.pushing, instruction.isPlain := by
  rw [Resolved.pushing, List.forall_mem_cons, List.forall_mem_append]
  exact ⟨rfl, resolves.isPlain, by simp [Instruction.isPlain]⟩

theorem isPlain_pushArguments {pushed : Nat} {arguments : List Operand}
    (success : (frame.pushArguments pushed arguments).outcome = .ok ()) :
    ∀ instruction ∈ (frame.pushArguments pushed arguments).code, instruction.isPlain := by
  induction arguments generalizing pushed with
  | nil => exact fun _ member => nomatch member
  | cons argument rest ih =>
      obtain ⟨_, first, behind, code⟩ := Emission.bind_eq_ok success
      obtain ⟨resolved, resolves, pushCode⟩ := code_push first
      rw [pushArguments, code, pushCode, List.forall_mem_append]
      exact ⟨isPlain_push resolves, ih behind⟩

theorem run_push (covers : frame.Covers) {pushed : Nat} {operand : Operand} {resolved : Resolved}
    (resolves : Resolves frame pushed .f0 operand resolved) (target : Target) {machine : Machine}
    (room : cellSize ≤ machine.registers .f5) :
    let after := machine.run target resolved.pushing
    after.registers .f5 + cellSize = machine.registers .f5 ∧
      ∃ value,
        frame.value? target (after.registers .f5 + pushed * cellSize) machine.memory operand =
          some value ∧
        after.memory = Function.update machine.memory (after.registers .f5) value := by
  -- The cell is taken first, so the operand is read from a stack that is one cell higher.
  let lowered := machine.pass target (.reserve cellSize)
  have top : lowered.registers .f5 = machine.registers .f5 - cellSize := rfl
  have prepared := Machine.sameBut_run target lowered resolves.addressing
  have value := resolves.value covers (by decide) (by decide) target lowered
  have still := prepared.registers .f5 (by decide) (by decide)
  have split : machine.run target resolved.pushing =
      (lowered.run target resolved.prelude).pass target (.move resolved.place .top) := by
    rw [Resolved.pushing, Machine.run_cons, Machine.run_append]
    rfl
  have afterTop : (machine.run target resolved.pushing).registers .f5 = lowered.registers .f5 := by
    rw [split]
    exact still
  refine ⟨by rw [afterTop, top]; omega, _, by rw [afterTop]; exact value, ?_⟩
  rw [afterTop, split, ← still]
  exact congrArg (Function.update · _ _) prepared.memory

/-- Arguments above `pushed` cells have been pushed: each is one cell below the one
before it, and holds the value that it had before all the pushes. -/
structure Pushed (frame : Frame) (target : Target) (pushed : Nat) (arguments : List Operand)
    (before after : Machine) : Prop where
  top : after.registers .f5 + arguments.length * cellSize = before.registers .f5
  argument : ∀ index argument, arguments[index]? = some argument →
    frame.value? target (before.registers .f5 + pushed * cellSize) before.memory argument =
      some (after.memory (argumentCell (before.registers .f5) index))
  elsewhere : ∀ address, before.registers .f5 ≤ address ∨ address < after.registers .f5 →
    after.memory address = before.memory address

theorem run_pushArguments (covers : frame.Covers) (target : Target) {pushed : Nat}
    {arguments : List Operand} {machine : Machine}
    (success : (frame.pushArguments pushed arguments).outcome = .ok ())
    (room : arguments.length * cellSize ≤ machine.registers .f5) :
    frame.Pushed target pushed arguments machine
      (machine.run target (frame.pushArguments pushed arguments).code) := by
  induction arguments generalizing pushed machine with
  | nil => exact ⟨rfl, by simp, fun _ _ => rfl⟩
  | cons argument rest ih =>
      obtain ⟨_, first, behind, code⟩ := Emission.bind_eq_ok success
      obtain ⟨resolved, resolves, pushCode⟩ := code_push first
      rw [pushArguments, code, pushCode, Machine.run_append]
      rw [List.length_cons] at room
      have one : cellSize ≤ machine.registers .f5 := by
        simp only [cellSize] at *
        omega
      obtain ⟨top, value, given, stored⟩ := run_push covers resolves target one
      generalize machine.run target resolved.pushing = middle at *
      have pushes := @ih _ middle behind (by simp only [cellSize] at *; omega)
      -- One cell lower with one more cell pushed, the frame begins at the same address.
      have base : middle.registers .f5 + (pushed + 1) * cellSize =
          machine.registers .f5 + pushed * cellSize := by
        simp only [cellSize] at *
        omega
      -- The frame lies above all cells that are pushed.
      have framed : ∀ address, machine.registers .f5 + pushed * cellSize ≤ address →
          middle.memory address = machine.memory address := by
        intro address above
        rw [stored, Function.update_of_ne]
        simp only [cellSize] at *
        omega
      constructor
      · have below := pushes.top
        simp only [List.length_cons, cellSize] at *
        omega
      · intro index other found
        cases index with
        | zero =>
            cases found
            have cell : argumentCell (machine.registers .f5) 0 = middle.registers .f5 := by
              rw [argumentCell]
              omega
            rw [cell, ← base, given, pushes.elsewhere _ (Or.inl (Nat.le_refl _)), stored,
              Function.update_self]
        | succ index =>
            have later := pushes.argument index other found
            rw [base, frame.value?_congr target framed] at later
            rw [later]
            congr 2
            simp only [argumentCell, cellSize] at *
            omega
      · intro address outside
        have below := pushes.top
        have other : address ≠ middle.registers .f5 := by
          simp only [cellSize] at *
          omega
        rw [pushes.elsewhere address (outside.imp_left (by omega)), stored,
          Function.update_of_ne other]

end Frame

namespace Lowering

theorem Step.frame_ofEmission (emission : Emission Unit) {kept next : State}
    (same : kept.frame = next.frame) :
    (Step.ofEmission emission kept next).state.frame = next.frame := by
  unfold Step.ofEmission
  cases emission.outcome with
  | ok _ => rfl
  | error _ => exact same

theorem Step.outcome_of_error_eq_none {emission : Emission Unit} {kept next : State}
    (success : (Step.ofEmission emission kept next).error = none) : emission.outcome = .ok () := by
  unfold Step.ofEmission at success
  cases outcome : emission.outcome with
  | ok _ => rfl
  | error _ => simp [outcome] at success

namespace State

/-- A step changes the frame as its expression says, also if it fails, or leaves the
function. -/
theorem frame_lower (state : State) (expression : Expression) :
    (state.lower expression).state.frame = state.frame.enter expression ∨
      (state.lower expression).state.frame = .empty ∧
      (state.lower expression).state.function = none := by
  cases expression with
  | exportLabel label => exact Or.inl rfl
  | importLabel label => exact Or.inl rfl
  | declare name pointer length => exact Or.inl rfl
  | function name parameters => exact Or.inl rfl
  | call function arguments destination =>
      exact Or.inl (congrArg frame (state.state_leaf (.call function arguments destination)))
  | raw mnemonic operands =>
      exact Or.inl (congrArg frame (state.state_leaf (.raw mnemonic operands)))
  | branch condition => exact Or.inl (Step.frame_ofEmission _ rfl)
  | loop condition => exact Or.inl (Step.frame_ofEmission _ rfl)
  | returnValue value => exact Or.inl (Step.frame_ofEmission _ rfl)
  | openBlock depth =>
      left
      rw [lower, openBlock]
      split <;> rfl
  | closeBlock depth =>
      rw [lower, closeBlock]
      split
      · exact Or.inl rfl
      · exact Or.inl rfl
      -- The closer of the function itself.
      · exact Or.inr ⟨rfl, rfl⟩
      all_goals exact Or.inl rfl

inductive Reachable : State → Prop where
  | start : Reachable .start
  | lower {state : State} (expression : Expression) :
      Reachable state → Reachable (state.lower expression).state
  /-- The cells of a function are counted before its header. -/
  | anticipate {state : State} (cells : Nat) :
      Reachable state → Reachable { state with functionCells := cells }

theorem Reachable.covers {state : State} (reachable : state.Reachable) : state.frame.Covers := by
  induction reachable with
  | start => exact Frame.covers_empty
  | @lower state expression _ ih =>
      rcases state.frame_lower expression with same | ⟨same, _⟩
      · rw [same]
        exact ih.enter expression
      · rw [same]
        exact Frame.covers_empty
  | anticipate cells _ ih => exact ih

/-- States between the header of a function and its end, with what was lowered since
the header. -/
inductive Within (entered : State) : List Expression → State → Prop where
  | header : Within entered [] entered
  | lower {done : List Expression} {state : State} {expression : Expression} :
      Within entered done state → expression.isFunction = false →
      (state.lower expression).state.function.isSome →
      Within entered (done ++ [expression]) (state.lower expression).state

end State
end Lowering

/-! The callee's frame. -/

namespace Frame

/-- A frame of a function in which some expressions have been lowered. Each parameter
is bound to its place among the caller's cells, unless it has been declared again. -/
structure Serves (parameters : List Parameter) (done : List Expression) (frame : Frame) : Prop where
  callerCells : frame.callerCells = parameters.length + 1
  height : frame.callerCells ≤ frame.height
  bound : ∀ index parameter, parameters[index]? = some parameter →
    (∀ pointer length, .declare parameter.name pointer length ∉ done) →
    frame.binding? parameter.name = some (index + 1)

theorem binding?_declareAll_of_notMem (frame : Frame) {parameters : List Parameter} {name : String}
    (other : name ∉ parameters.map (·.name)) :
    (parameters.foldl (fun frame parameter => frame.declare parameter.name 1) frame).binding? name =
      frame.binding? name := by
  induction parameters generalizing frame with
  | nil => rfl
  | cons parameter rest ih =>
      rw [List.map_cons, List.mem_cons, not_or] at other
      rw [List.foldl_cons, ih _ other.2, binding?_declare, if_neg other.1]

theorem binding?_declareAll (frame : Frame) {parameters : List Parameter}
    (distinct : (parameters.map (·.name)).Nodup) {index : Nat} {parameter : Parameter}
    (found : parameters[index]? = some parameter) :
    (parameters.foldl (fun frame parameter => frame.declare parameter.name 1) frame).binding?
      parameter.name = some (frame.height + index + 1) := by
  induction parameters generalizing frame index with
  | nil => cases found
  | cons first rest ih =>
      rw [List.map_cons, List.nodup_cons] at distinct
      rw [List.foldl_cons]
      cases index with
      | zero =>
          -- No later parameter has the name of the first.
          cases found
          rw [binding?_declareAll_of_notMem _ distinct.1, binding?_declare, if_pos rfl]
      | succ index =>
          have shifted : frame.height + 1 + index + 1 = frame.height + (index + 1) + 1 := by omega
          exact (ih (frame.declare first.name 1) distinct.2 found).trans (congrArg some shifted)

theorem height_declareAll (frame : Frame) (parameters : List Parameter) :
    (parameters.foldl (fun frame parameter => frame.declare parameter.name 1) frame).height =
      frame.height + parameters.length := by
  induction parameters generalizing frame with
  | nil => rfl
  | cons parameter rest ih =>
      rw [List.foldl_cons, ih, List.length_cons, Nat.add_comm rest.length, ← Nat.add_assoc]
      rfl

theorem serves_ofParameters {parameters : List Parameter}
    (distinct : (parameters.map (·.name)).Nodup) :
    (ofParameters parameters).Serves parameters [] where
  callerCells := by
    show _ + 1 = _
    rw [height_declareAll, empty, Nat.zero_add]
  height := Nat.le_refl _
  bound index parameter found _ := by
    have bound := binding?_declareAll empty distinct found
    rwa [show empty.height + index + 1 = index + 1 by rw [empty, Nat.zero_add]] at bound

theorem Serves.enter {parameters : List Parameter} {done : List Expression} {frame : Frame}
    (serves : frame.Serves parameters done) {expression : Expression}
    (inside : expression.isFunction = false) :
    (frame.enter expression).Serves parameters (done ++ [expression]) := by
  have earlier {name : String}
      (fresh : ∀ pointer length, .declare name pointer length ∉ done ++ [expression]) :
      ∀ pointer length, .declare name pointer length ∉ done := by
    intro pointer length member
    exact fresh pointer length (List.mem_append_left _ member)
  cases expression with
  | declare name pointer length =>
      refine ⟨serves.callerCells, Nat.le_add_right_of_le serves.height,
        fun index parameter found fresh => ?_⟩
      rw [Frame.enter, binding?_declare, if_neg]
      · exact serves.bound index parameter found (earlier fresh)
      · rintro same
        exact fresh pointer length (by simp [same])
  | function name parameters => cases inside
  | _ => exact ⟨serves.callerCells, serves.height, fun index parameter found fresh =>
      serves.bound index parameter found (earlier fresh)⟩

end Frame

namespace Lowering.State

theorem Within.serves {callee inner : State} {name : String} {parameters : List Parameter}
    {done : List Expression} (distinct : (parameters.map (·.name)).Nodup)
    (within : (callee.lower (.function name parameters)).state.Within done inner) :
    inner.frame.Serves parameters done := by
  induction within with
  | header => exact Frame.serves_ofParameters distinct
  | @lower done state expression _ other inside ih =>
      rcases state.frame_lower expression with same | ⟨_, outside⟩
      · rw [same]
        exact ih.enter other
      · rw [outside] at inside
        cases inside

end Lowering.State

/-! Control goes to the callee and comes back. -/

namespace Machine

open StateTransition (Reaches)
open Lowering (State)

section Steps

variable (target : Target) {program : List Instruction} {machine : Machine}

theorem step_call {function : String} {start : Nat}
    (here : program[machine.registers .xx]? = some (.call function))
    (found : Program.entry? program (.named function) = some start) :
    machine.step target program =
      some ((machine.setCell (machine.registers .f5) (machine.registers .xx + 1)).set
        .xx start) := by
  simp [step, here, next, found, effect]

theorem step_jumpBack (here : program[machine.registers .xx]? = some .jumpBack) :
    machine.step target program =
      some (machine.set .xx (machine.memory (machine.registers .f5))) := by
  simp [step, here, next, effect]

end Steps

/-- A callee is entered with the arguments in their cells and the line behind the call
in the cell for the return address. The caller's cells are as before. -/
structure Called (target : Target) (frame : Frame) (program : List Instruction) (function : String)
    (arguments : List Operand) (before entered : Machine) : Prop where
  start : Program.entry? program (.named function) = some (entered.registers .xx)
  top : entered.registers .f5 = argumentCell (before.registers .f5) arguments.length
  argument : ∀ index argument, arguments[index]? = some argument →
    frame.value? target (before.registers .f5) before.memory argument =
      some (entered.memory (argumentCell (before.registers .f5) index))
  returnLine : ∃ line, program[line]? = some (.call function) ∧
    entered.memory (argumentCell (before.registers .f5) arguments.length) = line + 1
  above : ∀ address, before.registers .f5 ≤ address → entered.memory address = before.memory address

theorem reaches_called {frame : Frame} (covers : frame.Covers) (target : Target)
    {program tail : List Instruction} {function : String} {arguments : List Operand}
    {destination : Destination} {before : Machine} {start : Nat}
    (success : (frame.call function arguments destination).outcome = .ok ())
    (placed : program.drop (before.registers .xx) =
      (frame.call function arguments destination).code ++ tail)
    (found : Program.entry? program (.named function) = some start)
    (room : (arguments.length + 1) * cellSize ≤ before.registers .f5) :
    ∃ entered, Reaches (step target program) before entered ∧
      Called target frame program function arguments before entered ∧
      program.drop (entered.memory (argumentCell (before.registers .f5) arguments.length)) =
        .release ((arguments.length + 1) * cellSize) :: ((frame.store destination).code ++ tail) ∧
      entered.memory (argumentCell (before.registers .f5) arguments.length) + 1 +
        (frame.store destination).code.length =
          before.registers .xx + (frame.call function arguments destination).code.length := by
  obtain ⟨pushes, _, code⟩ := Frame.code_call success
  have pushed := Frame.run_pushArguments covers target pushes
    (Nat.le_trans (Nat.mul_le_mul_right _ (Nat.le_succ _)) room)
  have pushedTop := pushed.top
  -- Behind the pushes one more cell is taken.
  let pushCode := (frame.pushArguments 0 arguments).code ++ [.reserve cellSize]
  let calling := before.run target pushCode
  have memory : calling.memory =
      (before.run target (frame.pushArguments 0 arguments).code).memory := by
    rw [show calling = _ from run_append _ _ _ _]
    rfl
  have top : calling.registers .f5 = argumentCell (before.registers .f5) arguments.length := by
    have taken : calling.registers .f5 =
        (before.run target (frame.pushArguments 0 arguments).code).registers .f5 - cellSize := by
      rw [show calling = _ from run_append _ _ _ _]
      rfl
    simp only [argumentCell, cellSize] at *
    omega
  have plain : ∀ instruction ∈ pushCode, instruction.isPlain := by
    rw [List.forall_mem_append]
    exact ⟨Frame.isPlain_pushArguments pushes, by simp [Instruction.isPlain]⟩
  have split : program.drop (before.registers .xx) = pushCode ++ .call function ::
      .release ((arguments.length + 1) * cellSize) :: ((frame.store destination).code ++ tail) := by
    simp [placed, code, pushCode]
  have atCall := drop_run target split
  have called := step_call target (getElem?_of_drop atCall) found
  refine ⟨_, (reaches_run target plain split).tail called, ?_, ?_, ?_⟩
  · constructor
    · simpa using found
    · simpa using top
    · intro index argument given
      -- The return address is stored behind the last argument.
      have earlier : index < arguments.length := (List.getElem?_eq_some_iff.mp given).1
      have other : argumentCell (before.registers .f5) index ≠ calling.registers .f5 := by
        rw [top]
        simp only [argumentCell, cellSize] at *
        omega
      have value := pushed.argument index argument given
      rw [Nat.zero_mul, Nat.add_zero] at value
      rw [set_memory, setCell_memory, Function.update_of_ne other, memory]
      exact value
    · refine ⟨_, getElem?_of_drop atCall, ?_⟩
      rw [set_memory, setCell_memory, ← top, Function.update_self]
    · intro address above
      have other : address ≠ calling.registers .f5 := by
        rw [top]
        simp only [argumentCell, cellSize] at *
        omega
      rw [set_memory, setCell_memory, Function.update_of_ne other, memory]
      exact pushed.elsewhere address (Or.inl above)
  · rw [set_memory, setCell_memory, ← top, Function.update_self]
    exact drop_of_append [_] atCall
  · rw [set_memory, setCell_memory, ← top, Function.update_self, line_run, code]
    simp only [pushCode, List.length_append, List.length_cons, List.length_nil]
    omega

/-- The caller goes on with its stack as high as before, and `f0` has been stored in the
cell of the destination, and nowhere else. -/
structure Resumed (frame : Frame) (destination : Destination) (top : Nat)
    (returned last : Machine) : Prop where
  restored : last.registers .f5 = top
  stored : match destination with
    | .discard => last.memory = returned.memory
    | .variable name position => ∃ address,
      frame.address? top returned.memory (.variable name position) = some address ∧
      last.memory = Function.update returned.memory address (returned.registers .f0)

theorem reaches_resumed {frame : Frame} (covers : frame.Covers) (target : Target)
    {program tail : List Instruction} {destination : Destination} {returned : Machine} {bytes : Nat}
    (success : (frame.store destination).outcome = .ok ())
    (placed : program.drop (returned.registers .xx) =
      .release bytes :: ((frame.store destination).code ++ tail)) :
    ∃ last, Reaches (step target program) returned last ∧
      last.registers .xx = returned.registers .xx + 1 + (frame.store destination).code.length ∧
      Resumed frame destination (returned.registers .f5 + bytes) returned last := by
  let released := returned.pass target (.release bytes)
  have split : program.drop (returned.registers .xx) =
    .release bytes :: (frame.store destination).code ++ tail := placed
  cases destination with
  | discard =>
      exact ⟨_, @reaches_run target _ _ [.release bytes] _ (by simp [Instruction.isPlain]) split,
        rfl, rfl, rfl⟩
  | «variable» name position =>
      obtain ⟨resolved, resolves, code⟩ := Frame.code_store success
      rw [code] at split
      have plain :
          ∀ instruction ∈ .release bytes ::
            (resolved.prelude ++ [.move (.register .f0) resolved.place]), instruction.isPlain := by
        rw [List.forall_mem_cons, List.forall_mem_append]
        exact ⟨rfl, resolves.isPlain, by simp [Instruction.isPlain]⟩
      refine ⟨_, reaches_run target plain split, ?_, ?_⟩
      · rw [line_run, code, List.length_cons]
        omega
      have prepared := sameBut_run target released resolves.addressing
      obtain ⟨address, found⟩ := resolves.exists_address rfl (released.run target resolved.prelude)
      have cell := resolves.address covers (by decide) (by decide) target released
      rw [found, Nat.zero_mul, Nat.add_zero] at cell
      -- The result is still in `f0`, since the address was computed in `f1`.
      have result := prepared.registers .f0 (by decide) (by decide)
      rw [run_cons, run_append, run_cons, run_nil, pass, effect, read, result,
        write_of_address found]
      constructor
      · exact prepared.registers .f5 (by decide) (by decide)
      · exact ⟨address, cell.symm, congrArg (Function.update · address _) prepared.memory⟩

theorem run_releaseCells (target : Target) (machine : Machine) (cells : Nat) :
    let after := machine.run target (Instruction.releaseCells cells)
    after.registers .f5 = machine.registers .f5 + cells * cellSize ∧ SameBut .f5 machine after := by
  unfold Instruction.releaseCells
  split
  · refine ⟨rfl, rfl, rfl, fun held other moved => ?_⟩
    simp [pass, effect, Function.update_of_ne moved, Function.update_of_ne other]
  · have none : cells = 0 := by omega
    rw [none, Nat.zero_mul]
    exact ⟨rfl, rfl, rfl, fun _ _ _ => rfl⟩

/-- The exit of a function releases its cells and goes where the cell behind them says. -/
theorem reaches_left (target : Target) {program tail : List Instruction}
    {inside : Machine} {inner : State} {ordinal : Nat}
    (placed : program.drop (inside.registers .xx) = inner.leaveFunction ordinal ++ tail)
    {cell : Nat} (moved : inside.registers .f5 + inner.frame.locals * cellSize = cell) :
    ∃ left, Reaches (step target program) inside left ∧ left.registers .f5 = cell ∧
      left.registers .xx = inside.memory cell ∧ left.registers .f0 = inside.registers .f0 ∧
      left.memory = inside.memory := by
  let code : List Instruction :=
    .define (.functionExit ordinal) :: Instruction.releaseCells inner.frame.locals
  have split : program.drop (inside.registers .xx) = code ++ .jumpBack :: tail := by
    simp [placed, State.leaveFunction, code]
  have plain : ∀ instruction ∈ code, instruction.isPlain := by
    simp only [code, Instruction.releaseCells]
    split <;> simp [Instruction.isPlain]
  have back := step_jumpBack target (getElem?_of_drop (drop_run target split))
  obtain ⟨top, same⟩ := run_releaseCells target
    (inside.pass target (.define (.functionExit ordinal))) inner.frame.locals
  refine ⟨_, (reaches_run target plain split).tail back, top.trans moved, ?_,
    same.registers .f0 (by decide) (by decide), same.memory⟩
  rw [set_registers, Function.update_self]
  exact (congrFun same.memory _).trans (congrArg inside.memory (top.trans moved))

end Machine

/-! Both sides together. -/

namespace Frame

theorem Serves.parameter {frame : Frame} {parameters : List Parameter} {done : List Expression}
    (serves : frame.Serves parameters done) {index : Nat} {parameter : Parameter}
    (found : parameters[index]? = some parameter)
    (fresh : ∀ pointer length, .declare parameter.name pointer length ∉ done) {inside : Machine}
    {top pushed : Nat} (room : (parameters.length + 1) * cellSize ≤ top)
    (moved : inside.registers .f5 + (frame.locals + pushed) * cellSize =
      argumentCell top parameters.length)
    (scratch : Register) :
    (∀ resolved, frame.resolve pushed scratch (.variable parameter.name .zero) = .ok resolved →
        resolved.prelude = [] ∧ inside.address? resolved.place = some (argumentCell top index)) ∧
      (top ≤ addressLimit → ∃ resolved,
        frame.resolve pushed scratch (.variable parameter.name .zero) = .ok resolved) := by
  have earlier : index < parameters.length := (List.getElem?_eq_some_iff.mp found).1
  have bound := serves.bound index parameter found fresh
  have callerCells := serves.callerCells
  have height := serves.height
  have covered : index + 1 ≤ frame.height + pushed := by omega
  -- What the function has taken since cancels out against the height of its frame.
  have place : inside.registers .f5 + (frame.height + pushed - (index + 1) + 0) * cellSize =
      argumentCell top index := by
    simp only [argumentCell, locals, cellSize] at *
    omega
  have zero : Text.Decimal.readBelow? addressLimit "0".toList = some 0 := by decide
  rw [Operand.zero, resolve_static scratch "0" bound covered]
  simp only [zero]
  constructor
  · intro resolved success
    split at success
    · cases success
      exact ⟨rfl, congrArg some place⟩
    · cases success
  · intro limited
    refine ⟨_, if_pos ?_⟩
    simp only [argumentCell, cellSize] at *
    omega

end Frame

namespace Lowering

open StateTransition (Reaches)

/-- A state of a function finds what a caller with its top at `top` has left: the
parameters, when the stack has grown by the cells of the function and by some more, and
behind the function's own cells the return address. -/
structure FindsFrame (target : Target) (program : List Instruction) (parameters : List Parameter)
    (done : List Expression) (inner : State) (top : Nat) : Prop where
  parameter : ∀ (inside : Machine) (pushed : Nat),
    inside.registers .f5 + (inner.frame.locals + pushed) * cellSize =
      argumentCell top parameters.length →
    ∀ index parameter, parameters[index]? = some parameter →
      (∀ pointer length, .declare parameter.name pointer length ∉ done) → ∀ scratch,
        (∀ resolved,
          inner.frame.resolve pushed scratch (.variable parameter.name .zero) = .ok resolved →
          resolved.prelude = [] ∧
          inside.address? resolved.place = some (argumentCell top index)) ∧
        (top ≤ addressLimit → ∃ resolved,
          inner.frame.resolve pushed scratch (.variable parameter.name .zero) = .ok resolved)
  exit : ∀ inside : Machine,
    inside.registers .f5 + inner.frame.locals * cellSize = argumentCell top parameters.length →
    ∀ name ordinal outer depth, inner.blocks = .function name ordinal :: outer →
      (inner.lower (.closeBlock depth)).code <+: program.drop (inside.registers .xx) →
      ∃ left, Reaches (Machine.step target program) inside left ∧
        left.registers .f5 = argumentCell top parameters.length ∧
        left.registers .xx = inside.memory (argumentCell top parameters.length) ∧
        left.registers .f0 = inside.registers .f0 ∧ left.memory = inside.memory

theorem State.Within.findsFrame {callee inner : State} {name : String} {parameters : List Parameter}
    {done : List Expression} (distinct : (parameters.map (·.name)).Nodup)
    (within : (callee.lower (.function name parameters)).state.Within done inner) (target : Target)
    (program : List Instruction) {top : Nat} (room : (parameters.length + 1) * cellSize ≤ top) :
    FindsFrame target program parameters done inner top where
  parameter inside pushed moved index parameter found fresh scratch :=
    (within.serves distinct).parameter found fresh room moved scratch
  exit inside moved function ordinal outer depth blocks placed := by
    obtain ⟨tail, split⟩ := placed
    have code : (inner.lower (.closeBlock depth)).code = inner.leaveFunction ordinal := by
      rw [State.lower, State.closeBlock, blocks]
      rfl
    rw [code] at split
    exact Machine.reaches_left target split.symm moved

/-- A caller and a callee with as many parameters as the call has arguments agree on
the cells between their frames. -/
theorem call_frames_agree {caller : State} (reachable : caller.Reachable) {function : String}
    {arguments : List Operand} {destination : Destination}
    (lowered : (caller.lower (.call function arguments destination)).error = none)
    {parameters : List Parameter} (count : parameters.length = arguments.length)
    (distinct : (parameters.map (·.name)).Nodup) (target : Target) {program : List Instruction}
    {before : Machine} {start : Nat} (found : Program.entry? program (.named function) = some start)
    (placed : (caller.lower (.call function arguments destination)).code <+:
      program.drop (before.registers .xx))
    (room : (arguments.length + 1) * cellSize ≤ before.registers .f5) :
    let top := before.registers .f5
    let returnCell := argumentCell top arguments.length
    ∃ entered, Reaches (Machine.step target program) before entered ∧
      Machine.Called target caller.frame program function arguments before entered ∧
      (∀ callee done inner,
        State.Within (State.lower callee (.function function parameters)).state done inner →
        FindsFrame target program parameters done inner top) ∧
      ∀ returned : Machine, returned.registers .f5 = returnCell →
        returned.registers .xx = entered.memory returnCell → ∃ last,
          Reaches (Machine.step target program) returned last ∧
          last.registers .xx = before.registers .xx +
            (caller.lower (.call function arguments destination)).code.length ∧
          Machine.Resumed caller.frame destination top returned last := by
  intro top returnCell
  obtain ⟨tail, split⟩ := placed
  have code : (caller.lower (.call function arguments destination)).code =
      (caller.frame.call function arguments destination).code := Step.code_ofEmission _ _ _
  have success : (caller.frame.call function arguments destination).outcome = .ok () :=
    Step.outcome_of_error_eq_none lowered
  rw [code] at split ⊢
  obtain ⟨entered, reaches, called, behind, line⟩ :=
    Machine.reaches_called reachable.covers target success split.symm found room
  refine ⟨entered, reaches, called, fun callee done inner within => ?_, fun returned low back => ?_⟩
  · exact within.findsFrame distinct target program (by rwa [count])
  · rw [← back] at behind line
    obtain ⟨last, resumes, position, resumed⟩ :=
      Machine.reaches_resumed reachable.covers target (Frame.code_call success).2.1 behind
    -- The release gives back what the pushes and the call have taken.
    have restored : returned.registers .f5 + (arguments.length + 1) * cellSize = top := by
      rw [low]
      exact Nat.sub_add_cancel room
    rw [restored] at resumed
    exact ⟨last, resumes, position.trans line, resumed⟩

/-- A call with an argument whose address is computed at run time. The callee has taken
five cells when it reads its second parameter. -/
theorem call_frames_agree_moved_argument :
    let target : Target := ⟨String.length, fun _ _ _ => false, fun _ _ machine => machine⟩
    let x := Operand.variable "x" (.variable "a" .zero)
    let caller :=
      ((State.start.lower (.function "m" [⟨"a", false⟩])).state.lower (.declare "x" true 2)).state
    let call := Expression.call "g" [.constant "333", x] (.variable "x" (.constant "1"))
    let parameters : List Parameter := [⟨"p", false⟩, ⟨"q", false⟩]
    let inner :=
      ((State.start.lower (.function "g" parameters)).state.lower (.declare "l" true 5)).state
    let program := (caller.lower call).code ++ [.define (.named "g")]
    let before : Machine :=
      ⟨fun held => if held = .f5 then 100 else 0, fun cell => if cell = 112 then 1 else cell, false⟩
    ∃ entered, Reaches (Machine.step target program) before entered ∧ entered.registers .f5 = 88 ∧
      entered.memory 96 = 3 ∧ entered.memory 92 = 104 ∧
      ∀ inside : Machine, inside.registers .f5 = 68 →
        ∃ resolved, inner.frame.resolve 0 .f0 (.variable "q" .zero) = .ok resolved ∧
          inside.address? resolved.place = some 92 := by
  intro target x caller call parameters inner program before
  have reachable : caller.Reachable := .lower _ (.lower _ .start)
  have within : State.Within (State.start.lower (.function "g" parameters)).state
      [.declare "l" true 5] inner :=
    .lower .header rfl rfl
  obtain ⟨entered, reaches, called, finds, _⟩ :=
    @call_frames_agree caller reachable "g" [.constant "333", x] (.variable "x" (.constant "1"))
      (by decide +kernel) parameters rfl (by decide) target program before _
      (show Program.entry? program (.named "g") = some 11 by decide +kernel)
      (List.prefix_append _ _) (by decide)
  have first := called.argument 0 _ rfl
  have second := called.argument 1 _ rfl
  refine ⟨entered, reaches, called.top, ?_, ?_, fun inside low => ?_⟩
  · exact (Option.some.inj first).symm
  · have value : caller.frame.value? target (before.registers .f5) before.memory x = some 104 := by
      decide +kernel
    exact Option.some.inj (second.symm.trans value)
  · obtain ⟨denotes, succeeds⟩ :=
      (finds State.start _ inner within).parameter inside 0 (by rw [low]; decide +kernel) 1 _ rfl
        (by simp) .f0
    obtain ⟨resolved, success⟩ := succeeds (by decide)
    exact ⟨resolved, success, (denotes resolved success).2⟩

end Lowering
end TinkaCompiler
