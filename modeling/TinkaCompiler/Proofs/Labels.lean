import TinkaCompiler.Proofs.Layout
import TinkaCompiler.Proofs.StraightCode

/-! Labels that the lowering hands out.

Generated labels differ in their text. Each of them is defined at most once in a
program, because its number lies between the counters before and after the part of
the program it belongs to. -/

set_option autoImplicit false

namespace TinkaCompiler

namespace Label

def isGenerated : Label → Bool
  | .named _ => false
  | .branchEnd _ | .loopHead _ | .loopExit _ | .functionExit _ => true

theorem toDigits_injective {first second : Nat}
    (same : Nat.toDigits 10 first = Nat.toDigits 10 second) :
    first = second := by
  have value := congrArg (fun digits => Nat.ofDigitChars 10 digits 0) same
  simpa using value

/-- A number does not start with the mark that sets the head of a loop apart from
its exit. -/
theorem toDigits_ne_mark (number : Nat) (rest : List Char) :
    Nat.toDigits 10 number ≠ '-' :: rest := by
  intro same
  have digit : Char.isDigit '-' :=
    Nat.isDigit_of_mem_toDigits (by decide) (by decide) (same ▸ List.mem_cons_self)
  cases digit

theorem eq_of_render {first second : Label} (firstGenerated : first.isGenerated)
    (secondGenerated : second.isGenerated) (same : first.render = second.render) :
    first = second := by
  have text := congrArg String.toList same
  -- Labels of different kinds differ in their words, except for the two of a loop.
  cases first <;> cases second <;>
    simp [render, isGenerated] at firstGenerated secondGenerated text ⊢
  case branchEnd.branchEnd => exact toDigits_injective text
  case loopHead.loopHead => exact toDigits_injective text
  case loopHead.loopExit => exact toDigits_ne_mark _ _ text.symm
  case loopExit.loopHead => exact toDigits_ne_mark _ _ text
  case loopExit.loopExit => exact toDigits_injective text
  case functionExit.functionExit => exact toDigits_injective text

end Label

structure Counters.UpTo (first last : Counters) : Prop where
  branches : first.branches ≤ last.branches
  loopHeads : first.loopHeads ≤ last.loopHeads
  loopExits : first.loopExits ≤ last.loopExits
  functions : first.functions ≤ last.functions

theorem Counters.UpTo.refl (counters : Counters) : counters.UpTo counters :=
  ⟨Nat.le_refl _, Nat.le_refl _, Nat.le_refl _, Nat.le_refl _⟩

theorem Counters.UpTo.trans {first middle last : Counters} (start : first.UpTo middle)
    (rest : middle.UpTo last) : first.UpTo last :=
  ⟨Nat.le_trans start.branches rest.branches, Nat.le_trans start.loopHeads rest.loopHeads,
    Nat.le_trans start.loopExits rest.loopExits, Nat.le_trans start.functions rest.functions⟩

namespace Label

def Within (first last : Counters) : Label → Prop
  | .named _ => False
  | .branchEnd number => first.branches ≤ number ∧ number < last.branches
  | .loopHead number => first.loopHeads ≤ number ∧ number < last.loopHeads
  | .loopExit number => first.loopExits ≤ number ∧ number < last.loopExits
  | .functionExit ordinal => first.functions < ordinal ∧ ordinal ≤ last.functions

theorem Within.mono {first last lower upper : Counters} {label : Label}
    (within : label.Within first last) (below : lower.UpTo first) (above : last.UpTo upper) :
    label.Within lower upper := by
  obtain ⟨_, _, _, _⟩ := below
  obtain ⟨_, _, _, _⟩ := above
  cases label <;> simp only [Within] at within ⊢ <;> omega

theorem Within.disjoint {first middle last : Counters} {label : Label}
    (early : label.Within first middle) (late : label.Within middle last) : False := by
  cases label <;> simp only [Within] at early late <;> omega

/-- Labels that were handed out between two counts, each of them once. -/
structure Fresh (first last : Counters) (labels : List Label) : Prop where
  order : first.UpTo last
  within : ∀ label ∈ labels, label.Within first last
  nodup : labels.Nodup

theorem Fresh.nil (counters : Counters) : Fresh counters counters [] :=
  ⟨.refl counters, by simp, List.nodup_nil⟩

theorem Fresh.append {first middle last : Counters} {early late : List Label}
    (start : Fresh first middle early) (rest : Fresh middle last late) :
    Fresh first last (early ++ late) where
  order := start.order.trans rest.order
  within := by
    rw [List.forall_mem_append]
    exact ⟨fun label member => (start.within label member).mono (.refl first) rest.order,
      fun label member => (rest.within label member).mono start.order (.refl last)⟩
  nodup := by
    rw [List.nodup_append]
    refine ⟨start.nodup, rest.nodup, fun label member other known same => ?_⟩
    subst same
    exact (start.within label member).disjoint (rest.within label known)

theorem Fresh.perm {first last : Counters} {labels others : List Label}
    (fresh : Fresh first last labels) (same : labels.Perm others) : Fresh first last others :=
  ⟨fresh.order, fun label member => fresh.within label (same.mem_iff.mpr member),
    same.nodup_iff.mp fresh.nodup⟩

end Label

def Instruction.definition? : Instruction → Option Label
  | .define label => if label.isGenerated then some label else none
  | _ => none

theorem Instruction.definition?_eq_some {instruction : Instruction} {label : Label} :
    instruction.definition? = some label ↔ instruction = .define label ∧ label.isGenerated := by
  cases instruction with
  | define found =>
      rw [definition?]
      constructor
      · intro defines
        split at defines
        · rename_i generated
          cases defines
          exact ⟨rfl, generated⟩
        · cases defines
      · rintro ⟨same, generated⟩
        cases same
        rw [if_pos generated]
  | _ => simp [definition?]

theorem Instruction.definition?_of_straight {instruction : Instruction}
    (straight : instruction.isStraight) :
    instruction.definition? = none := by
  cases instruction <;> first | rfl | cases straight

theorem Instruction.definitions_of_straight {code : List Instruction}
    (straight : ∀ instruction ∈ code, instruction.isStraight) :
    code.filterMap definition? = [] := by
  rw [List.filterMap_eq_nil_iff]
  exact fun instruction member => definition?_of_straight (straight instruction member)

namespace Lowering

/-! The code of single expressions. -/

namespace State

theorem code_branch (state : State) (condition : Condition) :
    (state.lower (.branch condition)).code = (state.frame.compare condition).code :=
  Step.code_ofEmission _ _ _

theorem code_loop (state : State) (condition : Condition) :
    (state.lower (.loop condition)).code =
      .define (.loopHead state.counters.loopHeads) :: (state.frame.compare condition).code :=
  Step.code_ofEmission _ _ _

theorem straight_leaf (state : State) (leaf : Leaf) :
    ∀ instruction ∈ (state.lower leaf.expression).code, instruction.isStraight := by
  cases leaf with
  | declare name pointer length => simp [Leaf.expression, lower, Step.done, Instruction.isStraight]
  | call function arguments destination =>
      rw [Leaf.expression, lower, Step.code_ofEmission]
      exact (state.frame.straight_call function arguments destination).straight
  | raw mnemonic operands =>
      rw [Leaf.expression, lower, Step.code_ofEmission]
      exact (state.frame.straight_raw mnemonic operands).straight

theorem returnJump_inside {state : State} {ordinal : Nat} (inside : state.function = some ordinal) :
    state.returnJump =
      Instruction.reserveCells (state.functionCells - state.frame.locals) ++
        [.jump (.functionExit ordinal)] := by
  simp only [returnJump, inside]

theorem code_leaf_ne_nil {state : State} {leaf : Leaf}
    (success : state.frame.check leaf.expression.uses = .ok ()) :
    (state.lower leaf.expression).code ≠ [] := by
  cases leaf with
  | declare name pointer length => simp [Leaf.expression, lower, Step.done]
  | call function arguments destination =>
      rw [Leaf.expression, lower, Step.code_ofEmission]
      refine state.frame.code_call_ne_nil ?_
      rw [Emission.outcome_eq_verdict, Frame.verdict_call]
      exact success
  | raw mnemonic operands =>
      rw [Leaf.expression, lower, Step.code_ofEmission]
      refine state.frame.code_raw_ne_nil ?_
      rw [Emission.outcome_eq_verdict, Frame.verdict_raw]
      exact success

theorem code_returnValue {state : State} {value : Operand}
    (success : state.frame.check (Expression.returnValue value).uses = .ok ()) :
    ∃ loaded, (∀ instruction ∈ loaded, instruction.isStraight) ∧
      Instruction.totalGrowth loaded = 0 ∧ loaded ≠ [] ∧
      (state.lower (.returnValue value)).code = loaded ++ state.returnJump := by
  have straight := state.frame.straight_load 0 .f0 (by decide) value
  rw [Expression.uses, ← Frame.verdict_load state.frame 0 .f0] at success
  rw [lower, returnValue, Step.code_ofEmission, Emission.bind_eq_follow]
  cases outcome : (state.frame.load 0 .f0 value).outcome with
  | error error => simp [Emission.verdict, outcome, Except.map] at success
  | ok place =>
      rw [Emission.follow_of_ok outcome]
      refine ⟨(state.frame.load 0 .f0 value).code ++ [.move place (.register .f0)], ?_,
        ?_, by simp, ?_⟩
      · rw [List.forall_mem_append]
        exact ⟨straight.straight, by simp [Instruction.isStraight]⟩
      · simp [straight.growth place outcome, Instruction.growth]
      · simp [Emission.emit]

theorem code_returnValue_inside {state : State} {ordinal : Nat} {value : Operand}
    {resolved : Resolved} (inside : state.function = some ordinal)
    (found : state.frame.resolve 0 .f0 value = .ok resolved) :
    (state.lower (.returnValue value)).code =
      resolved.prelude ++ .move resolved.place (.register .f0) ::
        (Instruction.reserveCells (state.functionCells - state.frame.locals) ++
          [.jump (.functionExit ordinal)]) := by
  rw [lower, returnValue, Step.code_ofEmission, Frame.load_of_resolve found,
    Emission.bind_eq_follow, Emission.follow_of_ok rfl, returnJump_inside inside]
  rfl

end State

def definitions (lines : List Line) : List Label :=
  lines.filterMap (·.instruction.definition?)

theorem mem_definitions {lines : List Line} {label : Label} :
    label ∈ definitions lines ↔ .define label ∈ lines.map (·.instruction) ∧ label.isGenerated := by
  rw [definitions, List.mem_filterMap]
  simp only [Instruction.definition?_eq_some, List.mem_map]
  constructor
  · rintro ⟨line, member, defines, generated⟩
    exact ⟨⟨line, member, defines⟩, generated⟩
  · rintro ⟨⟨line, member, defines⟩, generated⟩
    exact ⟨line, member, defines, generated⟩

@[simp]
theorem definitions_append (first second : List Line) :
    definitions (first ++ second) = definitions first ++ definitions second := by
  simp [definitions]

theorem State.definitions_lines (state : State) (expression : Expression) :
    definitions (state.lines expression) =
      (state.lower expression).code.filterMap Instruction.definition? := by
  rw [← state.map_instruction_lines, List.filterMap_map]
  rfl

namespace State

theorem definitions_branch (state : State) (condition : Condition) :
    definitions (state.lines (.branch condition)) = [] := by
  rw [definitions_lines, code_branch]
  exact Instruction.definitions_of_straight (state.frame.straight_compare condition).straight

theorem definitions_loop (state : State) (condition : Condition) :
    definitions (state.lines (.loop condition)) = [.loopHead state.counters.loopHeads] := by
  rw [definitions_lines, code_loop, List.filterMap_cons,
    Instruction.definitions_of_straight (state.frame.straight_compare condition).straight]
  rfl

theorem definitions_leaf (state : State) (leaf : Leaf) :
    definitions (state.lines leaf.expression) = [] := by
  rw [definitions_lines]
  exact Instruction.definitions_of_straight (state.straight_leaf leaf)

theorem definitions_returnJump (state : State) :
    state.returnJump.filterMap Instruction.definition? = [] := by
  unfold returnJump
  split
  · rw [List.filterMap_append,
      Instruction.definitions_of_straight Instruction.isStraight_of_mem_reserveCells]
    rfl
  · rfl

theorem definitions_returnValue {state : State} {value : Operand}
    (success : state.frame.check (Expression.returnValue value).uses = .ok ()) :
    definitions (state.lines (.returnValue value)) = [] := by
  obtain ⟨loaded, straight, _, _, code⟩ := code_returnValue success
  rw [definitions_lines, code, List.filterMap_append, Instruction.definitions_of_straight straight,
    definitions_returnJump]
  rfl

theorem definitions_leaveFunction (state : State) (ordinal : Nat) :
    (state.leaveFunction ordinal).filterMap Instruction.definition? = [.functionExit ordinal] := by
  rw [leaveFunction, List.filterMap_append, List.filterMap_append,
    Instruction.definitions_of_straight Instruction.isStraight_of_mem_releaseCells]
  rfl

end State
end Lowering

open Lowering (State Line definitions definitions_append)

/-! The labels of a body. -/

theorem Body.code_closeBranch (inner : Body) (state : State) (depth : Nat) :
    ((inner.after state.intoBranch).lower (.closeBlock depth)).code =
      [.define (.branchEnd state.counters.branches)] := by
  rw [State.lower, State.closeBlock, Body.after_blocks]
  rfl

theorem Body.code_closeLoop (inner : Body) (state : State) (depth : Nat) :
    ((inner.after state.intoLoop).lower (.closeBlock depth)).code =
      [.jump (.loopHead state.counters.loopHeads),
        .define (.loopExit state.counters.loopExits)] := by
  rw [State.lower, State.closeBlock, Body.after_blocks]
  rfl

theorem Body.code_closeFunction (body : Body) (state : State) (depth : Nat) (name : String)
    (parameters : List Parameter) (cells : Nat) :
    ((body.after (state.intoFunction name parameters cells)).lower (.closeBlock depth)).code =
      (body.after (state.intoFunction name parameters cells)).leaveFunction
        (state.counters.functions + 1) := by
  rw [State.lower, State.closeBlock, Body.after_blocks]
  rfl

theorem Label.Fresh.branch (counters : Counters) :
    Fresh counters { counters with branches := counters.branches + 1 }
      [.branchEnd counters.branches] :=
  ⟨⟨Nat.le_succ _, Nat.le_refl _, Nat.le_refl _, Nat.le_refl _⟩, by simp [Within], by simp⟩

theorem Label.Fresh.loop (counters : Counters) :
    Fresh counters
      { counters with loopHeads := counters.loopHeads + 1, loopExits := counters.loopExits + 1 }
      [.loopHead counters.loopHeads, .loopExit counters.loopExits] :=
  ⟨⟨Nat.le_refl _, Nat.le_succ _, Nat.le_succ _, Nat.le_refl _⟩, by simp [Within], by simp⟩

theorem Label.Fresh.function (counters : Counters) :
    Fresh counters { counters with functions := counters.functions + 1 }
      [.functionExit (counters.functions + 1)] :=
  ⟨⟨Nat.le_refl _, Nat.le_refl _, Nat.le_refl _, Nat.le_succ _⟩, by simp [Within], by simp⟩

theorem Body.fresh_definitions (body : Body) (depth : Nat) (state : State)
    (accepted : body.Accepted depth state) :
    Label.Fresh state.counters (body.after state).counters
      (definitions (body.lines depth state)) := by
  induction body generalizing depth state with
  | done => exact .nil _
  | act leaf rest ih =>
      have fresh := ih depth _ accepted.act.2
      rw [State.state_leaf] at fresh
      rw [lines, definitions_append, State.definitions_leaf, after, State.state_leaf]
      exact fresh
  | leave value rest ih =>
      rw [lines, definitions_append, State.definitions_returnValue accepted.leave.1]
      exact ih depth state accepted.leave.2
  | branch test inner rest innerFresh ih =>
      obtain ⟨_, entered, left⟩ := accepted.branch
      have within := innerFresh (depth + 1) _ entered
      have behind := ih depth _ left
      -- The label is handed out before the block and defined behind it.
      have fresh := ((Label.Fresh.branch state.counters).append within).append behind
      have closing : definitions ((inner.after state.intoBranch).lines (.closeBlock (depth + 1))) =
          [.branchEnd state.counters.branches] := by
        rw [State.definitions_lines, code_closeBranch]
        rfl
      rw [after]
      refine fresh.perm ?_
      simp only [lines, definitions_append, State.definitions_branch, closing, List.nil_append]
      exact List.perm_append_comm.append_right _
  | loop test inner rest innerFresh ih =>
      obtain ⟨_, entered, left⟩ := accepted.loop
      have within := innerFresh (depth + 1) _ entered
      have behind := ih depth _ left
      have fresh := ((Label.Fresh.loop state.counters).append within).append behind
      have closing : definitions ((inner.after state.intoLoop).lines (.closeBlock (depth + 1))) =
          [.loopExit state.counters.loopExits] := by
        rw [State.definitions_lines, code_closeLoop]
        rfl
      rw [after]
      refine fresh.perm ?_
      -- Of the two labels of a loop only the exit moves behind the block.
      simp only [lines, definitions_append, State.definitions_loop, closing]
      refine List.Perm.append_right _ ?_
      exact List.Perm.cons _ List.perm_append_comm

theorem Item.fresh_definitions (item : Item) (state : State) (accepted : item.check = .ok ()) :
    Label.Fresh state.counters (item.after state).counters (definitions (item.lines state)) := by
  cases item with
  | exportLabel label => exact .nil _
  | importLabel label => exact .nil _
  | function name parameters body =>
      have within := body.fresh_definitions 1
        (state.intoFunction name parameters body.cells) accepted
      have fresh := (Label.Fresh.function state.counters).append within
      have closing : definitions
          ((body.after (state.intoFunction name parameters body.cells)).lines (.closeBlock 1)) =
            [.functionExit (state.counters.functions + 1)] := by
        rw [State.definitions_lines, Body.code_closeFunction, State.definitions_leaveFunction]
      rw [after]
      refine fresh.perm ?_
      simp only [lines, definitions_append, closing]
      exact List.perm_append_comm

theorem Outline.fresh_definitions (outline : Outline) (state : State)
    (accepted : outline.check = .ok ()) :
    Label.Fresh state.counters (outline.after state).counters
      (definitions (outline.lines state)) := by
  induction outline generalizing state with
  | nil => exact .nil _
  | cons item rest ih =>
      obtain ⟨first, others⟩ := List.forall_mem_cons.mp (check_eq_ok_iff.mp accepted)
      rw [lines, definitions_append]
      exact (item.fresh_definitions state first).append
        (ih (item.after state) (check_eq_ok_iff.mpr others))

def Lowering.DefinedOnce (lines : List Line) : Prop :=
  ∀ {first second : Nat} {label : Label} {line other : Line}, label.isGenerated →
    lines[first]? = some line → lines[second]? = some other → line.instruction = .define label →
    other.instruction = .define label → first = second

theorem position_unique {α β : Type} {find : α → Option β} {items : List α}
    (nodup : (items.filterMap find).Nodup) {first second : Nat} {item other : α} {value : β}
    (here : items[first]? = some item) (there : items[second]? = some other)
    (found : find item = some value) (again : find other = some value) :
    first = second := by
  rw [List.Nodup, List.pairwise_filterMap, List.pairwise_iff_getElem] at nodup
  obtain ⟨firstBound, rfl⟩ := List.getElem?_eq_some_iff.mp here
  obtain ⟨secondBound, rfl⟩ := List.getElem?_eq_some_iff.mp there
  rcases Nat.lt_trichotomy first second with before | same | behind
  · exact absurd rfl (nodup first second firstBound secondBound before value found value again)
  · exact same
  · exact absurd rfl (nodup second first secondBound firstBound behind value again value found)

theorem Lowering.definedOnce_of_nodup {lines : List Line} (nodup : (definitions lines).Nodup) :
    Lowering.DefinedOnce lines := by
  intro first second label line other generated here there defines again
  apply position_unique nodup here there
  · exact Instruction.definition?_eq_some.mpr ⟨defines, generated⟩
  · exact Instruction.definition?_eq_some.mpr ⟨again, generated⟩

theorem Outline.definedOnce {outline : Outline} (accepted : outline.check = .ok ())
    (state : State) :
    Lowering.DefinedOnce (outline.lines state) :=
  Lowering.definedOnce_of_nodup (outline.fresh_definitions state accepted).nodup

end TinkaCompiler
