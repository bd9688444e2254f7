import TinkaCompiler.Frame

/-! When an operand has an address.

An operand can be resolved exactly if the variables it names are bound and the
constant position at its end leads to an offset that fits an address. -/

set_option autoImplicit false

namespace TinkaCompiler

namespace Operand

def names : Operand → List String
  | .constant _ | .function _ => []
  | .variable name position => name :: position.names

def Addressable : Operand → Prop
  | .constant _ => True
  | .variable _ position => position.Addressable
  | .function _ => False

end Operand

namespace Frame

/-- No variable is bound above the cells in use. -/
def Covers (frame : Frame) : Prop :=
  ∀ name bound, frame.binding? name = some bound → bound ≤ frame.height

theorem covers_empty : empty.Covers := by
  intro name bound found
  cases found

theorem Covers.declare {frame : Frame} (covers : frame.Covers) (name : String) (length : Nat) :
    (frame.declare name length).Covers := by
  intro other bound found
  rw [binding?_declare] at found
  split at found
  · cases found
    exact Nat.le_refl _
  · exact Nat.le_add_right_of_le (covers other bound found)

theorem Covers.declareAll {frame : Frame} (covers : frame.Covers) (parameters : List Parameter) :
    (parameters.foldl (fun frame parameter => frame.declare parameter.name 1) frame).Covers := by
  induction parameters generalizing frame with
  | nil => exact covers
  | cons parameter rest ih => exact ih (covers.declare parameter.name 1)

theorem covers_ofParameters (parameters : List Parameter) : (ofParameters parameters).Covers := by
  intro name bound found
  exact Nat.le_succ_of_le (covers_empty.declareAll parameters name bound found)

/-- The offset of the innermost variable fits an address, when the stack has grown
by `pushed` more cells. -/
def InRange (frame : Frame) (pushed : Nat) : Operand → Prop
  | .constant _ | .function _ => True
  | .variable name (.constant text) =>
    ∀ bound, frame.binding? name = some bound →
      ∃ index, Text.Decimal.readBelow? addressLimit text.toList = some index ∧
        (frame.height + pushed - bound + index) * cellSize < addressLimit
  | .variable _ position => frame.InRange pushed position

section Equations

variable {frame : Frame} {pushed : Nat} {name : String} {bound : Nat}

theorem resolve_unbound (scratch : Register) (position : Operand)
    (unbound : frame.binding? name = none) :
    frame.resolve pushed scratch (.variable name position) = .error (.undefinedVariable name) := by
  rw [resolve]
  simp only [unbound]

theorem resolve_below (scratch : Register) (position : Operand)
    (found : frame.binding? name = some bound) (below : frame.height + pushed < bound) :
    frame.resolve pushed scratch (.variable name position) =
      .error (.invalidPosition (Operand.variable name position).render) := by
  rw [resolve]
  simp only [found, below, if_true]

theorem resolve_static (scratch : Register) (text : String)
    (found : frame.binding? name = some bound) (covered : bound ≤ frame.height + pushed) :
    frame.resolve pushed scratch (.variable name (.constant text)) =
      match Text.Decimal.readBelow? addressLimit text.toList with
      | some index =>
        if (frame.height + pushed - bound + index) * cellSize < addressLimit then
          .ok ⟨.cell ((frame.height + pushed - bound + index) * cellSize), []⟩
        else .error (.invalidPosition (Operand.variable name (.constant text)).render)
      | none => .error (.invalidPosition (Operand.variable name (.constant text)).render) := by
  rw [resolve]
  simp only [found]
  exact if_neg (Nat.not_lt.mpr covered)

theorem resolve_dynamic (scratch : Register) {position : Operand}
    (moving : position.isConstant = false) (found : frame.binding? name = some bound)
    (covered : bound ≤ frame.height + pushed) :
    frame.resolve pushed scratch (.variable name position) =
      frame.resolve pushed scratch position >>= fun inner =>
        .ok ⟨.indexed scratch, inner.prelude ++ [.move inner.place (.register scratch),
          .add (frame.height + pushed - bound) scratch, .shiftLeft cellShift scratch]⟩ := by
  rw [resolve]
  simp only [found, Nat.not_lt.mpr covered, if_false]
  cases position with
  | constant text => cases moving
  | function other => rfl
  | «variable» other inner => rfl

theorem inRange_dynamic {position : Operand} (moving : position.isConstant = false) :
    frame.InRange pushed (.variable name position) = frame.InRange pushed position := by
  cases position with
  | constant text => cases moving
  | function other => rfl
  | «variable» other inner => rfl

end Equations

/-- How an operand is resolved: a constant position gives a fixed address, and any
other is resolved first. -/
inductive Resolves (frame : Frame) (pushed : Nat) (scratch : Register) :
    Operand → Resolved → Prop where
  | constant (text : String) : Resolves frame pushed scratch (.constant text) ⟨.literal text, []⟩
  | static {name text : String} {bound index : Nat} :
      frame.binding? name = some bound → bound ≤ frame.height + pushed →
      Text.Decimal.readBelow? addressLimit text.toList = some index →
      (frame.height + pushed - bound + index) * cellSize < addressLimit →
      Resolves frame pushed scratch (.variable name (.constant text))
        ⟨.cell ((frame.height + pushed - bound + index) * cellSize), []⟩
  | dynamic {name : String} {position : Operand} {bound : Nat} {inner : Resolved} :
      position.isConstant = false → frame.binding? name = some bound →
      bound ≤ frame.height + pushed →
      Resolves frame pushed scratch position inner →
      Resolves frame pushed scratch (.variable name position)
        ⟨.indexed scratch, inner.prelude ++ [.move inner.place (.register scratch),
          .add (frame.height + pushed - bound) scratch, .shiftLeft cellShift scratch]⟩

theorem resolves_of_resolve {frame : Frame} {pushed : Nat} {scratch : Register} {operand : Operand}
    {resolved : Resolved} (success : frame.resolve pushed scratch operand = .ok resolved) :
    Resolves frame pushed scratch operand resolved := by
  induction operand generalizing resolved with
  | constant text =>
      cases success
      exact .constant text
  | function name => cases success
  | «variable» name position ih =>
      cases found : frame.binding? name with
      | none =>
          rw [resolve_unbound scratch position found] at success
          cases success
      | some bound =>
          by_cases below : frame.height + pushed < bound
          · rw [resolve_below scratch position found below] at success
            cases success
          · have covered := Nat.not_lt.mp below
            cases moving : position.isConstant with
            | true =>
                cases position with
                | constant text =>
                    rw [resolve_static scratch text found covered] at success
                    split at success
                    · rename_i index read
                      split at success
                      · rename_i fits
                        cases success
                        exact .static found covered read fits
                      · cases success
                    · cases success
                | function other => cases moving
                | «variable» other inner => cases moving
            | false =>
                rw [resolve_dynamic scratch moving found covered] at success
                cases nested : frame.resolve pushed scratch position with
                | error error =>
                    rw [nested] at success
                    cases success
                | ok inner =>
                    rw [nested] at success
                    cases success
                    exact .dynamic moving found covered (ih nested)

/-- The scratch register does not decide whether an operand can be resolved. -/
theorem resolve_scratch (frame : Frame) (pushed : Nat) (first second : Register)
    (operand : Operand) :
    (frame.resolve pushed first operand).map (fun _ => ()) =
      (frame.resolve pushed second operand).map fun _ => () := by
  induction operand with
  | constant text => rfl
  | function name => rfl
  | «variable» name position ih =>
      cases found : frame.binding? name with
      | none => rw [resolve_unbound first position found, resolve_unbound second position found]
      | some bound =>
          by_cases below : frame.height + pushed < bound
          · rw [resolve_below first position found below, resolve_below second position found below]
          · have covered := Nat.not_lt.mp below
            cases moving : position.isConstant with
            | true =>
                cases position with
                | constant text =>
                    rw [resolve_static first text found covered,
                      resolve_static second text found covered]
                | function other => cases moving
                | «variable» other inner => cases moving
            | false =>
                rw [resolve_dynamic first moving found covered,
                  resolve_dynamic second moving found covered]
                cases left : frame.resolve pushed first position <;>
                  cases right : frame.resolve pushed second position <;>
                  simp_all [Except.map, bind, Except.bind]

theorem error_of_resolve {frame : Frame} {pushed : Nat} {scratch : Register} {operand : Operand}
    {error : GenerationError} (plain : operand.Addressable)
    (failed : frame.resolve pushed scratch operand = .error error) :
    (∃ name, error = .undefinedVariable name) ∨ ∃ text, error = .invalidPosition text := by
  induction operand with
  | constant text => cases failed
  | function name => exact plain.elim
  | «variable» name position ih =>
      cases found : frame.binding? name with
      | none =>
          rw [resolve_unbound scratch position found] at failed
          exact Or.inl ⟨name, (Except.error.inj failed).symm⟩
      | some bound =>
          by_cases below : frame.height + pushed < bound
          · rw [resolve_below scratch position found below] at failed
            exact Or.inr ⟨_, (Except.error.inj failed).symm⟩
          · have covered := Nat.not_lt.mp below
            cases position with
            | constant text =>
                rw [resolve_static scratch text found covered] at failed
                split at failed
                · split at failed
                  · cases failed
                  · exact Or.inr ⟨_, (Except.error.inj failed).symm⟩
                · exact Or.inr ⟨_, (Except.error.inj failed).symm⟩
            | function other => exact plain.elim
            | «variable» other inner =>
                rw [resolve_dynamic scratch rfl found covered] at failed
                cases within : frame.resolve pushed scratch (.variable other inner) with
                | error inner =>
                    rw [within] at failed
                    cases failed
                    exact ih plain within
                | ok resolved =>
                    rw [within] at failed
                    cases failed

/-- An operand without functions is resolved exactly if its variables are bound and
its innermost position is in range. -/
theorem resolve_succeeds_iff {frame : Frame} (covers : frame.Covers) {pushed : Nat}
    {scratch : Register} {operand : Operand} (plain : operand.Addressable) :
    (∃ resolved, frame.resolve pushed scratch operand = .ok resolved) ↔
      (∀ name ∈ operand.names, (frame.binding? name).isSome) ∧ frame.InRange pushed operand := by
  induction operand with
  | constant text => simp [resolve, Operand.names, InRange]
  | function name => exact plain.elim
  | «variable» name position ih =>
      cases found : frame.binding? name with
      | none => simp [resolve_unbound scratch position found, Operand.names, found]
      | some bound =>
          have covered : bound ≤ frame.height + pushed :=
            Nat.le_add_right_of_le (covers name bound found)
          cases position with
          | constant text =>
              rw [resolve_static scratch text found covered]
              simp only [Operand.names, InRange, found, List.mem_singleton, forall_eq,
                Option.isSome_some, true_and, Option.some.injEq, forall_eq']
              cases Text.Decimal.readBelow? addressLimit text.toList with
              | none => simp
              | some index =>
                  by_cases fits : (frame.height + pushed - bound + index) * cellSize <
                    addressLimit <;> simp [fits]
          | function other => exact plain.elim
          | «variable» other inner =>
              have nested := ih plain
              rw [resolve_dynamic scratch rfl found covered, inRange_dynamic rfl]
              rw [Operand.names, List.forall_mem_cons]
              simp only [found, Option.isSome_some, true_and]
              rw [← nested]
              cases frame.resolve pushed scratch (.variable other inner) <;>
                simp [bind, Except.bind]

end Frame
end TinkaCompiler
