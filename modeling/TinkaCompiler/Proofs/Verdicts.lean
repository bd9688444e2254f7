import TinkaCompiler.Proofs.VariableCells

/-! What becomes of an operand.

An operand names variables, each at the position that the next one gives, and ends in a
constant or in a function. It is resolved exactly if all of them are bound and the constant
leads the last of them to an offset that fits an address. Otherwise it is refused for what is
wrong furthest outside: the first name that is not bound, and only then its end. -/

set_option autoImplicit false

namespace TinkaCompiler

namespace Text.Decimal

def Writes (text : List Char) (number : Nat) : Prop :=
  ∃ digits, (text = digits ∨ text = '+' :: digits) ∧ digits ≠ [] ∧ digits.all Char.isDigit ∧
    value digits = number

theorem unsigned_of_digits {digits : List Char} (all : digits.all Char.isDigit) :
    unsigned digits = digits := by
  unfold unsigned
  split
  · cases all
  · rfl

theorem readBelow?_eq_some_iff {limit : Nat} {text : List Char} {number : Nat} :
    readBelow? limit text = some number ↔ Writes text number ∧ number < limit := by
  simp only [readBelow?]
  constructor
  · intro read
    split at read
    · rename_i accepted
      cases read
      refine ⟨⟨unsigned text, ?_, accepted.1, accepted.2.1, rfl⟩, accepted.2.2⟩
      unfold unsigned
      split
      · exact Or.inr rfl
      · exact Or.inl rfl
    · cases read
  · rintro ⟨⟨digits, spelled, some, all, rfl⟩, small⟩
    have same : unsigned text = digits := by
      rcases spelled with rfl | rfl
      · exact unsigned_of_digits all
      · rfl
    rw [same]
    exact if_pos ⟨some, all, small⟩

end Text.Decimal

def Operand.innermost : Operand → Operand
  | .variable _ position => position.innermost
  | operand => operand

namespace Frame

def firstUnbound? (frame : Frame) (operand : Operand) : Option String :=
  operand.names.find? fun name => (frame.binding? name).isNone

theorem firstUnbound?_eq_none {frame : Frame} {operand : Operand} :
    frame.firstUnbound? operand = none ↔ ∀ name ∈ operand.names, (frame.binding? name).isSome := by
  simp [firstUnbound?, Option.isSome_iff_ne_none]

theorem firstUnbound?_unbound {frame : Frame} {name : String} (position : Operand)
    (unbound : frame.binding? name = none) :
    frame.firstUnbound? (.variable name position) = some name := by
  simp [firstUnbound?, Operand.names, unbound]

theorem firstUnbound?_bound {frame : Frame} {name : String} {bound : Nat} (position : Operand)
    (found : frame.binding? name = some bound) :
    frame.firstUnbound? (.variable name position) = frame.firstUnbound? position := by
  simp [firstUnbound?, Operand.names, found]

structure InReach (frame : Frame) (pushed : Nat) (name text : String) (index : Nat) : Prop where
  written : Text.Decimal.Writes text.toList index
  small : index < addressLimit
  fits : frame.offset pushed name index < addressLimit

inductive Refuses (frame : Frame) (pushed : Nat) (operand : Operand) (last : String) :
    GenerationError → Prop where
  | unbound {name : String} :
      frame.firstUnbound? operand = some name →
        Refuses frame pushed operand last (.undefinedVariable name)
  | function {function : String} :
      frame.firstUnbound? operand = none → operand.innermost = .function function →
      Refuses frame pushed operand last (.notAddressable function)
  | outOfReach {text : String} :
      frame.firstUnbound? operand = none → operand.innermost = .constant text →
      (∀ index, ¬ frame.InReach pushed last text index) →
      Refuses frame pushed operand last
        (.invalidPosition (Operand.variable last (.constant text)).render)

/-- An operand is refused, or resolved to what its last variable and its end say. -/
inductive Verdict (frame : Frame) (pushed : Nat) (operand : Operand) (last : String) :
    Except GenerationError Resolved → Prop where
  | refused {error : GenerationError} :
      frame.Refuses pushed operand last error → Verdict frame pushed operand last (.error error)
  | resolved {text : String} {index : Nat} {resolved : Resolved} :
      frame.firstUnbound? operand = none → operand.innermost = .constant text →
      frame.InReach pushed last text index →
      resolved.prelude.length + 3 = 3 * operand.names.length →
      (operand.names = [last] → resolved.place = .cell (frame.offset pushed last index)) →
      Verdict frame pushed operand last (.ok resolved)

section Verdicts

variable {frame : Frame} {pushed : Nat} {operand : Operand} {last : String}

theorem Refuses.unique {error other : GenerationError}
    (refuses : frame.Refuses pushed operand last error)
    (again : frame.Refuses pushed operand last other) : error = other := by
  cases refuses <;> cases again <;> simp_all

theorem Refuses.not_inReach {error : GenerationError} {text : String} {index : Nat}
    (refuses : frame.Refuses pushed operand last error) (all : frame.firstUnbound? operand = none)
    (ends : operand.innermost = .constant text) : ¬ frame.InReach pushed last text index := by
  cases refuses <;> simp_all

theorem InReach.read {text : String} {index : Nat} (reach : frame.InReach pushed last text index) :
    Text.Decimal.readBelow? addressLimit text.toList = some index :=
  Text.Decimal.readBelow?_eq_some_iff.mpr ⟨reach.written, reach.small⟩

theorem InReach.unique {text : String} {index other : Nat}
    (reach : frame.InReach pushed last text index) (again : frame.InReach pushed last text other) :
    index = other :=
  Option.some.inj (reach.read.symm.trans again.read)

theorem verdict_static (covers : frame.Covers) (scratch : Register)
    {name text : String} {bound : Nat} (found : frame.binding? name = some bound) :
    frame.Verdict pushed (.variable name (.constant text)) name
      (frame.resolve pushed scratch (.variable name (.constant text))) := by
  have covered : bound ≤ frame.height + pushed := Nat.le_add_right_of_le (covers name bound found)
  have all : frame.firstUnbound? (.variable name (.constant text)) = none :=
    firstUnbound?_bound _ found
  have same (index : Nat) : frame.offset pushed name index =
      (frame.height + pushed - bound + index) * cellSize := by
    rw [offset, found, Option.getD_some]
  rw [resolve_static scratch text found covered]
  cases read : Text.Decimal.readBelow? addressLimit text.toList with
  | none =>
      refine .refused (.outOfReach all rfl fun index reach => ?_)
      rw [reach.read] at read
      cases read
  | some index =>
      obtain ⟨written, small⟩ := Text.Decimal.readBelow?_eq_some_iff.mp read
      dsimp only
      rw [← same]
      by_cases fits : frame.offset pushed name index < addressLimit
      · rw [if_pos fits]
        exact .resolved all rfl ⟨written, small, fits⟩ rfl fun _ => rfl
      · rw [if_neg fits]
        refine .refused (.outOfReach all rfl fun other reach => ?_)
        obtain rfl := Option.some.inj (read.symm.trans reach.read)
        exact fits reach.fits

/-- One more variable around an operand: its own name is looked up first, and three
instructions are added. -/
theorem Verdict.around {name other : String} {position : Operand} {bound : Nat} {scratch : Register}
    {outcome : Except GenerationError Resolved} (found : frame.binding? name = some bound)
    (verdict : frame.Verdict pushed (.variable other position) last outcome) :
    frame.Verdict pushed (.variable name (.variable other position)) last
      (outcome >>= fun inner =>
        .ok ⟨.indexed scratch, inner.prelude ++ [.move inner.place (.register scratch),
        .add (frame.height + pushed - bound) scratch, .shiftLeft cellShift scratch]⟩) := by
  have same := firstUnbound?_bound (.variable other position) found
  cases verdict with
  | refused refuses =>
      apply Verdict.refused
      cases refuses with
      | unbound unbound => exact .unbound (same.trans unbound)
      | function all ends => exact .function (same.trans all) ends
      | outOfReach all ends unreached => exact .outOfReach (same.trans all) ends unreached
  | resolved all ends reach lines place =>
      refine .resolved (same.trans all) ends reach ?_ ?_
      · rw [Operand.names, List.length_cons, List.length_append]
        simp only [List.length_cons, List.length_nil]
        omega
      · intro single
        cases single

theorem verdict_resolve (covers : frame.Covers) (scratch : Register) {before : List String}
    (spine : operand.names = before ++ [last]) :
    frame.Verdict pushed operand last (frame.resolve pushed scratch operand) := by
  induction operand generalizing before with
  | constant text => simp [Operand.names] at spine
  | function name => simp [Operand.names] at spine
  | «variable» name position ih =>
      cases found : frame.binding? name with
      | none =>
          rw [resolve_unbound scratch position found]
          exact .refused (.unbound (firstUnbound?_unbound position found))
      | some bound =>
          have covered : bound ≤ frame.height + pushed :=
            Nat.le_add_right_of_le (covers name bound found)
          cases position with
          | constant text =>
              obtain ⟨rfl, rfl⟩ : before = [] ∧ last = name := by
                simpa [Operand.names, List.cons_eq_append_iff] using spine
              exact verdict_static covers scratch found
          | function other =>
              rw [resolve_dynamic scratch rfl found covered]
              exact .refused (.function (firstUnbound?_bound _ found) rfl)
          | «variable» other inner =>
              cases before with
              | nil => simp [Operand.names] at spine
              | cons first rest =>
                  rw [resolve_dynamic scratch rfl found covered]
                  exact (ih (List.cons.inj spine).2).around found

end Verdicts
end Frame

namespace Lowering.State

/-- In every state of a program a constant is resolved to its own text. A variable with others in
its positions is resolved exactly if all of them are bound and the constant behind the last
leads it to an offset that fits an address. Each variable around it adds three instructions,
and without one the offset is printed as it is. Otherwise the operand is refused for the first
variable that is not bound, and only then for its end. -/
theorem operand_verdict {state : State} (reachable : state.Reachable) (pushed : Nat)
    (scratch : Register) :
    (∀ text, ∃ resolved, state.frame.resolve pushed scratch (.constant text) = .ok resolved ∧
        resolved.place.render = text ∧ resolved.prelude = []) ∧
      ∀ operand before last, operand.names = before ++ [last] →
        let outcome := state.frame.resolve pushed scratch operand
        ((∃ resolved, outcome = .ok resolved) ↔
          (∀ name ∈ operand.names, (state.frame.binding? name).isSome) ∧
            ∃ text index, operand.innermost = .constant text ∧
              state.frame.InReach pushed last text index) ∧
        (∀ resolved, outcome = .ok resolved → resolved.prelude.length = 3 * before.length ∧
          (before = [] → ∀ text index, operand.innermost = .constant text →
            state.frame.InReach pushed last text index →
            resolved.place.render =
              "f5+" ++ toString (state.frame.offset pushed last index) ++ "@")) ∧
        ∀ error, outcome = .error error ↔ state.frame.Refuses pushed operand last error := by
  refine ⟨fun text => ⟨_, rfl, rfl, rfl⟩, ?_⟩
  intro operand before last spine outcome
  have verdict : state.frame.Verdict pushed operand last outcome :=
    Frame.verdict_resolve reachable.covers scratch spine
  have names : operand.names.length = before.length + 1 := by
    rw [spine, List.length_append, List.length_singleton]
  clear_value outcome
  cases verdict with
  | refused refuses =>
      refine ⟨iff_of_false ?_ ?_, ?_, fun error => ⟨?_, ?_⟩⟩
      · rintro ⟨_, ⟨⟩⟩
      · rintro ⟨all, text, index, ends, reach⟩
        exact refuses.not_inReach (Frame.firstUnbound?_eq_none.mpr all) ends reach
      · rintro _ ⟨⟩
      · rintro ⟨⟩
        exact refuses
      · intro again
        rw [refuses.unique again]
  | resolved all ends reach lines place =>
      refine ⟨iff_of_true ⟨_, rfl⟩ ⟨Frame.firstUnbound?_eq_none.mp all, _, _, ends, reach⟩, ?_,
        fun error => ?_⟩
      · rintro _ ⟨⟩
        refine ⟨by omega, fun none text index sameEnd again => ?_⟩
        obtain rfl := Operand.constant.inj (ends.symm.trans sameEnd)
        rw [place (by rw [spine, none, List.nil_append]), reach.unique again]
        rfl
      · refine iff_of_false ?_ fun refuses => refuses.not_inReach all ends reach
        rintro ⟨⟩

/-- A name that is not bound, a function, and a position that is too large, each inside another
position, and behind them positions that can be resolved. -/
theorem operand_verdict_nested :
    let state :=
      ((State.start.lower (.function "f" [⟨"i", false⟩])).state.lower (.declare "x" true 3)).state
    let resolve := state.frame.resolve 1 .f1
    let far : Operand := .constant "4611686018427387900"
    (∃ resolved,
        resolve (.variable "x" (.variable "x" (.variable "i" (.constant "+0")))) = .ok resolved ∧
        resolved.prelude.length = 6) ∧
      (∃ resolved, resolve (.variable "i" (.constant "4611686018427387898")) = .ok resolved ∧
        resolved.place.render = "f5+18446744073709551612@") ∧
      resolve (.variable "x" (.variable "y" (.variable "z" (.function "f")))) =
        .error (.undefinedVariable "y") ∧
      resolve (.variable "x" (.function "f")) = .error (.notAddressable "f") ∧
      resolve (.variable "x" (.variable "i" far)) =
        .error (.invalidPosition "i@4611686018427387900") := by
  intro state resolve far
  have reachable : state.Reachable := .lower _ (.lower _ .start)
  obtain ⟨_, verdict⟩ := operand_verdict reachable 1 .f1
  have first : state.frame.InReach 1 "i" "+0" 0 :=
    ⟨⟨['0'], Or.inr (by decide), by decide, by decide, by decide⟩, by decide, by decide +kernel⟩
  have largest : state.frame.InReach 1 "i" "4611686018427387898" 4611686018427387898 :=
    ⟨⟨"4611686018427387898".toList, Or.inl rfl, by decide, by decide, by decide +kernel⟩, by decide,
      by decide +kernel⟩
  have beyond (index : Nat) : ¬ state.frame.InReach 1 "i" "4611686018427387900" index := by
    intro reach
    have number : Text.Decimal.readBelow? addressLimit "4611686018427387900".toList =
        some 4611686018427387900 := by
      decide +kernel
    obtain rfl := Option.some.inj (number.symm.trans reach.read)
    exact absurd reach.fits (by decide +kernel)
  obtain ⟨nested, lines, _⟩ :=
    verdict (.variable "x" (.variable "x" (.variable "i" (.constant "+0")))) ["x", "x"] "i" rfl
  obtain ⟨single, printed, _⟩ :=
    verdict (.variable "i" (.constant "4611686018427387898")) [] "i" rfl
  obtain ⟨_, _, unbound⟩ :=
    verdict (.variable "x" (.variable "y" (.variable "z" (.function "f")))) ["x", "y"] "z" rfl
  obtain ⟨_, _, unaddressed⟩ := verdict (.variable "x" (.function "f")) [] "x" rfl
  obtain ⟨_, _, unreached⟩ := verdict (.variable "x" (.variable "i" far)) ["x"] "i" rfl
  obtain ⟨resolved, success⟩ := nested.mpr ⟨by decide +kernel, "+0", 0, rfl, first⟩
  obtain ⟨cell, located⟩ := single.mpr ⟨by decide +kernel, "4611686018427387898", _, rfl, largest⟩
  refine ⟨⟨resolved, success, (lines resolved success).1⟩, ⟨cell, located, ?_⟩, ?_, ?_, ?_⟩
  · rw [(printed cell located).2 rfl _ _ rfl largest]
    decide +kernel
  · exact (unbound _).mpr (.unbound (by decide +kernel))
  · exact (unaddressed _).mpr (.function (by decide +kernel) rfl)
  · exact (unreached _).mpr (.outOfReach (by decide +kernel) rfl beyond)

end Lowering.State
end TinkaCompiler
