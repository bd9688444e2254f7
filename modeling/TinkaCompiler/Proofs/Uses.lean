import TinkaCompiler.Program
import TinkaCompiler.Proofs.Resolution

/-! Operands as they are used.

An operand is used where its address is computed, which may be while some cells are
pushed. Emitting an expression fails exactly where one of its uses cannot be
resolved, and with that failure. -/

set_option autoImplicit false

namespace TinkaCompiler

/-- An operand that is resolved while the stack has grown by some cells. -/
structure Use where
  pushed : Nat
  operand : Operand
  deriving DecidableEq, Repr

/-! Checks one after the other. -/

section Sequence

variable {α : Type} {first : Except GenerationError α} {second : Except GenerationError Unit}

theorem check_then_eq_ok :
    (first >>= fun _ => second) = .ok () ↔ (∃ value, first = .ok value) ∧ second = .ok () := by
  cases first with
  | error error => simp [bind, Except.bind]
  | ok value => simp [bind, Except.bind]

theorem checks_eq_ok {first : Except GenerationError Unit} :
    (first >>= fun _ => second) = .ok () ↔ first = .ok () ∧ second = .ok () := by
  rw [check_then_eq_ok]
  exact and_congr_left fun _ => ⟨fun ⟨_, checked⟩ => checked, fun checked => ⟨(), checked⟩⟩

theorem check_then_eq_error {error : GenerationError} :
    (first >>= fun _ => second) = .error error ↔
      first = .error error ∨ (∃ value, first = .ok value) ∧ second = .error error := by
  cases first with
  | error other => simp [bind, Except.bind]
  | ok value => simp [bind, Except.bind]

end Sequence

namespace Frame

def check (frame : Frame) : List Use → Except GenerationError Unit
  | [] => .ok ()
  | use :: rest => do
    let _ ← frame.resolve use.pushed .f0 use.operand
    frame.check rest

/-- Each argument is resolved after its own cell was pushed. -/
def argumentUses (pushed : Nat) : List Operand → List Use
  | [] => []
  | argument :: rest => ⟨pushed + 1, argument⟩ :: argumentUses (pushed + 1) rest

def destinationUses : Destination → List Use
  | .discard => []
  | .variable name position => [⟨0, .variable name position⟩]

def spillUses : List (Operand × Option Nat) → List Use
  | [] => []
  | (_, none) :: rest => spillUses rest
  | (operand, some number) :: rest => ⟨number, operand⟩ :: spillUses rest

def loadUses (spilled : Nat) : List (Operand × Option Nat) → List Use
  | [] => []
  | (_, some _) :: rest => loadUses spilled rest
  | (operand, none) :: rest => ⟨spilled, operand⟩ :: loadUses spilled rest

def writeBackUses (mnemonic : Mnemonic) (spilled index : Nat) :
    List (Operand × Option Nat) → List Use
  | [] => []
  | (_, none) :: rest => writeBackUses mnemonic spilled (index + 1) rest
  | (operand, some _) :: rest =>
    if mnemonic.writes index then
      ⟨spilled, operand⟩ :: writeBackUses mnemonic spilled (index + 1) rest
    else writeBackUses mnemonic spilled (index + 1) rest

/-- Operands in temporary cells are resolved when they are copied there, and again
if they are copied back. The others are resolved between. -/
def rawUses (mnemonic : Mnemonic) (operands : List Operand) : List Use :=
  let assigned := assignCells 1 operands
  let spilled := assigned.countP (·.2.isSome)
  spillUses assigned ++ loadUses spilled assigned ++ writeBackUses mnemonic spilled 0 assigned

end Frame

def Expression.uses : Expression → List Use
  | .branch condition | .loop condition => [⟨0, condition.left⟩, ⟨0, condition.right⟩]
  | .returnValue value => [⟨0, value⟩]
  | .call _ arguments destination => Frame.argumentUses 0 arguments ++
      Frame.destinationUses destination
  | .raw mnemonic operands => Frame.rawUses mnemonic operands
  | .exportLabel _ | .importLabel _ | .declare _ _ _ | .openBlock _ | .closeBlock _
  | .function _ _ => []

namespace Emission

variable {α β : Type}

def verdict (emission : Emission α) : Except GenerationError Unit :=
  emission.outcome.map fun _ => ()

@[simp]
theorem verdict_emit (code : List Instruction) : (emit code).verdict = .ok () :=
  rfl

theorem verdict_bind {first : Emission α} {after : α → Emission β}
    (last : Except GenerationError Unit) (same : ∀ value, (after value).verdict = last) :
    (first >>= after).verdict = first.verdict >>= fun _ => last := by
  rw [bind_eq_follow]
  cases outcome : first.outcome with
  | error error => simp [verdict, follow_of_error outcome, outcome, Except.map, bind, Except.bind]
  | ok value =>
      rw [verdict, follow_of_ok outcome]
      simpa [verdict, outcome, Except.map, bind, Except.bind] using same value

theorem outcome_eq_verdict (emission : Emission Unit) : emission.outcome = emission.verdict := by
  unfold verdict
  cases emission.outcome <;> rfl

end Emission

namespace Frame

open Emission

theorem check_append (frame : Frame) (first second : List Use) :
    frame.check (first ++ second) = frame.check first >>= fun _ => frame.check second := by
  induction first with
  | nil => rfl
  | cons use rest ih =>
      simp only [List.cons_append, check, ih]
      cases frame.resolve use.pushed .f0 use.operand <;> rfl

theorem check_append_eq_ok {frame : Frame} {first second : List Use} :
    frame.check (first ++ second) = .ok () ↔
      frame.check first = .ok () ∧ frame.check second = .ok () := by
  rw [check_append, checks_eq_ok]

theorem verdict_ofExcept {α : Type} (outcome : Except GenerationError α) :
    (Emission.ofExcept outcome).verdict = outcome.map fun _ => () :=
  rfl

theorem check_single (frame : Frame) (use : Use) :
    frame.check [use] = (frame.resolve use.pushed .f0 use.operand).map fun _ => () := by
  rw [check]
  cases frame.resolve use.pushed .f0 use.operand <;> rfl

theorem verdict_load (frame : Frame) (pushed : Nat) (scratch : Register) (operand : Operand) :
    (frame.load pushed scratch operand).verdict = frame.check [⟨pushed, operand⟩] := by
  unfold load
  rw [verdict_bind (.ok ()) fun _ => rfl, verdict_ofExcept,
    frame.resolve_scratch pushed scratch .f0, check_single]
  cases frame.resolve pushed .f0 operand <;> rfl

theorem verdict_push (frame : Frame) (pushed : Nat) (operand : Operand) :
    (frame.push pushed operand).verdict = frame.check [⟨pushed, operand⟩] := by
  unfold push
  rw [verdict_bind (.ok ()) fun _ => rfl, verdict_ofExcept, check_single]
  cases frame.resolve pushed .f0 operand <;> rfl

theorem verdict_compare (frame : Frame) (condition : Condition) :
    (frame.compare condition).verdict =
      frame.check [⟨0, condition.left⟩, ⟨0, condition.right⟩] := by
  unfold compare
  rw [verdict_bind (frame.check [⟨0, condition.right⟩]), verdict_load]
  · exact (frame.check_append [_] _).symm
  intro left
  rw [verdict_bind (frame.check [⟨0, condition.right⟩]), verdict_emit]
  · rfl
  intro _
  rw [verdict_bind (.ok ()) fun _ => rfl, verdict_load]
  cases frame.check [⟨0, condition.right⟩] <;> rfl

theorem verdict_pushArguments (frame : Frame) (pushed : Nat) (arguments : List Operand) :
    (frame.pushArguments pushed arguments).verdict =
      frame.check (argumentUses pushed arguments) := by
  induction arguments generalizing pushed with
  | nil => rfl
  | cons argument rest ih =>
      rw [pushArguments, verdict_bind _ fun _ => ih (pushed + 1), verdict_push]
      exact (frame.check_append [_] _).symm

theorem verdict_store (frame : Frame) (destination : Destination) :
    (frame.store destination).verdict = frame.check (destinationUses destination) := by
  cases destination with
  | discard => rfl
  | «variable» name position =>
      rw [store, verdict_bind (.ok ()) fun _ => rfl, verdict_load, destinationUses]
      cases frame.check [⟨0, .variable name position⟩] <;> rfl

theorem verdict_call (frame : Frame) (function : String) (arguments : List Operand)
    (destination : Destination) :
    (frame.call function arguments destination).verdict =
      frame.check (argumentUses 0 arguments ++ destinationUses destination) := by
  unfold call
  rw [verdict_bind (frame.check (destinationUses destination)), verdict_pushArguments, check_append]
  intro _
  rw [verdict_bind _ fun _ => verdict_store frame destination]
  rfl

theorem verdict_spill (frame : Frame) (assigned : List (Operand × Option Nat)) :
    (frame.spill assigned).verdict = frame.check (spillUses assigned) := by
  induction assigned with
  | nil => rfl
  | cons first rest ih =>
      obtain ⟨operand, _ | number⟩ := first
      · exact ih
      · rw [spill, verdict_bind _ fun _ => ih, verdict_push]
        exact (frame.check_append [_] _).symm

theorem verdict_loadAll (frame : Frame) (spilled : Nat) (assigned : List (Operand × Option Nat)) :
    (frame.loadAll spilled assigned).verdict = frame.check (loadUses spilled assigned) := by
  induction assigned with
  | nil => rfl
  | cons first rest ih =>
      obtain ⟨operand, _ | number⟩ := first
      · rw [loadAll, verdict_bind (frame.check (loadUses spilled rest)), verdict_load]
        · exact (frame.check_append [_] _).symm
        intro _
        rw [verdict_bind (.ok ()) fun _ => rfl, ih]
        cases frame.check (loadUses spilled rest) <;> rfl
      · rw [loadAll, verdict_bind (.ok ()) fun _ => rfl, ih, loadUses]
        cases frame.check (loadUses spilled rest) <;> rfl

theorem verdict_writeBack (frame : Frame) (mnemonic : Mnemonic) (spilled index : Nat)
    (assigned : List (Operand × Option Nat)) :
    (frame.writeBack mnemonic spilled index assigned).verdict =
      frame.check (writeBackUses mnemonic spilled index assigned) := by
  induction assigned generalizing index with
  | nil => rfl
  | cons first rest ih =>
      obtain ⟨operand, _ | number⟩ := first
      · exact ih (index + 1)
      · rw [writeBack, writeBackUses]
        by_cases written : mnemonic.writes index
        · simp only [written, if_true]
          rw [verdict_bind (frame.check (writeBackUses mnemonic spilled (index + 1) rest)),
            verdict_load]
          · exact (frame.check_append [_] _).symm
          intro _
          rw [verdict_bind _ fun _ => ih (index + 1)]
          rfl
        · simp only [written]
          exact ih (index + 1)

theorem verdict_raw (frame : Frame) (mnemonic : Mnemonic) (operands : List Operand) :
    (frame.raw mnemonic operands).verdict = frame.check (rawUses mnemonic operands) := by
  unfold raw rawUses
  simp only [List.append_assoc, check_append]
  rw [verdict_bind _ ?afterSpill, verdict_spill]
  intro _
  rw [verdict_bind _ ?afterLoad, verdict_loadAll]
  intro places
  rw [verdict_bind _ ?afterRaw]
  · exact rfl
  intro _
  rw [verdict_bind (.ok ()) fun _ => rfl, verdict_writeBack]
  cases frame.check (writeBackUses mnemonic _ 0 (assignCells 1 operands)) <;> rfl

end Frame
end TinkaCompiler
