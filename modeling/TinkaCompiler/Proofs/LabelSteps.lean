import TinkaCompiler.Proofs.LabelTables

/-! Label tables and the steps that build them.

A table knows of a label whether it was exported by some step, or else whether it was imported by
some step. The step may stand in the sequence itself or among the steps that build a merged table,
at any depth. So the order of the steps, their number and their grouping into merged tables do
not matter. -/

set_option autoImplicit false

namespace TinkaCompiler

namespace LabelStep

open Visibility (named)

mutual

/-- How a step names labels. Merging a table names what the steps that build it name. -/
def mentions : LabelStep → List (String × Visibility)
  | .exportLabel label => [(label, .exported)]
  | .importLabel label => [(label, .imported)]
  | .merge steps => allMentions steps

def allMentions : List LabelStep → List (String × Visibility)
  | [] => []
  | step :: rest => step.mentions ++ allMentions rest

end

mutual

theorem get?_apply (table : LabelTable) (label : String) : (step : LabelStep) →
    (step.apply table).get? label =
      Option.merge .join (table.get? label) (named label step.mentions)
  | .exportLabel exported => by
      rw [apply, LabelTable.exportLabel_eq_record, LabelTable.get?_record_eq_merge, mentions]
  | .importLabel imported => by
      rw [apply, LabelTable.importLabel_eq_record, LabelTable.get?_record_eq_merge, mentions]
  | .merge steps => by
      rw [apply, LabelTable.get?_merge, get?_applyAll .empty label steps, mentions]
      -- The merged table starts empty, so it knows what its own steps name.
      congr 1
      exact Option.merge_none_left

theorem get?_applyAll (table : LabelTable) (label : String) : (steps : List LabelStep) →
    (applyAll table steps).get? label =
      Option.merge .join (table.get? label) (named label (allMentions steps))
  | [] => Option.merge_none_right.symm
  | step :: rest => by
      rw [applyAll, get?_applyAll (step.apply table) label rest, get?_apply table label step,
        Visibility.merge_assoc, ← Visibility.named_append, allMentions]

end

theorem get?_built (steps : List LabelStep) (label : String) :
    (applyAll .empty steps).get? label = named label (allMentions steps) :=
  (get?_applyAll .empty label steps).trans Option.merge_none_left

/-- Steps that name the same labels in the same ways build the same table. -/
theorem built_congr {steps others : List LabelStep}
    (same : ∀ mention, mention ∈ allMentions steps ↔ mention ∈ allMentions others) :
    applyAll .empty steps = applyAll .empty others := by
  apply LabelTable.eq_of_get?
  intro label
  rw [get?_built, get?_built, Visibility.named_congr same]

theorem allMentions_eq_flatMap (steps : List LabelStep) :
    allMentions steps = steps.flatMap mentions := by
  induction steps with
  | nil => rfl
  | cons step rest ih => rw [allMentions, ih, List.flatMap_cons]

theorem built_perm {steps others : List LabelStep} (perm : steps.Perm others) :
    applyAll .empty steps = applyAll .empty others := by
  apply built_congr
  intro mention
  rw [allMentions_eq_flatMap, allMentions_eq_flatMap]
  exact (perm.flatMap_right mentions).mem_iff

theorem built_repeated {steps again : List LabelStep} (among : again ⊆ steps) :
    applyAll .empty (steps ++ again) = applyAll .empty steps := by
  apply built_congr
  intro mention
  rw [allMentions_eq_flatMap, allMentions_eq_flatMap, List.flatMap_append, List.mem_append,
    or_iff_left_iff_imp]
  simp only [List.mem_flatMap]
  rintro ⟨step, member, named⟩
  exact ⟨step, among member, named⟩

theorem built_grouped (front group rest : List LabelStep) :
    applyAll .empty (front ++ .merge group :: rest) = applyAll .empty (front ++ group ++ rest) := by
  apply built_congr
  intro mention
  simp only [allMentions_eq_flatMap, List.flatMap_append, List.flatMap_cons, mentions,
    List.append_assoc]

/-- A table depends only on what was named. It knows a label as exported exactly if some step
exports it, at any depth, and as imported exactly if steps only import it. Steps in another order,
taken again or grouped otherwise build the same table. Merging is commutative, associative and
idempotent, and the empty table changes nothing. Entries and unresolved labels ascend by the
bytes of their labels, and the unresolved labels are those imported and never exported. -/
theorem built_by_mentions (steps : List LabelStep) :
    (∀ label,
      ((applyAll .empty steps).get? label = some .exported ↔
        (label, .exported) ∈ allMentions steps) ∧
      ((applyAll .empty steps).get? label = some .imported ↔
        (label, .imported) ∈ allMentions steps ∧ (label, .exported) ∉ allMentions steps) ∧
      ((applyAll .empty steps).get? label = none ↔
        ∀ visibility, (label, visibility) ∉ allMentions steps)) ∧
    (∀ others, (∀ mention, mention ∈ allMentions steps ↔ mention ∈ allMentions others) →
      applyAll .empty steps = applyAll .empty others) ∧
    (∀ others, steps.Perm others → applyAll .empty steps = applyAll .empty others) ∧
    (∀ again, again ⊆ steps → applyAll .empty (steps ++ again) = applyAll .empty steps) ∧
    (∀ front rest, applyAll .empty (front ++ .merge steps :: rest) =
      applyAll .empty (front ++ steps ++ rest)) ∧
    (∀ first second third : LabelTable,
      first.merge second = second.merge first ∧
      (first.merge second).merge third = first.merge (second.merge third) ∧
      first.merge first = first ∧ first.merge .empty = first ∧
      LabelTable.empty.merge first = first) ∧
    ((applyAll .empty steps).entries.Pairwise fun first second =>
      Text.bytes first.1 < Text.bytes second.1) ∧
    (∀ label, label ∈ (applyAll .empty steps).unresolved ↔
      (label, .imported) ∈ allMentions steps ∧ (label, .exported) ∉ allMentions steps) ∧
    (applyAll .empty steps).unresolved.Pairwise fun first second =>
      Text.bytes first < Text.bytes second := by
  refine ⟨fun label => ?_, fun _ => built_congr, fun _ => built_perm, fun _ => built_repeated,
    fun front rest => built_grouped front steps rest, fun first second third => ?_,
    LabelTable.ascending_bytes _, fun label => ?_, LabelTable.unresolved_ascending _⟩
  · rw [get?_built]
    exact ⟨Visibility.named_eq_exported_iff, Visibility.named_eq_imported_iff,
      Visibility.named_eq_none_iff⟩
  · exact ⟨first.merge_comm second, first.merge_assoc second third, first.merge_self,
      first.merge_empty, first.empty_merge⟩
  · rw [LabelTable.mem_unresolved_iff, get?_built, Visibility.named_eq_imported_iff]

/-- A label that is exported only by a table merged into a merged table, and one that is
imported twice. -/
theorem built_by_mentions_nested :
    let steps : List LabelStep :=
      [.importLabel "ä", .merge [.importLabel "z", .merge [.exportLabel "ä"]]]
    let others : List LabelStep :=
      [.exportLabel "ä", .importLabel "z", .importLabel "ä", .importLabel "z"]
    (∀ mention, mention ∈ allMentions steps ↔ mention ∈ allMentions others) ∧
      applyAll .empty steps = applyAll .empty others ∧
      (applyAll .empty steps).get? "ä" = some .exported ∧
      "z" ∈ (applyAll .empty steps).unresolved := by
  intro steps others
  have same : ∀ mention, mention ∈ allMentions steps ↔ mention ∈ allMentions others := by
    intro mention
    simp only [steps, others, allMentions, mentions, List.append_nil, List.cons_append,
      List.nil_append, List.mem_cons, List.not_mem_nil, or_false]
    tauto
  obtain ⟨known, congr, _, _, _, _, _, unresolved, _⟩ := built_by_mentions steps
  exact ⟨same, congr others same, (known "ä").1.mpr (by decide), (unresolved "z").mpr (by decide)⟩

end LabelStep
end TinkaCompiler
