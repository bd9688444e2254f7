import Mathlib.Data.List.Sort
import TinkaCompiler.Compilation
import TinkaCompiler.Proofs.ByteOrder

/-! What a label table knows.

A table depends only on which labels were ever exported and which were ever imported,
not on the order or the number of times, nor on how tables were merged. Under merging,
tables are a semilattice above the empty table. -/

set_option autoImplicit false

namespace TinkaCompiler

namespace Visibility

/-- An export prevails over an import. -/
def join : Visibility → Visibility → Visibility
  | .imported, .imported => .imported
  | _, _ => .exported

def named (label : String) (mentions : List (String × Visibility)) : Option Visibility :=
  if (label, exported) ∈ mentions then some exported
  else if (label, imported) ∈ mentions then some imported
  else none

theorem merge_assoc (first second third : Option Visibility) :
    Option.merge join (Option.merge join first second) third =
      Option.merge join first (Option.merge join second third) := by
  rcases first with _ | (_ | _) <;> rcases second with _ | (_ | _) <;>
    rcases third with _ | (_ | _) <;> rfl

theorem merge_comm (first second : Option Visibility) :
    Option.merge join first second = Option.merge join second first := by
  rcases first with _ | (_ | _) <;> rcases second with _ | (_ | _) <;> rfl

theorem merge_self (known : Option Visibility) : Option.merge join known known = known := by
  rcases known with _ | (_ | _) <;> rfl

theorem named_eq_exported_iff {label : String} {mentions : List (String × Visibility)} :
    named label mentions = some exported ↔ (label, exported) ∈ mentions := by
  by_cases isExported : (label, exported) ∈ mentions <;>
    by_cases isImported : (label, imported) ∈ mentions <;> simp [named, isExported, isImported]

theorem named_eq_imported_iff {label : String} {mentions : List (String × Visibility)} :
    named label mentions = some imported ↔
      (label, imported) ∈ mentions ∧ (label, exported) ∉ mentions := by
  by_cases isExported : (label, exported) ∈ mentions <;>
    by_cases isImported : (label, imported) ∈ mentions <;> simp [named, isExported, isImported]

theorem named_eq_none_iff {label : String} {mentions : List (String × Visibility)} :
    named label mentions = none ↔ ∀ visibility, (label, visibility) ∉ mentions := by
  have both : (∀ visibility, (label, visibility) ∉ mentions) ↔
      (label, exported) ∉ mentions ∧ (label, imported) ∉ mentions := by
    constructor
    · intro never
      exact ⟨never exported, never imported⟩
    · rintro ⟨notExported, notImported⟩ visibility
      cases visibility with
      | exported => exact notExported
      | imported => exact notImported
  rw [both]
  by_cases isExported : (label, exported) ∈ mentions <;>
    by_cases isImported : (label, imported) ∈ mentions <;> simp [named, isExported, isImported]

theorem named_congr {first second : List (String × Visibility)}
    (same : ∀ mention, mention ∈ first ↔ mention ∈ second) (label : String) :
    named label first = named label second := by
  simp only [named, same]

theorem named_append (label : String) (first second : List (String × Visibility)) :
    named label (first ++ second) = Option.merge join (named label first) (named label second) := by
  simp only [named, List.mem_append]
  by_cases exportedFirst : (label, exported) ∈ first <;>
    by_cases exportedSecond : (label, exported) ∈ second <;>
    by_cases importedFirst : (label, imported) ∈ first <;>
    by_cases importedSecond : (label, imported) ∈ second <;>
    simp [exportedFirst, exportedSecond, importedFirst, importedSecond, join]

theorem named_singleton (label other : String) (visibility : Visibility) :
    named other [(label, visibility)] = if other = label then some visibility else none := by
  by_cases same : other = label <;> cases visibility <;> simp [named, same]

end Visibility

namespace LabelTable

open Visibility (named)

def record (table : LabelTable) (label : String) (visibility : Visibility) : LabelTable :=
  table.alter label (·.elim visibility (·.join visibility))

theorem exportLabel_eq_record (table : LabelTable) (label : String) :
    table.exportLabel label = table.record label .exported := by
  refine congrArg (table.alter label) (funext fun known => ?_)
  rcases known with _ | (_ | _) <;> rfl

theorem importLabel_eq_record (table : LabelTable) (label : String) :
    table.importLabel label = table.record label .imported := by
  refine congrArg (table.alter label) (funext fun known => ?_)
  rcases known with _ | (_ | _) <;> rfl

theorem addEntry_eq_record (table : LabelTable) (entry : String × Visibility) :
    table.addEntry entry = table.record entry.1 entry.2 := by
  obtain ⟨label, _ | _⟩ := entry
  · exact exportLabel_eq_record table label
  · exact importLabel_eq_record table label

theorem merge_eq_foldl_record (table other : LabelTable) :
    table.merge other =
      other.entries.foldl (fun merged entry => merged.record entry.1 entry.2) table := by
  unfold merge
  congr 1
  funext merged entry
  exact addEntry_eq_record merged entry

theorem get?_record_eq_merge (table : LabelTable) (label other : String) (visibility : Visibility) :
    (table.record label visibility).get? other =
      Option.merge .join (table.get? other) (named other [(label, visibility)]) := by
  rw [record, get?_alter, Visibility.named_singleton]
  by_cases same : other = label
  · subst same
    cases table.get? other <;> simp
  · simp [same]

theorem get?_foldl_record (table : LabelTable) (mentions : List (String × Visibility))
    (label : String) :
    (mentions.foldl (fun table mention => table.record mention.1 mention.2) table).get? label =
      Option.merge .join (table.get? label) (named label mentions) := by
  induction mentions generalizing table with
  | nil => cases found : table.get? label <;> simp [named, found]
  | cons mention rest ih =>
      rw [List.foldl_cons, ih, get?_record_eq_merge, Visibility.merge_assoc,
        ← Visibility.named_append]
      rfl

theorem get?_eq_some_iff (table : LabelTable) {label : String} {visibility : Visibility} :
    table.get? label = some visibility ↔ (label, visibility) ∈ table.entries := by
  rw [get?, List.lookup_eq_some_iff]
  constructor
  · rintro ⟨before, after, split, _⟩
    rw [split]
    exact List.mem_append_right _ List.mem_cons_self
  · intro member
    obtain ⟨before, after, split⟩ := List.append_of_mem member
    refine ⟨before, after, split, ?_⟩
    -- Entries in front of this one have smaller labels.
    intro entry inFront
    have ascending := table.ascending
    rw [split, List.pairwise_append] at ascending
    have smaller := ascending.2.2 entry inFront _ List.mem_cons_self
    exact bne_iff_ne.mpr fun same => String.lt_irrefl label (same ▸ smaller)

theorem named_entries (table : LabelTable) (label : String) :
    named label table.entries = table.get? label := by
  simp only [named, ← get?_eq_some_iff]
  cases table.get? label with
  | none => rfl
  | some visibility => cases visibility <;> rfl

theorem get?_merge (table other : LabelTable) (label : String) :
    (table.merge other).get? label = Option.merge .join (table.get? label) (other.get? label) := by
  rw [merge_eq_foldl_record, get?_foldl_record, named_entries]

/-- Tables that know the same are the same. -/
theorem eq_of_get? {table other : LabelTable}
    (same : ∀ label, table.get? label = other.get? label) :
    table = other := by
  have members : ∀ entry, entry ∈ table.entries ↔ entry ∈ other.entries := by
    intro entry
    rw [← get?_eq_some_iff, ← get?_eq_some_iff, same]
  have : Std.Irrefl fun first second : String × Visibility => first.1 < second.1 :=
    ⟨fun entry => String.lt_irrefl entry.1⟩
  have : Std.Antisymm fun first second : String × Visibility => first.1 < second.1 :=
    ⟨fun _ _ before after => absurd after (String.lt_asymm before)⟩
  have entries := table.ascending.eq_of_mem_iff other.ascending members
  cases table
  cases other
  cases entries
  rfl

theorem merge_comm (first second : LabelTable) : first.merge second = second.merge first := by
  apply eq_of_get?
  intro label
  rw [get?_merge, get?_merge, Visibility.merge_comm]

theorem merge_assoc (first second third : LabelTable) :
    (first.merge second).merge third = first.merge (second.merge third) := by
  apply eq_of_get?
  intro label
  rw [get?_merge, get?_merge, get?_merge, get?_merge, Visibility.merge_assoc]

theorem merge_self (table : LabelTable) : table.merge table = table := by
  apply eq_of_get?
  intro label
  rw [get?_merge, Visibility.merge_self]

theorem merge_empty (table : LabelTable) : table.merge .empty = table :=
  rfl

theorem empty_merge (table : LabelTable) : empty.merge table = table := by
  rw [merge_comm, merge_empty]

theorem ascending_bytes (table : LabelTable) :
    table.entries.Pairwise fun first second => Text.bytes first.1 < Text.bytes second.1 :=
  table.ascending.imp Text.bytes_lt_of_lt

theorem eq_of_unresolved {entry : String × Visibility} {label : String}
    (kept : (if entry.2 = .imported then some entry.1 else none) = some label) :
    entry = (label, .imported) := by
  split at kept
  · rename_i visibility
    exact Prod.ext (Option.some.inj kept) visibility
  · cases kept

theorem mem_unresolved_iff (table : LabelTable) {label : String} :
    label ∈ table.unresolved ↔ table.get? label = some .imported := by
  rw [get?_eq_some_iff, unresolved, List.mem_filterMap]
  constructor
  · rintro ⟨entry, member, kept⟩
    exact eq_of_unresolved kept ▸ member
  · intro member
    exact ⟨(label, .imported), member, if_pos rfl⟩

theorem unresolved_ascending (table : LabelTable) :
    table.unresolved.Pairwise fun first second => Text.bytes first < Text.bytes second := by
  apply table.ascending_bytes.filterMap
  intro first second ordered label kept other otherKept
  rw [eq_of_unresolved kept, eq_of_unresolved otherKept] at ordered
  exact ordered

end LabelTable

def Expression.mention? : Expression → Option (String × Visibility)
  | .exportLabel label => some (label, .exported)
  | .importLabel label => some (label, .imported)
  | _ => none

open Visibility (named)

theorem SourceUnit.foldl_recordLabel (table : LabelTable) (expressions : List Expression) :
    expressions.foldl recordLabel table =
      (expressions.filterMap Expression.mention?).foldl
        (fun table mention => table.record mention.1 mention.2) table := by
  induction expressions generalizing table with
  | nil => rfl
  | cons expression rest ih =>
      rw [List.foldl_cons, ih]
      cases expression with
      | exportLabel label =>
          rw [recordLabel, LabelTable.exportLabel_eq_record]
          rfl
      | importLabel label =>
          rw [recordLabel, LabelTable.importLabel_eq_record]
          rfl
      | _ => rfl

theorem SourceUnit.get?_labels (unit : SourceUnit) (label : String) :
    unit.labels.get? label = named label (unit.expressions.filterMap Expression.mention?) := by
  rw [labels, foldl_recordLabel, LabelTable.get?_foldl_record]
  exact Option.merge_none_left

namespace Compilation

theorem get?_foldl_merge (table : LabelTable) (units : List SourceUnit) (label : String) :
    (units.foldl (fun table unit => table.merge unit.labels) table).get? label =
      Option.merge .join (table.get? label)
        (named label ((units.flatMap (·.expressions)).filterMap Expression.mention?)) := by
  induction units generalizing table with
  | nil => exact Option.merge_none_right.symm
  | cons unit rest ih =>
      rw [List.foldl_cons, ih, LabelTable.get?_merge, SourceUnit.get?_labels, List.flatMap_cons,
        List.filterMap_append, Visibility.named_append, Visibility.merge_assoc]

theorem get?_linkedLabels (units : List SourceUnit) (label : String) :
    (linkedLabels units).get? label =
      named label ((units.flatMap (·.expressions)).filterMap Expression.mention?) :=
  (get?_foldl_merge .empty units label).trans Option.merge_none_left

theorem linkedLabels_congr {units others : List SourceUnit}
    (same : ∀ expression, expression ∈ units.flatMap (·.expressions) ↔
      expression ∈ others.flatMap (·.expressions)) :
    linkedLabels units = linkedLabels others := by
  apply LabelTable.eq_of_get?
  intro label
  rw [get?_linkedLabels, get?_linkedLabels]
  apply Visibility.named_congr
  intro mention
  simp only [List.mem_filterMap, same]

end Compilation
end TinkaCompiler
