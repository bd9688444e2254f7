/-! Labels that sources export or import.

A label once exported stays exported; importing it again changes nothing. The
entries are kept in ascending order of their labels, one entry to a label. -/

set_option autoImplicit false

namespace TinkaCompiler

inductive Visibility where
  | exported
  | imported
  deriving DecidableEq, Repr

def alterEntry (label : String) (change : Option Visibility → Visibility) :
    List (String × Visibility) → List (String × Visibility)
  | [] => [(label, change none)]
  | (other, known) :: rest =>
    if label < other then (label, change none) :: (other, known) :: rest
    else if label = other then (other, change (some known)) :: rest
    else (other, known) :: alterEntry label change rest

theorem label_of_mem_alterEntry {label : String} {change : Option Visibility → Visibility}
    {entries : List (String × Visibility)} {entry : String × Visibility}
    (member : entry ∈ alterEntry label change entries) :
    entry.1 = label ∨ ∃ old ∈ entries, old.1 = entry.1 := by
  induction entries with
  | nil => simp_all [alterEntry]
  | cons first rest ih =>
      obtain ⟨other, known⟩ := first
      simp only [alterEntry] at member
      split at member
      · rcases List.mem_cons.mp member with same | old
        · exact Or.inl (by rw [same])
        · exact Or.inr ⟨entry, old, rfl⟩
      · split at member
        · rcases List.mem_cons.mp member with same | old
          · exact Or.inr ⟨(other, known), by simp, by rw [same]⟩
          · exact Or.inr ⟨entry, by simp [old], rfl⟩
        · rcases List.mem_cons.mp member with same | old
          · exact Or.inr ⟨(other, known), by simp, by rw [same]⟩
          · rcases ih old with same | ⟨found, inRest, same⟩
            · exact Or.inl same
            · exact Or.inr ⟨found, by simp [inRest], same⟩

theorem alterEntry_ascending (label : String) (change : Option Visibility → Visibility)
    {entries : List (String × Visibility)} (ascending : entries.Pairwise (·.1 < ·.1)) :
    (alterEntry label change entries).Pairwise (·.1 < ·.1) := by
  induction entries with
  | nil => simp [alterEntry]
  | cons first rest ih =>
      obtain ⟨other, known⟩ := first
      obtain ⟨least, restAscending⟩ := List.pairwise_cons.mp ascending
      simp only [alterEntry]
      split
      · rename_i before
        refine List.pairwise_cons.mpr ⟨fun entry member => ?_, ascending⟩
        rcases List.mem_cons.mp member with same | member
        · rw [same]; exact before
        · exact String.lt_trans before (least entry member)
      · rename_i notBefore
        split
        · exact List.pairwise_cons.mpr ⟨least, restAscending⟩
        · rename_i different
          have after : other < label := by
            apply Decidable.byContradiction
            intro notAfter
            exact different (String.le_antisymm (String.not_lt.mp notAfter)
              (String.not_lt.mp notBefore))
          refine List.pairwise_cons.mpr ⟨fun entry member => ?_, ih restAscending⟩
          rcases label_of_mem_alterEntry member with same | ⟨old, inRest, same⟩
          · rw [same]; exact after
          · rw [← same]; exact least old inRest

structure LabelTable where
  entries : List (String × Visibility)
  ascending : entries.Pairwise (·.1 < ·.1)
  deriving DecidableEq

namespace LabelTable

def empty : LabelTable := ⟨[], .nil⟩

def alter (table : LabelTable) (label : String) (change : Option Visibility → Visibility) :
    LabelTable :=
  ⟨alterEntry label change table.entries, alterEntry_ascending label change table.ascending⟩

/-- Overwrites what was known of the label. -/
def exportLabel (table : LabelTable) (label : String) : LabelTable :=
  table.alter label fun _ => .exported

/-- Keeps what was known of the label. -/
def importLabel (table : LabelTable) (label : String) : LabelTable :=
  table.alter label (·.getD .imported)

def addEntry (table : LabelTable) : String × Visibility → LabelTable
  | (label, .exported) => table.exportLabel label
  | (label, .imported) => table.importLabel label

def merge (table other : LabelTable) : LabelTable :=
  other.entries.foldl addEntry table

def get? (table : LabelTable) (label : String) : Option Visibility :=
  table.entries.lookup label

theorem get?_alter (table : LabelTable) (label other : String)
    (change : Option Visibility → Visibility) :
    (table.alter label change).get? other =
      if other = label then some (change (table.get? label)) else table.get? other := by
  obtain ⟨entries, ascending⟩ := table
  simp only [get?, alter]
  induction entries with
  | nil =>
      by_cases same : other = label
      · simp [alterEntry, same]
      · simp [alterEntry, List.lookup_cons, beq_eq_false_iff_ne.mpr same, same]
  | cons first rest ih =>
      obtain ⟨key, known⟩ := first
      obtain ⟨least, restAscending⟩ := List.pairwise_cons.mp ascending
      have absent (missing : String) (before : missing < key) : rest.lookup missing = none := by
        rw [List.lookup_eq_none_iff]
        intro entry member
        have after : missing < entry.1 := String.lt_trans before (least entry member)
        exact bne_iff_ne.mpr fun same => String.lt_irrefl entry.1 (same ▸ after)
      simp only [alterEntry]
      split
      · rename_i before
        have different : label ≠ key := fun same => String.lt_irrefl _ (same ▸ before)
        by_cases same : other = label
        · subst same
          simp [List.lookup_cons, beq_eq_false_iff_ne.mpr different, absent _ before]
        · simp [List.lookup_cons, beq_eq_false_iff_ne.mpr same, same]
      · split
        · rename_i equal
          subst equal
          by_cases same : other = label
          · simp [same]
          · simp [List.lookup_cons, beq_eq_false_iff_ne.mpr same, same]
        · rename_i different
          by_cases atKey : other = key
          · subst atKey
            simp [Ne.symm different]
          · simp only [List.lookup_cons, beq_eq_false_iff_ne.mpr atKey,
              beq_eq_false_iff_ne.mpr different]
            exact ih restAscending

def unresolved (table : LabelTable) : List String :=
  table.entries.filterMap fun entry => if entry.2 = .imported then some entry.1 else none

def size (table : LabelTable) : Nat :=
  table.entries.length

def isEmpty (table : LabelTable) : Bool :=
  table.entries.isEmpty

end LabelTable

/-- One way to change a label table. A merged table is given by the steps that
build it from the empty table. -/
inductive LabelStep where
  | exportLabel (label : String)
  | importLabel (label : String)
  | merge (steps : List LabelStep)

mutual

def LabelStep.apply (table : LabelTable) : LabelStep → LabelTable
  | .exportLabel label => table.exportLabel label
  | .importLabel label => table.importLabel label
  | .merge steps => table.merge (LabelStep.applyAll .empty steps)

def LabelStep.applyAll (table : LabelTable) : List LabelStep → LabelTable
  | [] => table
  | step :: rest => LabelStep.applyAll (step.apply table) rest

end

end TinkaCompiler
