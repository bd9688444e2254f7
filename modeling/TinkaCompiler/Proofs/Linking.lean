import Mathlib.Data.List.Forall2
import TinkaCompiler.Proofs.Layout
import TinkaCompiler.Proofs.Reading

/-! Outlines of several sources.

Sources that are analyzed without a fault have outlines, one each. Compiling them
lowers the outlines in link order. -/

set_option autoImplicit false

namespace TinkaCompiler

def Source.Reads (source : Source) (outline : Outline) : Prop :=
  Outline.Spelled (Word.ofSource source.text) outline

namespace Outline

def unit (outline : Outline) : SourceUnit :=
  ⟨outline.expressions⟩

@[simp]
theorem unit_expressions (outline : Outline) : outline.unit.expressions = outline.expressions :=
  rfl

def linked (outlines : List Outline) : Outline :=
  (outlines.filter (·.unit.hasEntryPoint) ++ outlines.filter (!·.unit.hasEntryPoint)).flatten

theorem expressions_flatten (outlines : List Outline) :
    Outline.expressions outlines.flatten = outlines.flatMap (·.unit.expressions) := by
  induction outlines with
  | nil => rfl
  | cons outline rest ih => rw [List.flatten_cons, expressions_append, ih, List.flatMap_cons]; rfl

theorem linkedExpressions_units (outlines : List Outline) :
    Compilation.linkedExpressions (outlines.map unit) = (linked outlines).expressions := by
  rw [linked, expressions_flatten, Compilation.linkedExpressions, Compilation.linkOrder,
    List.filter_map, List.filter_map, ← List.map_append, List.flatMap_map]
  rfl

theorem mem_linked {outlines : List Outline} {item : Item} :
    item ∈ linked outlines ↔ ∃ outline ∈ outlines, item ∈ outline := by
  simp only [linked, List.mem_flatten, List.mem_append, List.mem_filter]
  constructor
  · rintro ⟨outline, ⟨member, _⟩ | ⟨member, _⟩, inside⟩ <;> exact ⟨outline, member, inside⟩
  · rintro ⟨outline, member, inside⟩
    refine ⟨outline, ?_, inside⟩
    cases outline.unit.hasEntryPoint <;> simp [member]

theorem mem_expressions_linked {outlines : List Outline} {expression : Expression} :
    expression ∈ (linked outlines).expressions ↔
      ∃ outline ∈ outlines, expression ∈ outline.expressions := by
  simp only [expressions, List.mem_flatMap, mem_linked]
  constructor
  · rintro ⟨item, ⟨outline, member, inside⟩, found⟩
    exact ⟨outline, member, item, inside, found⟩
  · rintro ⟨outline, member, item, inside, found⟩
    exact ⟨item, ⟨outline, member, inside⟩, found⟩

end Outline

namespace Source

theorem analyze_eq_ok {source : Source} {unit : SourceUnit} :
    source.analyze = .ok unit ↔ ∃ outline, source.Reads outline ∧ outline.unit = unit := by
  obtain ⟨expressions⟩ := unit
  have accepted : source.analyze = .ok ⟨expressions⟩ ↔
      Analysis.expressions (Word.ofSource source.text) = .ok expressions := by
    unfold analyze analyzeWords SourceUnit.ofWords
    cases Analysis.expressions (Word.ofSource source.text) <;> simp [bind, Except.bind]
  rw [accepted, Analysis.expressions_eq_ok_iff]
  simp [Reads, Outline.unit]

theorem mapM_analyze_eq_ok {sources : List Source} {units : List SourceUnit} :
    sources.mapM analyze = .ok units ↔
      ∃ outlines, List.Forall₂ Reads sources outlines ∧ outlines.map Outline.unit = units := by
  induction sources generalizing units with
  | nil =>
      constructor
      · intro none
        cases none
        exact ⟨[], .nil, rfl⟩
      · rintro ⟨outlines, none, rfl⟩
        cases none
        rfl
  | cons source rest ih =>
      rw [List.mapM_cons]
      constructor
      · intro accepted
        cases first : source.analyze with
        | error error =>
            rw [first] at accepted
            cases accepted
        | ok unit =>
            cases others : rest.mapM analyze with
            | error error =>
                rw [first, others] at accepted
                cases accepted
            | ok more =>
                rw [first, others] at accepted
                cases accepted
                obtain ⟨outline, reads, rfl⟩ := analyze_eq_ok.mp first
                obtain ⟨outlines, all, rfl⟩ := ih.mp others
                exact ⟨outline :: outlines, .cons reads all, rfl⟩
      · rintro ⟨outlines, all, rfl⟩
        cases all with
        | cons reads all =>
            rw [analyze_eq_ok.mpr ⟨_, reads, rfl⟩, ih.mpr ⟨_, all, rfl⟩]
            rfl

theorem exists_reads {sources : List Source} {outlines : List Outline} {outline : Outline}
    (reads : List.Forall₂ Reads sources outlines) (member : outline ∈ outlines) :
    ∃ source ∈ sources, source.Reads outline := by
  induction reads with
  | nil => cases member
  | @cons source first sources outlines spelled _ ih =>
      cases member with
      | head => exact ⟨source, List.mem_cons_self, spelled⟩
      | tail _ member =>
          obtain ⟨other, known, found⟩ := ih member
          exact ⟨other, List.mem_cons_of_mem source known, found⟩

end Source

namespace Compilation

theorem ofSources_of_units {sources : List Source} {units : List SourceUnit}
    (analyzed : sources.mapM Source.analyze = .ok units) : ofSources sources = link units := by
  rw [ofSources, analyzed]
  rfl

theorem link_outlines (outlines : List Outline) :
    link (outlines.map Outline.unit) =
      match (Outline.linked outlines).check with
      | .ok _ => .ok ⟨((Outline.linked outlines).lines .start).map (·.instruction),
          linkedLabels (outlines.map Outline.unit),
          (outlines.map Outline.unit).any (·.hasEntryPoint)⟩
      | .error error => .error (.generation error) := by
  rw [link, Outline.linkedExpressions_units, Program.generate_outline]
  cases (Outline.linked outlines).check <;> rfl

/-- A compilation lays out the lines of the linked outlines. -/
theorem accepted_of_reads {sources : List Source} {outlines : List Outline}
    {compilation : Compilation} (reads : List.Forall₂ Source.Reads sources outlines)
    (compiled : ofSources sources = .ok compilation) :
    (Outline.linked outlines).check = .ok () ∧
      compilation.body = ((Outline.linked outlines).lines .start).map (·.instruction) := by
  rw [ofSources_of_units (Source.mapM_analyze_eq_ok.mpr ⟨outlines, reads, rfl⟩), link_outlines]
    at compiled
  cases checked : (Outline.linked outlines).check with
  | error error =>
      rw [checked] at compiled
      cases compiled
  | ok _ =>
      rw [checked] at compiled
      cases compiled
      exact ⟨rfl, rfl⟩

theorem exists_reads_of_compiled {sources : List Source} {compilation : Compilation}
    (compiled : ofSources sources = .ok compilation) :
    ∃ outlines, List.Forall₂ Source.Reads sources outlines := by
  cases analyzed : sources.mapM Source.analyze with
  | error error =>
      rw [ofSources, analyzed] at compiled
      cases compiled
  | ok units =>
      obtain ⟨outlines, reads, _⟩ := Source.mapM_analyze_eq_ok.mp analyzed
      exact ⟨outlines, reads⟩

theorem exists_of_map_body {result : Except CompileError Compilation} {body : List Instruction}
    (compiled : result.map (·.body) = .ok body) :
    ∃ compilation, result = .ok compilation ∧ compilation.body = body := by
  cases result with
  | error error => cases compiled
  | ok compilation => exact ⟨compilation, rfl, Except.ok.inj compiled⟩

end Compilation
end TinkaCompiler
