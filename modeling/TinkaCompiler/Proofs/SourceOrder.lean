import Mathlib.Data.List.Perm.Basic
import TinkaCompiler.Proofs.JoinedSources

/-! What the order of the sources can change.

Units with the entry point go first and otherwise the order stays, so only the order within
the two classes reaches the program. Labels and the entry point do not depend on the order
at all, and neither does whether there is a program. -/

set_option autoImplicit false

namespace TinkaCompiler

namespace Source

theorem linkOrder_of_filter {sources others : List Source}
    (entries : sources.filter (·.definesEntry) = others.filter (·.definesEntry))
    (rest : sources.filter (!·.definesEntry) = others.filter (!·.definesEntry)) :
    linkOrder sources = linkOrder others := by
  rw [linkOrder, entries, rest, linkOrder]

theorem mapM_analyze_linkOrder {sources : List Source} {units : List SourceUnit}
    (analyzed : sources.mapM analyze = .ok units) :
    (linkOrder sources).mapM analyze = .ok (Compilation.linkOrder units) := by
  obtain ⟨outlines, reads, rfl⟩ := mapM_analyze_eq_ok.mp analyzed
  refine mapM_analyze_eq_ok.mpr ⟨_, reads_linkOrder reads, ?_⟩
  rw [Compilation.linkOrder, List.filter_map, List.filter_map, ← List.map_append]
  rfl

theorem exists_outlines_perm {sources others : List Source} {outlines : List Outline}
    (perm : sources.Perm others) (reads : List.Forall₂ Reads sources outlines) :
    ∃ moved, List.Forall₂ Reads others moved ∧ moved.Perm outlines :=
  List.perm_comp_forall₂ perm.symm reads

end Source

namespace Outline

theorem check_linked_eq_ok {outlines : List Outline} :
    (linked outlines).check = .ok () ↔ ∀ outline ∈ outlines, outline.check = .ok () := by
  simp only [check_eq_ok_iff, mem_linked]
  constructor
  · intro all outline member item inside
    exact all item ⟨outline, member, inside⟩
  · rintro all item ⟨outline, member, inside⟩
    exact all outline member item inside

end Outline

namespace Compilation

theorem ofSources_of_reads {sources : List Source} {outlines : List Outline}
    (reads : List.Forall₂ Source.Reads sources outlines) :
    ofSources sources = link (outlines.map Outline.unit) :=
  ofSources_of_units (Source.mapM_analyze_eq_ok.mpr ⟨outlines, reads, rfl⟩)

theorem link_succeeds_iff {outlines : List Outline} :
    (∃ compilation, link (outlines.map Outline.unit) = .ok compilation) ↔
      ∀ outline ∈ outlines, outline.check = .ok () := by
  rw [link_outlines, ← Outline.check_linked_eq_ok]
  cases (Outline.linked outlines).check with
  | ok _ => exact iff_of_true ⟨_, rfl⟩ rfl
  | error _ => exact iff_of_false nofun nofun

theorem linkedLabels_perm {units others : List SourceUnit} (perm : units.Perm others) :
    linkedLabels units = linkedLabels others := by
  apply linkedLabels_congr
  intro expression
  simp only [List.mem_flatMap, perm.mem_iff]

theorem hasEntryPoint_perm {units others : List SourceUnit} (perm : units.Perm others) :
    units.any (·.hasEntryPoint) = others.any (·.hasEntryPoint) := by
  rw [Bool.eq_iff_iff]
  simp only [List.any_eq_true, perm.mem_iff]

theorem link_eq_ok {units : List SourceUnit} {compilation : Compilation}
    (linked : link units = .ok compilation) :
    compilation.labels = linkedLabels units ∧
      compilation.hasEntryPoint = units.any (·.hasEntryPoint) := by
  unfold link at linked
  split at linked
  · cases linked
    exact ⟨rfl, rfl⟩
  · cases linked

theorem linkOrder_perm (units : List SourceUnit) : (linkOrder units).Perm units :=
  List.filter_append_perm _ _

/-- Units that come to the same link order are linked to the same program. -/
theorem link_of_linkOrder {units others : List SourceUnit}
    (order : linkOrder units = linkOrder others) :
    link units = link others := by
  have perm : units.Perm others := (linkOrder_perm units).symm.trans (order ▸ linkOrder_perm others)
  rw [link, link, linkedExpressions, linkedExpressions, order, linkedLabels_perm perm,
    hasEntryPoint_perm perm]

/-- Sources in another order compile if they did before, with the same labels and entry
point. If the sources that define the entry point keep their order, and so do the others,
the result is the same. -/
theorem ofSources_perm {sources others : List Source}
    (accepted : ∀ source ∈ sources, ∃ unit, source.analyze = .ok unit)
    (perm : sources.Perm others) :
    ((∃ compilation, ofSources sources = .ok compilation) ↔
      ∃ compilation, ofSources others = .ok compilation) ∧
      (∀ first second, ofSources sources = .ok first → ofSources others = .ok second →
        first.labels = second.labels ∧ first.labels.unresolved = second.labels.unresolved ∧
          first.hasEntryPoint = second.hasEntryPoint) ∧
      (sources.filter (·.definesEntry) = others.filter (·.definesEntry) →
        sources.filter (!·.definesEntry) = others.filter (!·.definesEntry) →
        ofSources sources = ofSources others) := by
  obtain ⟨outlines, reads⟩ := Source.exists_outlines accepted
  obtain ⟨moved, movedReads, moving⟩ := Source.exists_outlines_perm perm reads
  have units : (outlines.map Outline.unit).Perm (moved.map Outline.unit) :=
    (moving.map Outline.unit).symm
  refine ⟨?_, ?_, ?_⟩
  · rw [ofSources_of_reads reads, ofSources_of_reads movedReads, link_succeeds_iff,
      link_succeeds_iff]
    simp only [moving.mem_iff]
  · intro first second compiled otherCompiled
    rw [ofSources_of_reads reads] at compiled
    rw [ofSources_of_reads movedReads] at otherCompiled
    obtain ⟨labels, entry⟩ := link_eq_ok compiled
    obtain ⟨otherLabels, otherEntry⟩ := link_eq_ok otherCompiled
    have same : first.labels = second.labels := by rw [labels, otherLabels, linkedLabels_perm units]
    exact ⟨same, congrArg LabelTable.unresolved same,
      by rw [entry, otherEntry, hasEntryPoint_perm units]⟩
  · intro entries rest
    -- Both lists of sources have one link order, so their units have one as well.
    have analyzed := Source.mapM_analyze_eq_ok.mpr ⟨outlines, reads, rfl⟩
    have otherAnalyzed := Source.mapM_analyze_eq_ok.mpr ⟨moved, movedReads, rfl⟩
    have ordered := Source.mapM_analyze_linkOrder analyzed
    rw [Source.linkOrder_of_filter entries rest, Source.mapM_analyze_linkOrder otherAnalyzed]
      at ordered
    rw [ofSources_of_units analyzed, ofSources_of_units otherAnalyzed]
    exact link_of_linkOrder (Except.ok.inj ordered).symm

/-- Two libraries with the main source between them. Moving the main source changes nothing.
The libraries the other way round are another program with the same labels. -/
theorem ofSources_perm_interleaved :
    let lib : Source := ⟨"lib.tinka", "kue f xok g cersva f rinyv situv"⟩
    let main : Source := ⟨"main.tinka", "xok h cersva _fasal rinyv situv"⟩
    let more : Source := ⟨"more.tinka", "xok f kue g"⟩
    ofSources [lib, main, more] = ofSources [main, lib, more] ∧
      (ofSources [lib, main, more]).map (·.body) ≠ (ofSources [more, main, lib]).map (·.body) ∧
      ∃ first second, ofSources [lib, main, more] = .ok first ∧
        ofSources [more, main, lib] = .ok second ∧ first.labels = second.labels ∧
        first.labels.unresolved = second.labels.unresolved ∧
        first.hasEntryPoint = second.hasEntryPoint := by
  intro lib main more
  have accepted : ∀ source ∈ [lib, main, more], ∃ unit, source.analyze = .ok unit := by
    have checked : ∀ source ∈ [lib, main, more], source.analyze.toOption.isSome := by decide +kernel
    intro source member
    cases analyzed : source.analyze with
    | ok unit => exact ⟨unit, rfl⟩
    | error error =>
        have impossible := checked source member
        rw [analyzed] at impossible
        cases impossible
  obtain ⟨_, _, same⟩ := ofSources_perm accepted (.swap main lib [more])
  obtain ⟨compiles, labels, _⟩ := ofSources_perm accepted (List.reverse_perm [lib, main, more]).symm
  have body : (ofSources [lib, main, more]).map (·.body.length) = .ok 11 := by decide +kernel
  cases compiled : ofSources [lib, main, more] with
  | error error =>
      rw [compiled] at body
      cases body
  | ok first =>
      obtain ⟨second, otherCompiled⟩ := compiles.mp ⟨first, compiled⟩
      rw [← compiled]
      exact ⟨same (by decide +kernel) (by decide +kernel), by decide +kernel, first, second,
        compiled, otherCompiled, labels first second compiled otherCompiled⟩

end Compilation
end TinkaCompiler
