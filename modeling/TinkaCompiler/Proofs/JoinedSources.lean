import TinkaCompiler.Proofs.LabelTables
import TinkaCompiler.Proofs.Linking
import TinkaCompiler.Proofs.Scanning
import TinkaCompiler.Proofs.Spelling

/-! Several sources and their texts in one.

Compiling sources that are each well formed is compiling one text: theirs in link
order, with line feeds between them. -/

set_option autoImplicit false

namespace TinkaCompiler

namespace Source

def definesEntry (source : Source) : Bool :=
  match source.analyze with
  | .ok unit => unit.hasEntryPoint
  | .error _ => false

def linkOrder (sources : List Source) : List Source :=
  sources.filter (·.definesEntry) ++ sources.filter (!·.definesEntry)

def joinedText (sources : List Source) : String :=
  "\n".intercalate (sources.map (·.text))

theorem Reads.definesEntry {source : Source} {outline : Outline} (reads : source.Reads outline) :
    source.definesEntry = outline.unit.hasEntryPoint := by
  rw [Source.definesEntry, analyze_eq_ok.mpr ⟨outline, reads, rfl⟩]

theorem reads_filter (p : Bool → Bool) {sources : List Source} {outlines : List Outline}
    (reads : List.Forall₂ Reads sources outlines) :
    List.Forall₂ Reads (sources.filter (p ·.definesEntry))
      (outlines.filter (p ·.unit.hasEntryPoint)) := by
  induction reads with
  | nil => exact .nil
  | cons spelled _ ih =>
      rw [List.filter_cons, List.filter_cons, spelled.definesEntry]
      split
      · exact .cons spelled ih
      · exact ih

theorem reads_linkOrder {sources : List Source} {outlines : List Outline}
    (reads : List.Forall₂ Reads sources outlines) :
    List.Forall₂ Reads (linkOrder sources)
      (outlines.filter (·.unit.hasEntryPoint) ++ outlines.filter (!·.unit.hasEntryPoint)) :=
  List.rel_append (reads_filter id reads) (reads_filter not reads)

/-- Texts with line feeds between them spell the outlines one after the other. -/
theorem reads_joinedText {sources : List Source} {outlines : List Outline}
    (reads : List.Forall₂ Reads sources outlines)
    (whole : ∀ source ∈ sources, Word.endsInHyphen false source.text.toList = false)
    (file : String) :
    Reads ⟨file, joinedText sources⟩ outlines.flatten := by
  induction reads with
  | nil => exact .done
  | @cons source outline rest outlines spelled others ih =>
      obtain ⟨first, behind⟩ := List.forall_mem_cons.mp whole
      cases others with
      | nil =>
          rw [joinedText, List.map_singleton, String.intercalate_singleton, List.flatten_singleton]
          exact spelled
      | cons second more =>
          rw [Reads, joinedText, List.map_cons, List.map_cons, String.intercalate_cons_cons,
            Word.ofSource_append first, List.flatten_cons]
          exact spelled.append ((ih behind).placed (Word.text_moved _))

theorem exists_outlines {sources : List Source}
    (accepted : ∀ source ∈ sources, ∃ unit, source.analyze = .ok unit) :
    ∃ outlines, List.Forall₂ Reads sources outlines := by
  induction sources with
  | nil => exact ⟨[], .nil⟩
  | cons source rest ih =>
      obtain ⟨⟨unit, analyzed⟩, others⟩ := List.forall_mem_cons.mp accepted
      obtain ⟨outline, reads, _⟩ := analyze_eq_ok.mp analyzed
      obtain ⟨outlines, all⟩ := ih others
      exact ⟨outline :: outlines, .cons reads all⟩

end Source

namespace Outline

theorem linked_singleton (outline : Outline) : linked [outline] = outline := by
  cases entry : outline.unit.hasEntryPoint <;> simp [linked, entry]

/-- The labels and the entry point of a program do not depend on how it is cut into
sources. -/
theorem linkedLabels_linked (outlines : List Outline) :
    Compilation.linkedLabels (outlines.map unit) =
      Compilation.linkedLabels [(linked outlines).unit] := by
  apply Compilation.linkedLabels_congr
  intro expression
  rw [List.flatMap_singleton, unit_expressions, mem_expressions_linked]
  simp

theorem hasEntryPoint_linked (outlines : List Outline) :
    (outlines.map unit).any (·.hasEntryPoint) = (linked outlines).unit.hasEntryPoint := by
  rw [Bool.eq_iff_iff]
  simp only [SourceUnit.hasEntryPoint, unit_expressions, List.any_eq_true, List.any_map,
    Function.comp_apply, mem_expressions_linked]
  constructor
  · rintro ⟨outline, member, expression, inside, entry⟩
    exact ⟨expression, ⟨outline, member, inside⟩, entry⟩
  · rintro ⟨expression, ⟨outline, member, inside⟩, entry⟩
    exact ⟨outline, member, expression, inside, entry⟩

theorem link_linked (outlines : List Outline) :
    Compilation.link (outlines.map unit) = Compilation.link [(linked outlines).unit] := by
  have single := Compilation.link_outlines [linked outlines]
  rw [List.map_singleton, linked_singleton, List.any_cons, List.any_nil, Bool.or_false] at single
  rw [single, Compilation.link_outlines, linkedLabels_linked, hasEntryPoint_linked]

end Outline

namespace Compilation

/-- Sources are compiled like the one text that they make in link order. -/
theorem ofSources_joined {sources : List Source}
    (accepted : ∀ source ∈ sources, ∃ unit, source.analyze = .ok unit)
    (whole : ∀ source ∈ sources, Word.endsInHyphen false source.text.toList = false)
    (file : String) :
    ofSources sources = ofSources [⟨file, Source.joinedText (Source.linkOrder sources)⟩] := by
  obtain ⟨outlines, reads⟩ := Source.exists_outlines accepted
  have ordered : ∀ source ∈ Source.linkOrder sources,
      Word.endsInHyphen false source.text.toList = false := by
    intro source member
    rcases List.mem_append.mp member with found | found <;>
      exact whole source (List.mem_of_mem_filter found)
  have joined := Source.reads_joinedText (Source.reads_linkOrder reads) ordered file
  rw [ofSources_of_units (Source.mapM_analyze_eq_ok.mpr ⟨outlines, reads, rfl⟩),
    ofSources_of_units (Source.mapM_analyze_eq_ok.mpr ⟨[_], .cons joined .nil, rfl⟩)]
  exact Outline.link_linked outlines

/-- A comment and a word that are cut off by the end of a source, and the entry point in
the second source. -/
theorem ofSources_joined_three :
    let sources : List Source := [⟨"f.tnk", "kue f xok g cersva f rinyv situv -- unfinished"⟩,
      ⟨"main.tnk", "cersva _fasal rinyv fenxeo f el niv situv"⟩,
      ⟨"g.tnk", "kue g cersva g x rinyv dosnud x situv"⟩]
    let text :=
      "cersva _fasal rinyv fenxeo f el niv situv\n" ++
        "kue f xok g cersva f rinyv situv -- unfinished\nkue g cersva g x rinyv dosnud x situv"
    (ofSources sources).toOption.map (·.labels.entries) =
      some [("f", .exported), ("g", .exported)] ∧
      ofSources sources = ofSources [⟨"all.tnk", text⟩] := by
  intro sources text
  have joined : Source.joinedText (Source.linkOrder sources) = text := by decide +kernel
  have accepted : ∀ source ∈ sources, ∃ unit, source.analyze = .ok unit := by
    have checked : ∀ source ∈ sources, source.analyze.toOption.isSome := by decide +kernel
    intro source member
    cases analyzed : source.analyze with
    | ok unit => exact ⟨unit, rfl⟩
    | error error =>
        have impossible := checked source member
        rw [analyzed] at impossible
        cases impossible
  have whole : ∀ source ∈ sources, Word.endsInHyphen false source.text.toList = false := by
    decide +kernel
  rw [← joined]
  exact ⟨by decide +kernel, ofSources_joined accepted whole "all.tnk"⟩

end Compilation
end TinkaCompiler
