import TinkaCompiler.Proofs.Diagnostics
import TinkaCompiler.Proofs.Prolonging

/-! Blocks that are left open.

Words that fail for nothing but open blocks have all been read, and no header waits behind them.
So each closer behind them closes one block: as many closers as there are open blocks make the
words accepted, with fewer the rest stays open, and the first one more has nothing to close. -/

set_option autoImplicit false

namespace TinkaCompiler

namespace Analysis

theorem Reaches.trans {context between after : Context} {first second : List Word}
    {expressions others : List Expression} (reaches : Reaches context first expressions between)
    (behind : Reaches between second others after) :
    Reaches context (first ++ second) (expressions ++ others) after := by
  induction reaches with
  | here => exact behind
  | step read _ ih =>
      have longer := Reaches.step (step_append read second) (ih behind)
      exact longer

/-- The blocks that are reported open are those that are open when all words are read. -/
theorem reaches_of_unbalanced {words : List Word} {fault : Fault} {count : Nat}
    (failed : run .start words = .error fault)
    (unbalanced : fault.violation = .unbalancedBlocks count) :
    fault = .atEnd (.unbalancedBlocks count) ∧ 0 < count ∧
      ∃ expressions, Reaches .start words expressions (.between count) := by
  have pointed := locates_run .start words fault failed
  cases ending .start words with
  | reached expressions after reaches =>
      rcases Context.finish_eq_error (reaches.finish_of_run failed) with
        ⟨keyword, found, rfl⟩ | ⟨ready, opened, rfl⟩
      · cases unbalanced
      · cases unbalanced
        have between := (reaches.regular (Context.regular_between 0)).eq_between ready
        exact ⟨rfl, opened, expressions, between ▸ reaches⟩
  | stopped other atWord fails =>
      -- A fault at a word names that word, and open blocks name none.
      have same := fails []
      rw [List.append_nil, failed] at same
      cases same
      cases pointed with
      | atEnd => exact absurd rfl atWord
      | atWord _ named =>
          cases unbalanced
          cases named
  | cutOff other cut same =>
      rw [failed] at same
      cases same
      rw [unbalanced] at cut
      exact cut.elim

section Closers

variable {closers : List Word}

theorem reaches_closers (closed : ∀ closer ∈ closers, closer.text = Keyword.closeBlock.word)
    {depth : Nat} (few : closers.length ≤ depth) :
    ∃ expressions,
      Reaches (.between depth) closers expressions (.between (depth - closers.length)) := by
  induction closers generalizing depth with
  | nil => exact ⟨[], .here⟩
  | cons closer rest ih =>
      obtain ⟨first, others⟩ := List.forall_mem_cons.mp closed
      cases depth with
      | zero => cases few
      | succ depth =>
          obtain ⟨expressions, reaches⟩ := ih others (Nat.le_of_succ_le_succ few)
          rw [List.length_cons, Nat.add_sub_add_right]
          exact ⟨_, .step (step_inside_iff.mpr (.close first)) reaches⟩

theorem reaches_start (closed : ∀ closer ∈ closers, closer.text = Keyword.closeBlock.word) :
    ∃ expressions, Reaches (.between closers.length) closers expressions .start := by
  obtain ⟨expressions, reaches⟩ := reaches_closers closed (Nat.le_refl _)
  rw [Nat.sub_self] at reaches
  exact ⟨expressions, reaches⟩

theorem step_unmatched {closer : Word} (closed : closer.text = Keyword.closeBlock.word)
    (more : List Word) :
    step .start closer more = .error (.atWord closer .unmatchedCloser) :=
  step_of_keyword rfl closed more

theorem run_unmatched (closed : ∀ closer ∈ closers, closer.text = Keyword.closeBlock.word)
    {words : List Word} {expressions : List Expression} {count : Nat}
    (reaches : Reaches .start words expressions (.between count)) (many : count < closers.length) :
    run .start (words ++ closers) = .error (.atWord closers[count] .unmatchedCloser) := by
  have split : closers.take count ++ closers[count] :: closers.drop (count + 1) = closers := by
    rw [← List.drop_eq_getElem_cons many, List.take_append_drop]
  have matching : (closers.take count).length = count := List.length_take_of_le (Nat.le_of_lt many)
  obtain ⟨closings, closes⟩ := reaches_start fun closer member =>
    closed closer (List.mem_of_mem_take member)
  rw [matching] at closes
  have refused := step_unmatched (closed _ (List.getElem_mem many)) (closers.drop (count + 1))
  have ran := (reaches.trans closes).run_append (closers[count] :: closers.drop (count + 1))
  rw [List.append_assoc, split] at ran
  rw [ran, run_of_failed refused]
  rfl

end Closers

end Analysis

namespace Source

/-- Behind words, one of some closers is refused: the one with `count` others in front of it. -/
def RefusesCloser (source : Source) (words closers : List Word) (count : Nat) : Prop :=
  ∃ closer, closers[count]? = some closer ∧
    source.analyzeWords (words ++ closers) =
      .error (.analysis .unmatchedCloser (.ofOffset source.file source.text closer.offset))

theorem refusesCloser_of_reaches {words closers : List Word} {expressions : List Expression}
    {count : Nat} (reaches : Analysis.Reaches .start words expressions (.between count))
    (closed : ∀ closer ∈ closers, closer.text = Keyword.closeBlock.word)
    (many : count < closers.length) (source : Source) : source.RefusesCloser words closers count :=
  ⟨closers[count], List.getElem?_eq_getElem many,
    analyzeWords_eq_error.mpr ⟨_, Analysis.run_unmatched closed reaches many, rfl⟩⟩

/-- The number of open blocks that is reported is exact. With fewer closers behind the words,
the rest is reported at the same position; with as many, the words are accepted; with more, the
first closer that is too many is refused. Behind accepted words the first closer is refused. -/
theorem open_blocks_exact (source : Source) (words : List Word) {closers : List Word}
    (closed : ∀ closer ∈ closers, closer.text = Keyword.closeBlock.word) :
    (∀ count position, source.analyzeWords words =
      .error (.analysis (.unbalancedBlocks count) position) → (closers.length < count →
        source.analyzeWords (words ++ closers) =
          .error (.analysis (.unbalancedBlocks (count - closers.length)) position)) ∧
      (closers.length = count → ∃ unit, source.analyzeWords (words ++ closers) = .ok unit) ∧
      (count < closers.length → source.RefusesCloser words closers count)) ∧
    ∀ unit, source.analyzeWords words = .ok unit → closers ≠ [] →
      source.RefusesCloser words closers 0 := by
  constructor
  · intro count position failed
    obtain ⟨fault, ran, same⟩ := analyzeWords_eq_error.mp failed
    obtain ⟨violation, rfl⟩ := CompileError.analysis.inj same
    obtain ⟨rfl, _, expressions, reaches⟩ := Analysis.reaches_of_unbalanced ran violation.symm
    refine ⟨fun few => ?_, fun enough => ?_,
      fun many => refusesCloser_of_reaches reaches closed many source⟩
    · obtain ⟨closings, closes⟩ := Analysis.reaches_closers closed (Nat.le_of_lt few)
      refine analyzeWords_eq_error.mpr
        ⟨.atEnd (.unbalancedBlocks (count - closers.length)), ?_, rfl⟩
      have left : count - closers.length ≠ 0 := Nat.sub_ne_zero_of_lt few
      rw [(reaches.trans closes).run_eq, Analysis.run_nil, Analysis.Context.finish,
        Analysis.Context.awaiting_between, Analysis.Context.depth_between]
      simp only [if_neg left]
      rfl
    · obtain ⟨closings, closes⟩ := Analysis.reaches_start closed
      rw [enough] at closes
      have whole := reaches.trans closes
      refine ⟨⟨expressions ++ closings⟩, analyzeWords_eq_ok.mpr ?_⟩
      rw [Analysis.expressions, whole.run_eq, Analysis.run_nil_eq_ok.mpr ⟨rfl, rfl, rfl⟩,
        Except.map, List.append_nil]
  · intro unit accepted some
    have reaches := Analysis.reaches_of_run (analyzeWords_eq_ok.mp accepted)
    exact refusesCloser_of_reaches reaches closed (List.length_pos_iff.mpr some) source

/-- A closed loop and an open branch in a function that is open too. -/
theorem open_blocks_exact_nested :
    let source : Source := ⟨"f.tinka", "cersva f x rinyv fal x clo 1 rinyv situv fi x niv 2 rinyv"⟩
    let words := Word.ofSource source.text
    let position : Position := ⟨"f.tinka", 1, 58, source.text⟩
    let first : Word := ⟨"situv", 58⟩
    let second : Word := ⟨"situv", 64⟩
    source.analyzeWords words = .error (.analysis (.unbalancedBlocks 2) position) ∧
      source.analyzeWords (words ++ [first]) = .error (.analysis (.unbalancedBlocks 1) position) ∧
      (∃ unit, source.analyzeWords (words ++ [first, second]) = .ok unit) ∧
      source.RefusesCloser words [first, second, second] 2 ∧
      source.RefusesCloser (words ++ [first, second]) [second] 0 := by
  intro source words position first second
  have failed : source.analyzeWords words = .error (.analysis (.unbalancedBlocks 2) position) := by
    decide +kernel
  obtain ⟨fewer, _⟩ := open_blocks_exact source words (show ∀ closer ∈ [first], _ by decide)
  obtain ⟨enough, _⟩ := open_blocks_exact source words
    (show ∀ closer ∈ [first, second], _ by decide)
  obtain ⟨more, _⟩ := open_blocks_exact source words
    (show ∀ closer ∈ [first, second, second], _ by decide)
  obtain ⟨unit, accepted⟩ := (enough 2 position failed).2.1 rfl
  obtain ⟨_, behind⟩ := open_blocks_exact source (words ++ [first, second])
    (show ∀ closer ∈ [second], _ by decide)
  exact ⟨failed, (fewer 2 position failed).1 (by decide), ⟨unit, accepted⟩,
    (more 2 position failed).2.2 (by decide), behind unit accepted (List.cons_ne_nil _ _)⟩

end Source
end TinkaCompiler
