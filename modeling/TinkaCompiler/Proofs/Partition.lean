import TinkaCompiler.Proofs.Scanning

/-! A text cut into words and what stands between them.

A word is made of letters and of hyphens, each hyphen with the character behind it. Around
words stand blanks and comments, and at most a hyphen at the very end. Every text can be cut
like this in one way only, if a word never ends where it could go on, and that is the way
in which the scan cuts it. Two texts with a line feed between them are cut apart there, unless
the first ends in such a hyphen. -/

set_option autoImplicit false

namespace TinkaCompiler

namespace Word

/-- Letters, and hyphens with the character behind each. -/
inductive Units : List Char → Prop where
  | nil : Units []
  | letter {c : Char} {rest : List Char} :
      c ≠ '-' → Text.isBlank c = false → Units rest → Units (c :: rest)
  | hyphen {c : Char} {rest : List Char} : c ≠ '-' → Units rest → Units ('-' :: c :: rest)

inductive Stops : List Char → Prop where
  | ended : Stops []
  | blank {c : Char} {rest : List Char} : Text.isBlank c → Stops (c :: rest)
  | comment {rest : List Char} : Stops ('-' :: '-' :: rest)
  | hyphen : Stops ['-']

def OneLine (text : List Char) : Prop :=
  ∀ c ∈ text, endsLine c = false

/-- A text that stands `offset` bytes into its source is cut into words, blanks and comments.
Only at its end may stand a comment that no line ends, or a single hyphen. -/
inductive Divides : Nat → List Char → List Word → Prop where
  | ended {offset : Nat} : Divides offset [] []
  | hyphen {offset : Nat} : Divides offset ['-'] []
  | lastComment {offset : Nat} {text : List Char} :
      OneLine text → Divides offset ('-' :: '-' :: text) []
  | comment {offset : Nat} {text rest : List Char} {c : Char} {words : List Word} :
      OneLine text → endsLine c →
      Divides (offset + 2 + (String.ofList text).utf8ByteSize + c.utf8Size) rest words →
      Divides offset ('-' :: '-' :: text ++ c :: rest) words
  | blank {offset : Nat} {c : Char} {rest : List Char} {words : List Word} :
      Text.isBlank c → Divides (offset + c.utf8Size) rest words → Divides offset (c :: rest) words
  | word {offset : Nat} {text rest : List Char} {words : List Word} :
      Units text → text ≠ [] → Stops rest →
      Divides (offset + (String.ofList text).utf8ByteSize) rest words →
      Divides offset (text ++ rest) (⟨String.ofList text, offset⟩ :: words)

theorem ne_hyphen_of_isBlank {c : Char} (blank : Text.isBlank c) : c ≠ '-' := by
  rintro rfl
  exact absurd blank (by decide)

/-! The scan of a text that is cut. -/

def Mode.extendBy (mode : Mode) (offset : Nat) : List Char → Mode
  | [] => mode
  | c :: rest => (mode.extend offset c).extendBy (offset + c.utf8Size) rest

theorem Mode.extendBy_inside (start : Nat) (reversed : List Char) (offset : Nat)
    (text : List Char) :
    (Mode.inside start reversed).extendBy offset text =
      .inside start (text.reverse ++ reversed) := by
  induction text generalizing reversed offset with
  | nil => rfl
  | cons c text ih =>
      rw [extendBy, extend, ih, List.reverse_cons, List.append_assoc, List.singleton_append]

theorem Mode.extendBy_between (offset : Nat) {text : List Char} (some : text ≠ []) :
    Mode.between.extendBy offset text = .inside offset text.reverse := by
  cases text with
  | nil => exact absurd rfl some
  | cons c text => rw [extendBy, extend, extendBy_inside, List.reverse_cons]

section Scans

variable {offset : Nat} {rest : List Char}

theorem scan_units {text : List Char} (units : Units text) {mode : Mode}
    (outside : mode ≠ .comment) :
    scan mode offset (text ++ rest) =
      scan (mode.extendBy offset text) (offset + (String.ofList text).utf8ByteSize) rest := by
  induction units generalizing offset mode with
  | nil => rfl
  | letter other letter _ ih =>
      rw [List.cons_append, scan_letter outside other (by rw [letter]; exact Bool.false_ne_true),
        ih extend_ne_comment, utf8ByteSize_ofList_cons, Nat.add_assoc]
      rfl
  | hyphen other _ ih =>
      rw [List.cons_append, List.cons_append, scan_hyphen outside other, ih extend_ne_comment,
        utf8ByteSize_ofList_cons, utf8ByteSize_ofList_cons, Nat.add_assoc (offset + 1),
        ← Nat.add_assoc offset]
      rfl

theorem scan_stops (stops : Stops rest) (start : Nat) (reversed : List Char) :
    scan (.inside start reversed) offset rest =
      ⟨String.ofList reversed.reverse, start⟩ :: scan .between offset rest := by
  cases stops with
  | ended => rfl
  | blank blank =>
      rw [scan_blank Mode.noConfusion (ne_hyphen_of_isBlank blank) blank,
        scan_blank Mode.noConfusion (ne_hyphen_of_isBlank blank) blank]
      rfl
  | comment =>
      rw [scan_two_hyphens Mode.noConfusion, scan_two_hyphens Mode.noConfusion]
      rfl
  | hyphen =>
      rw [scan_last_hyphen Mode.noConfusion, scan_last_hyphen Mode.noConfusion]
      rfl

theorem scan_oneLine {text : List Char} (line : OneLine text) :
    scan .comment offset (text ++ rest) =
      scan .comment (offset + (String.ofList text).utf8ByteSize) rest := by
  induction text generalizing offset with
  | nil => rfl
  | cons c text ih =>
      obtain ⟨first, others⟩ := List.forall_mem_cons.mp line
      rw [List.cons_append, scan_comment, if_neg (by rw [first]; exact Bool.false_ne_true),
        ih others, utf8ByteSize_ofList_cons, Nat.add_assoc]

end Scans

/-- The scan finds the words of a text that is cut. -/
theorem scan_of_divides {offset : Nat} {text : List Char} {words : List Word}
    (divides : Divides offset text words) :
    scan .between offset text = words := by
  induction divides with
  | ended => rfl
  | hyphen => exact scan_last_hyphen Mode.noConfusion
  | @lastComment offset text line =>
      rw [scan_two_hyphens Mode.noConfusion, ← List.append_nil text, scan_oneLine line]
      rfl
  | comment line ends _ ih =>
      rw [List.cons_append, List.cons_append, scan_two_hyphens Mode.noConfusion,
        scan_oneLine line, scan_comment, if_pos ends, ih]
      rfl
  | blank blank _ ih =>
      rw [scan_blank Mode.noConfusion (ne_hyphen_of_isBlank blank) blank, ih]
      rfl
  | word units some stops _ ih =>
      rw [scan_units units Mode.noConfusion, Mode.extendBy_between _ some, scan_stops stops, ih,
        List.reverse_reverse]

/-! The scan cuts every text. -/

/-- What a scan in a mode says about the text that is left: it is cut, once the word or the
comment that the scan is in has come to its end. -/
def Mode.Leads (mode : Mode) (offset : Nat) (text : List Char) (words : List Word) : Prop :=
  match mode with
  | .between => Divides offset text words
  | .inside start reversed =>
    ∃ more rest others, text = more ++ rest ∧ Units more ∧ Stops rest ∧
      Divides (offset + (String.ofList more).utf8ByteSize) rest others ∧
      words = ⟨String.ofList (reversed.reverse ++ more), start⟩ :: others
  | .comment =>
    OneLine text ∧ words = [] ∨
      ∃ line c rest, text = line ++ c :: rest ∧ OneLine line ∧ endsLine c ∧
        Divides (offset + (String.ofList line).utf8ByteSize + c.utf8Size) rest words

theorem Mode.Leads.finish {mode : Mode} {offset : Nat} {text : List Char} {words : List Word}
    (outside : mode ≠ .comment) (stops : Stops text) (divides : Divides offset text words) :
    mode.Leads offset text (mode.finished ++ words) := by
  cases mode with
  | between => exact divides
  | comment => exact absurd rfl outside
  | inside start reversed =>
      refine ⟨[], text, words, rfl, .nil, stops, divides, ?_⟩
      rw [List.append_nil]
      rfl

theorem divides_comment {offset : Nat} {text : List Char} {words : List Word}
    (leads : Mode.comment.Leads (offset + 2) text words) :
    Divides offset ('-' :: '-' :: text) words := by
  rcases leads with ⟨line, rfl⟩ | ⟨line, c, rest, rfl, single, ends, divides⟩
  · exact .lastComment line
  · exact .comment single ends divides

theorem Mode.Leads.extend {mode : Mode} {offset : Nat} {unit text : List Char} {words : List Word}
    (outside : mode ≠ .comment) (some : unit ≠ [])
    (isUnit : ∀ {rest : List Char}, Units rest → Units (unit ++ rest))
    (leads : (mode.extendBy offset unit).Leads
      (offset + (String.ofList unit).utf8ByteSize) text words) :
    mode.Leads offset (unit ++ text) words := by
  cases mode with
  | comment => exact absurd rfl outside
  | between =>
      rw [extendBy_between offset some] at leads
      obtain ⟨more, rest, others, rfl, units, stops, divides, rfl⟩ := leads
      rw [List.reverse_reverse, ← List.append_assoc]
      apply Divides.word (isUnit units) (List.append_ne_nil_of_left_ne_nil some more) stops
      rw [String.ofList_append, String.utf8ByteSize_append, ← Nat.add_assoc]
      exact divides
  | inside start reversed =>
      rw [extendBy_inside] at leads
      obtain ⟨more, rest, others, rfl, units, stops, divides, rfl⟩ := leads
      refine ⟨unit ++ more, rest, others, (List.append_assoc ..).symm, isUnit units, stops, ?_, ?_⟩
      · rw [String.ofList_append, String.utf8ByteSize_append, ← Nat.add_assoc]
        exact divides
      · rw [List.reverse_append, List.reverse_reverse, List.append_assoc]

theorem leads_scan (mode : Mode) (offset : Nat) (text : List Char) :
    mode.Leads offset text (scan mode offset text) := by
  fun_induction scan mode offset text with
  | case1 mode offset =>
      cases mode with
      | comment => exact Or.inl ⟨List.forall_mem_nil _, rfl⟩
      | between => exact .ended
      | inside start reversed => exact .finish Mode.noConfusion .ended .ended
  | case2 offset c rest ih =>
      by_cases ends : endsLine c
      · rw [if_pos ends] at ih ⊢
        exact Or.inr ⟨[], c, rest, rfl, List.forall_mem_nil _, ends, ih⟩
      · rw [if_neg ends] at ih ⊢
        have first := eq_false_of_ne_true ends
        rcases ih with ⟨line, none⟩ | ⟨line, stop, more, rfl, single, stopped, divides⟩
        · exact Or.inl ⟨List.forall_mem_cons.mpr ⟨first, line⟩, none⟩
        · refine Or.inr ⟨c :: line, stop, more, rfl, List.forall_mem_cons.mpr ⟨first, single⟩,
            stopped, ?_⟩
          rw [utf8ByteSize_ofList_cons, ← Nat.add_assoc]
          exact divides
  | case3 offset mode outside =>
      have finished : mode.Leads offset ['-'] (mode.finished ++ []) :=
        .finish outside .hyphen .hyphen
      rwa [List.append_nil] at finished
  | case4 offset mode outside rest ih => exact .finish outside .comment (divides_comment ih)
  | case5 offset mode outside c rest other ih =>
      show mode.Leads offset (['-', c] ++ rest) _
      apply Mode.Leads.extend outside (List.cons_ne_nil _ _) (Units.hyphen other)
      rw [utf8ByteSize_ofList_cons, utf8ByteSize_ofList_cons, ← Nat.add_assoc, ← Nat.add_assoc]
      exact ih
  | case6 offset c rest mode outside other blank ih =>
      exact .finish outside (.blank blank) (.blank blank ih)
  | case7 offset c rest mode outside other letter ih =>
      show mode.Leads offset ([c] ++ rest) _
      apply Mode.Leads.extend outside (List.cons_ne_nil _ _)
        (Units.letter other (eq_false_of_ne_true letter))
      rw [utf8ByteSize_ofList_cons, ← Nat.add_assoc]
      exact ih

/-- The words of a source are those of the one way to cut it. -/
theorem ofSource_eq_iff {source : String} {words : List Word} :
    ofSource source = words ↔ Divides 0 source.toList words := by
  constructor
  · rintro rfl
    exact leads_scan .between 0 source.toList
  · exact scan_of_divides

/-! Words of a text that is cut. -/

theorem stops_cons {c : Char} {rest : List Char} (stops : Stops (c :: rest)) :
    Text.isBlank c ∨ c = '-' ∧ rest.head?.all (· == '-') := by
  cases stops with
  | blank blank => exact Or.inl blank
  | comment => exact Or.inr ⟨rfl, rfl⟩
  | hyphen => exact Or.inr ⟨rfl, rfl⟩

theorem Units.not_stops {text : List Char} (units : Units text) (some : text ≠ [])
    (rest : List Char) :
    ¬ Stops (text ++ rest) := by
  intro stops
  cases units with
  | nil => exact some rfl
  | letter other letter =>
      rcases stops_cons stops with blank | ⟨hyphen, _⟩
      · exact absurd (letter.symm.trans blank) Bool.false_ne_true
      · exact other hyphen
  | hyphen other =>
      rcases stops_cons stops with blank | ⟨_, second⟩
      · exact ne_hyphen_of_isBlank blank rfl
      · exact other (beq_iff_eq.mp second)

section Offsets

variable {offset : Nat} {text : List Char} {words : List Word} (divides : Divides offset text words)

include divides

theorem Divides.le_offset : ∀ word ∈ words, offset ≤ word.offset := by
  induction divides with
  | ended | hyphen | lastComment => exact List.forall_mem_nil _
  | comment _ _ _ ih =>
      intro word member
      have later := ih word member
      omega
  | blank _ _ ih => exact fun word member => Nat.le_of_add_right_le (ih word member)
  | word _ _ _ _ ih =>
      rw [List.forall_mem_cons]
      exact ⟨Nat.le_refl _, fun word member => Nat.le_of_add_right_le (ih word member)⟩

theorem Divides.lt_offset (stops : Stops text) : ∀ word ∈ words, offset < word.offset := by
  cases divides with
  | ended | hyphen | lastComment => exact List.forall_mem_nil _
  | comment _ _ rest =>
      intro word member
      have later := rest.le_offset word member
      omega
  | @blank _ c _ _ _ rest =>
      intro word member
      have later := rest.le_offset word member
      have size := c.utf8Size_pos
      omega
  | word units some => exact absurd stops (units.not_stops some _)

theorem Divides.pairwise :
    words.Pairwise fun first second => first.offset + first.text.utf8ByteSize < second.offset := by
  induction divides with
  | ended | hyphen | lastComment => exact List.Pairwise.nil
  | comment _ _ _ ih => exact ih
  | blank _ _ ih => exact ih
  | word _ _ stops rest ih => exact List.pairwise_cons.mpr ⟨rest.lt_offset stops, ih⟩

theorem Divides.units : ∀ word ∈ words, word.text ≠ "" ∧ Units word.text.toList := by
  induction divides with
  | ended | hyphen | lastComment => exact List.forall_mem_nil _
  | comment _ _ _ ih => exact ih
  | blank _ _ ih => exact ih
  | @word _ text _ _ units some _ _ ih =>
      rw [List.forall_mem_cons, String.toList_ofList]
      exact ⟨⟨by simpa using some, units⟩, ih⟩

end Offsets

/-- The scan cuts a source in the one way there is. Its words follow one another with at
least a byte between them. Each is a piece of the source that begins at the word's offset
and is made of units, at least one. -/
theorem ofSource_partitions (source : String) :
    (∀ words, ofSource source = words ↔ Divides 0 source.toList words) ∧
      (ofSource source).Pairwise
        (fun first second => first.offset + first.text.utf8ByteSize < second.offset) ∧
      ∀ word ∈ ofSource source, word.text ≠ "" ∧ Units word.text.toList ∧
        ∃ before after, source = before ++ word.text ++ after ∧
          before.utf8ByteSize = word.offset := by
  have divides := ofSource_eq_iff.mp (Eq.refl (ofSource source))
  refine ⟨fun words => ofSource_eq_iff, divides.pairwise, fun word member => ?_⟩
  obtain ⟨some, units⟩ := divides.units word member
  exact ⟨some, units, exists_split_of_mem_ofSource member⟩

-- A hyphen takes a blank into its word, ends a word before a comment, and is left at the end.
example : ofSource "a - é--c\nd-" = [⟨"a", 0⟩, ⟨"- é", 2⟩, ⟨"d", 10⟩] := by decide +kernel

/-! Texts with a line feed between them. -/

/-- The scan passes what stands before a last hyphen and is then outside comments, so that it
takes the hyphen with the character behind it, if there is one. -/
def Mode.ReachesHyphen (mode : Mode) (offset : Nat) (text : List Char) : Prop :=
  ∃ before words last, text = before ++ ['-'] ∧ last ≠ Mode.comment ∧
    ∀ more, scan mode offset (before ++ more) =
      words ++ scan last (offset + (String.ofList before).utf8ByteSize) more

theorem Mode.ReachesHyphen.behind {mode next : Mode} {offset place : Nat} {rest : List Char}
    (unit : List Char) (front : List Word)
    (bytes : place = offset + (String.ofList unit).utf8ByteSize)
    (passed : ∀ more, scan mode offset (unit ++ more) = front ++ scan next place more)
    (reaches : next.ReachesHyphen place rest) : mode.ReachesHyphen offset (unit ++ rest) := by
  obtain ⟨before, words, last, rfl, outside, reached⟩ := reaches
  refine ⟨unit ++ before, front ++ words, last, (List.append_assoc ..).symm,
    outside, fun more => ?_⟩
  rw [List.append_assoc, passed, reached, List.append_assoc, String.ofList_append,
    String.utf8ByteSize_append, ← Nat.add_assoc, ← bytes]

theorem add_utf8Size (offset : Nat) (c : Char) :
    offset + c.utf8Size = offset + (String.ofList [c]).utf8ByteSize := by
  rw [utf8ByteSize_ofList_cons]
  rfl

theorem reachesHyphen_of_endsInHyphen {mode : Mode} {offset : Nat} {text : List Char}
    (ends : endsInHyphen mode.isComment text = true) : mode.ReachesHyphen offset text := by
  -- Every step but the one at the last hyphen passes a unit whatever stands behind it.
  fun_induction scan mode offset text with
  | case1 mode offset =>
      unfold endsInHyphen at ends
      cases ends
  | case2 offset c rest ih =>
      have same : (if endsLine c then Mode.between else .comment).isComment = !endsLine c := by
        cases endsLine c <;> rfl
      rw [Mode.isComment, decide_eq_true rfl, endsInHyphen_comment, ← same] at ends
      exact (ih ends).behind [c] [] (add_utf8Size offset c) fun more => scan_comment
  | case3 offset mode outside => exact ⟨[], [], mode, rfl, outside, fun more => rfl⟩
  | case4 offset mode outside rest ih =>
      rw [isComment_of_outside outside, endsInHyphen_hyphen] at ends
      exact (ih ends).behind ['-', '-'] mode.finished rfl fun more => scan_two_hyphens outside
  | case5 offset mode outside c rest other ih =>
      rw [isComment_of_outside outside, endsInHyphen_hyphen, decide_eq_false other] at ends
      rw [isComment_of_outside extend_ne_comment] at ih
      have bytes : offset + 1 + c.utf8Size = offset + (String.ofList ['-', c]).utf8ByteSize := by
        rw [utf8ByteSize_ofList_cons, ← Nat.add_assoc]
        exact add_utf8Size (offset + 1) c
      exact (ih ends).behind ['-', c] [] bytes fun more => scan_hyphen outside other
  | case6 offset c rest mode outside other blank ih =>
      rw [isComment_of_outside outside, endsInHyphen_other other] at ends
      exact (ih ends).behind [c] mode.finished (add_utf8Size offset c) fun more =>
        scan_blank outside other blank
  | case7 offset c rest mode outside other letter ih =>
      rw [isComment_of_outside outside, endsInHyphen_other other] at ends
      rw [isComment_of_outside extend_ne_comment] at ih
      exact (ih ends).behind [c] [] (add_utf8Size offset c) fun more =>
        scan_letter outside other letter

/-- A word that goes on with a hyphen and a line feed is not finished before them, and where
there is no word yet, one starts at the hyphen. -/
theorem scan_hyphen_lineFeed_ne {mode : Mode} (outside : mode ≠ .comment) (offset : Nat)
    (more : List Char) :
    scan mode offset ('-' :: '\n' :: more) ≠ mode.finished ++ scan .between (offset + 2) more := by
  rw [scan_hyphen outside (by decide)]
  intro same
  cases mode with
  | comment => exact outside rfl
  | between =>
      -- The word that starts at the hyphen stands before all words behind the line feed.
      obtain ⟨_, _, _, _, _, _, _, starts⟩ :=
        leads_scan (.inside offset ['\n', '-']) (offset + 2) more
      have behind : Divides (offset + 2) more (scan .between (offset + 2) more) :=
        leads_scan .between _ _
      rw [Mode.finished, List.nil_append] at same
      rw [← same] at behind
      exact absurd (behind.le_offset _ (starts ▸ List.mem_cons_self)) (by simp)
  | inside start reversed =>
      -- The first word is longer than the one that ends at the hyphen.
      obtain ⟨_, _, _, _, _, _, _, starts⟩ :=
        leads_scan (.inside start ('\n' :: '-' :: reversed)) (offset + 2) more
      have first := (List.cons.inj (starts.symm.trans same)).1
      have lengths := congrArg (fun word : Word => word.text.length) first
      simp at lengths

/-- The words of two texts with a line feed between them are those of the first and those of
the second, moved behind the line feed, exactly if the scan of the first does not stop at a
hyphen that is its last character. The first may end in the middle of a word or a comment. -/
theorem ofSource_lineFeed_iff (first second : String) :
    ofSource (first ++ "\n" ++ second) =
      ofSource first ++ (ofSource second).map (moved (first.utf8ByteSize + 1)) ↔
        endsInHyphen false first.toList = false := by
  constructor
  · intro distributes
    apply eq_false_of_ne_true
    intro ends
    obtain ⟨before, words, last, characters, outside, passed⟩ :
        Mode.between.ReachesHyphen 0 first.toList :=
      reachesHyphen_of_endsInHyphen ends
    have bytes : first.utf8ByteSize = 0 + (String.ofList before).utf8ByteSize + 1 := by
      rw [← first.ofList_toList, characters, utf8ByteSize_ofList_concat, Nat.zero_add]
      rfl
    rw [ofSource_lineFeed, map_moved_ofSource, ofSource, characters, List.append_assoc, passed,
      passed, scan_last_hyphen outside, List.append_assoc, bytes] at distributes
    exact scan_hyphen_lineFeed_ne outside _ _ (List.append_cancel_left distributes)
  · intro whole
    exact ofSource_append whole second

-- A comment at the end is closed by the line feed, a hyphen takes it into the word.
example : ofSource "é--\nb" = [⟨"é", 0⟩, ⟨"b", 5⟩] ∧ ofSource "a-\nb" = [⟨"a-\nb", 0⟩] := by
  decide +kernel

end Word
end TinkaCompiler
