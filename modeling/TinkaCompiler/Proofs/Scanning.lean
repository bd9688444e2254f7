import TinkaCompiler.Word

/-! Scanning a text for words.

Every word is the piece of the text at its offset. A line feed ends a word and a comment
alike, so the words of two texts with a line feed between them are those of the first and
those of the second, further on. The one exception is a hyphen at the end of the first
text, which would take the line feed into its word. -/

set_option autoImplicit false

namespace TinkaCompiler

namespace Word

/-! One step of the scan. -/

section Steps

variable {mode : Mode} {offset : Nat} {c : Char} {rest : List Char}

theorem scan_comment :
    scan .comment offset (c :: rest) =
      scan (if endsLine c then .between else .comment) (offset + c.utf8Size) rest := by
  cases rest <;> rfl

theorem scan_outside (outside : mode ≠ .comment) :
    scan mode offset (c :: rest) =
      if c = '-' then
        match rest with
        | [] => mode.finished
        | next :: rest =>
          if next = '-' then mode.finished ++ scan .comment (offset + 2) rest
          else scan ((mode.extend offset c).extend (offset + 1) next)
            (offset + 1 + next.utf8Size) rest
      else if Text.isBlank c then mode.finished ++ scan .between (offset + c.utf8Size) rest
      else scan (mode.extend offset c) (offset + c.utf8Size) rest := by
  cases mode with
  | comment => exact absurd rfl outside
  | between => cases rest <;> rfl
  | inside start reversed => cases rest <;> rfl

theorem scan_last_hyphen (outside : mode ≠ .comment) : scan mode offset ['-'] = mode.finished := by
  rw [scan_outside outside, if_pos rfl]

theorem scan_two_hyphens (outside : mode ≠ .comment) :
    scan mode offset ('-' :: '-' :: rest) = mode.finished ++ scan .comment (offset + 2) rest := by
  rw [scan_outside outside, if_pos rfl]
  exact if_pos rfl

theorem scan_hyphen (outside : mode ≠ .comment) (other : c ≠ '-') :
    scan mode offset ('-' :: c :: rest) =
      scan ((mode.extend offset '-').extend (offset + 1) c) (offset + 1 + c.utf8Size) rest := by
  rw [scan_outside outside, if_pos rfl]
  exact if_neg other

theorem scan_blank (outside : mode ≠ .comment) (other : c ≠ '-') (blank : Text.isBlank c) :
    scan mode offset (c :: rest) = mode.finished ++ scan .between (offset + c.utf8Size) rest := by
  rw [scan_outside outside, if_neg other, if_pos blank]

theorem scan_letter (outside : mode ≠ .comment) (other : c ≠ '-') (letter : ¬ Text.isBlank c) :
    scan mode offset (c :: rest) = scan (mode.extend offset c) (offset + c.utf8Size) rest := by
  rw [scan_outside outside, if_neg other, if_neg letter]

theorem extend_ne_comment : mode.extend offset c ≠ .comment := by
  cases mode <;> exact Mode.noConfusion

theorem scan_lineFeed :
    scan mode offset ('\n' :: rest) = mode.finished ++ scan .between (offset + 1) rest := by
  cases mode with
  | comment => exact scan_comment
  | between => exact scan_blank Mode.noConfusion (by decide) (by decide)
  | inside start reversed => exact scan_blank Mode.noConfusion (by decide) (by decide)

end Steps

/-! Words have characters. -/

def Mode.Started : Mode → Prop
  | .inside _ reversed => reversed ≠ []
  | .between | .comment => True

theorem Mode.started_extend (mode : Mode) (offset : Nat) (c : Char) :
    (mode.extend offset c).Started := by
  cases mode <;> exact List.cons_ne_nil _ _

theorem Mode.Started.finished {mode : Mode} (started : mode.Started) :
    ∀ word ∈ mode.finished, word.text ≠ "" := by
  cases mode with
  | inside start reversed =>
      have characters : reversed ≠ [] := started
      rw [Mode.finished, List.forall_mem_singleton]
      simpa using characters
  | between => exact List.forall_mem_nil _
  | comment => exact List.forall_mem_nil _

theorem text_ne_empty_of_mem_scan {mode : Mode} {offset : Nat} {text : List Char}
    (started : mode.Started) :
    ∀ word ∈ scan mode offset text, word.text ≠ "" := by
  fun_induction scan mode offset text with
  | case1 mode offset => exact started.finished
  | case2 offset c rest ih => exact ih (by split <;> trivial)
  | case3 offset mode => exact started.finished
  | case4 offset mode _ rest ih => exact List.forall_mem_append.mpr ⟨started.finished, ih trivial⟩
  | case5 offset mode _ c rest _ ih => exact ih (Mode.started_extend _ _ _)
  | case6 offset c rest mode _ _ _ ih =>
      exact List.forall_mem_append.mpr ⟨started.finished, ih trivial⟩
  | case7 offset c rest mode _ _ _ ih => exact ih (Mode.started_extend _ _ _)

/-! The end of a text. -/

/-- Whether the scan of a text stops at a hyphen that is its last character. The scan
starts inside or outside a comment. -/
def endsInHyphen (comment : Bool) : List Char → Bool
  | [] => false
  | c :: rest =>
    if comment then endsInHyphen (!endsLine c) rest
    else if c = '-' then
      match rest with
      | [] => true
      | next :: rest => endsInHyphen (next = '-') rest
    else endsInHyphen false rest

theorem endsInHyphen_comment (c : Char) (rest : List Char) :
    endsInHyphen true (c :: rest) = endsInHyphen (!endsLine c) rest := by
  cases rest <;> simp [endsInHyphen]

theorem endsInHyphen_hyphen (c : Char) (rest : List Char) :
    endsInHyphen false ('-' :: c :: rest) = endsInHyphen (c = '-') rest := by
  simp [endsInHyphen]

theorem endsInHyphen_other {c : Char} (other : c ≠ '-') (rest : List Char) :
    endsInHyphen false (c :: rest) = endsInHyphen false rest := by
  cases rest <;> simp [endsInHyphen, other]

def Mode.isComment (mode : Mode) : Bool :=
  mode = .comment

theorem isComment_of_outside {mode : Mode} (outside : mode ≠ .comment) : mode.isComment = false :=
  decide_eq_false outside

theorem utf8ByteSize_ofList_cons (c : Char) (rest : List Char) :
    (String.ofList (c :: rest)).utf8ByteSize = c.utf8Size + (String.ofList rest).utf8ByteSize := by
  rw [String.ofList_cons, String.utf8ByteSize_append, String.utf8ByteSize_singleton]

theorem scan_append_lineFeed (mode : Mode) (offset : Nat) (text more : List Char)
    (whole : endsInHyphen mode.isComment text = false) :
    scan mode offset (text ++ '\n' :: more) =
      scan mode offset text ++ scan .between
        (offset + (String.ofList text).utf8ByteSize + 1) more := by
  fun_induction scan mode offset text with
  | case1 mode offset => exact scan_lineFeed
  | case2 offset c rest ih =>
      have same : (if endsLine c then Mode.between else .comment).isComment = !endsLine c := by
        cases endsLine c <;> rfl
      rw [Mode.isComment, decide_eq_true rfl, endsInHyphen_comment, ← same] at whole
      rw [List.cons_append, scan_comment, ih whole, utf8ByteSize_ofList_cons, Nat.add_assoc offset]
  | case3 offset mode outside =>
      rw [isComment_of_outside outside] at whole
      cases whole
  | case4 offset mode outside rest ih =>
      rw [isComment_of_outside outside, endsInHyphen_hyphen] at whole
      rw [List.cons_append, List.cons_append, scan_two_hyphens outside, ih whole,
        utf8ByteSize_ofList_cons, utf8ByteSize_ofList_cons, List.append_assoc, Nat.add_assoc offset,
        ← Nat.add_assoc ('-'.utf8Size)]
      rfl
  | case5 offset mode outside c rest other ih =>
      rw [isComment_of_outside outside, endsInHyphen_hyphen, decide_eq_false other] at whole
      rw [isComment_of_outside extend_ne_comment] at ih
      rw [List.cons_append, List.cons_append, scan_hyphen outside other, ih whole,
        utf8ByteSize_ofList_cons, utf8ByteSize_ofList_cons, Nat.add_assoc (offset + 1),
        ← Nat.add_assoc offset]
      rfl
  | case6 offset c rest mode outside other blank ih =>
      rw [isComment_of_outside outside, endsInHyphen_other other] at whole
      rw [List.cons_append, scan_blank outside other blank, ih whole, utf8ByteSize_ofList_cons,
        List.append_assoc, Nat.add_assoc offset]
  | case7 offset c rest mode outside other letter ih =>
      rw [isComment_of_outside outside, endsInHyphen_other other] at whole
      rw [isComment_of_outside extend_ne_comment] at ih
      rw [List.cons_append, scan_letter outside other letter, ih whole, utf8ByteSize_ofList_cons,
        Nat.add_assoc offset]

/-! Words stand where they say. -/

def StandsIn (word : Word) (text : List Char) : Prop :=
  ∃ before after, text = before ++ word.text.toList ++ after ∧
    (String.ofList before).utf8ByteSize = word.offset

/-- The characters of an unfinished word are the last of those passed. -/
def Mode.Ends (passed : List Char) : Mode → Prop
  | .inside start reversed => ∃ before,
      passed = before ++ reversed.reverse ∧ (String.ofList before).utf8ByteSize = start
  | .between | .comment => True

theorem utf8ByteSize_ofList_concat (text : List Char) (c : Char) :
    (String.ofList (text ++ [c])).utf8ByteSize =
      (String.ofList text).utf8ByteSize + c.utf8Size := by
  rw [String.ofList_append, String.utf8ByteSize_append, utf8ByteSize_ofList_cons]
  rfl

theorem Mode.Ends.extend {passed : List Char} {mode : Mode} (ends : mode.Ends passed) (c : Char) :
    (mode.extend (String.ofList passed).utf8ByteSize c).Ends (passed ++ [c]) := by
  cases mode with
  | between => exact ⟨passed, rfl, rfl⟩
  | comment => exact ⟨passed, rfl, rfl⟩
  | inside start reversed =>
      obtain ⟨before, rfl, bytes⟩ := ends
      exact ⟨before, by rw [List.reverse_cons, List.append_assoc], bytes⟩

theorem Mode.Ends.finished {passed : List Char} {mode : Mode} (ends : mode.Ends passed)
    (text : List Char) :
    ∀ word ∈ mode.finished, word.StandsIn (passed ++ text) := by
  cases mode with
  | inside start reversed =>
      obtain ⟨before, rfl, bytes⟩ := ends
      rw [Mode.finished, List.forall_mem_singleton]
      exact ⟨before, text, by rw [String.toList_ofList], bytes⟩
  | between => exact List.forall_mem_nil _
  | comment => exact List.forall_mem_nil _

theorem standsIn_of_mem_scan {mode : Mode} {offset : Nat} {text passed : List Char}
    (ends : mode.Ends passed) (bytes : (String.ofList passed).utf8ByteSize = offset) :
    ∀ word ∈ scan mode offset text, word.StandsIn (passed ++ text) := by
  -- Every step passes one or two characters, which then belong to the front.
  fun_induction scan mode offset text generalizing passed with
  | case1 mode offset => exact ends.finished []
  | case2 offset c rest ih =>
      rw [List.append_cons]
      apply ih
      · split <;> trivial
      · rw [utf8ByteSize_ofList_concat, bytes]
  | case3 offset mode => exact ends.finished _
  | case4 offset mode _ rest ih =>
      refine List.forall_mem_append.mpr ⟨ends.finished _, ?_⟩
      rw [List.append_cons, List.append_cons]
      apply ih trivial
      rw [utf8ByteSize_ofList_concat, utf8ByteSize_ofList_concat, bytes]
      rfl
  | case5 offset mode _ c rest _ ih =>
      subst bytes
      rw [List.append_cons, List.append_cons]
      have first := ends.extend '-'
      have second := first.extend c
      rw [utf8ByteSize_ofList_concat] at second
      apply ih second
      rw [utf8ByteSize_ofList_concat, utf8ByteSize_ofList_concat]
      rfl
  | case6 offset c rest mode _ _ _ ih =>
      refine List.forall_mem_append.mpr ⟨ends.finished _, ?_⟩
      rw [List.append_cons]
      apply ih trivial
      rw [utf8ByteSize_ofList_concat, bytes]
  | case7 offset c rest mode _ _ _ ih =>
      subst bytes
      rw [List.append_cons]
      apply ih (ends.extend c)
      rw [utf8ByteSize_ofList_concat]

/-- Every word of a source is the piece of the source at its offset. -/
theorem exists_split_of_mem_ofSource {source : String} {word : Word}
    (member : word ∈ ofSource source) :
    ∃ before after, source = before ++ word.text ++ after ∧ before.utf8ByteSize = word.offset := by
  have nothing : Mode.between.Ends [] := trivial
  obtain ⟨before, after, split, bytes⟩ := standsIn_of_mem_scan nothing rfl word member
  refine ⟨String.ofList before, String.ofList after, ?_, bytes⟩
  apply String.toList_injective
  rw [List.nil_append] at split
  simp [split]

/-! Words further on. -/

def moved (bytes : Nat) (word : Word) : Word :=
  ⟨word.text, bytes + word.offset⟩

theorem text_moved (bytes : Nat) (word : Word) : (word.moved bytes).text = word.text :=
  rfl

def Mode.moved (bytes : Nat) : Mode → Mode
  | .between => .between
  | .inside start reversed => .inside (bytes + start) reversed
  | .comment => .comment

theorem Mode.finished_moved (bytes : Nat) (mode : Mode) :
    (mode.moved bytes).finished = mode.finished.map (Word.moved bytes) := by
  cases mode <;> rfl

theorem Mode.extend_moved (bytes offset : Nat) (c : Char) (mode : Mode) :
    (mode.moved bytes).extend (bytes + offset) c = (mode.extend offset c).moved bytes := by
  cases mode <;> rfl

theorem Mode.moved_ne_comment {bytes : Nat} {mode : Mode} (outside : mode ≠ .comment) :
    mode.moved bytes ≠ .comment := by
  cases mode with
  | comment => exact absurd rfl outside
  | _ => exact Mode.noConfusion

theorem scan_moved (bytes : Nat) (mode : Mode) (offset : Nat) (text : List Char) :
    scan (mode.moved bytes) (bytes + offset) text = (scan mode offset text).map (moved bytes) := by
  fun_induction scan mode offset text with
  | case1 mode offset => exact mode.finished_moved bytes
  | case2 offset c rest ih =>
      rw [Mode.moved, scan_comment, Nat.add_assoc, ← ih]
      cases endsLine c <;> rfl
  | case3 offset mode outside =>
      rw [scan_last_hyphen (Mode.moved_ne_comment outside), Mode.finished_moved]
  | case4 offset mode outside rest ih =>
      rw [scan_two_hyphens (Mode.moved_ne_comment outside), Mode.finished_moved, List.map_append,
        ← ih, Nat.add_assoc]
      rfl
  | case5 offset mode outside c rest other ih =>
      rw [scan_hyphen (Mode.moved_ne_comment outside) other, Mode.extend_moved, ← ih,
        Nat.add_assoc bytes, Mode.extend_moved, Nat.add_assoc bytes]
  | case6 offset c rest mode outside other blank ih =>
      rw [scan_blank (Mode.moved_ne_comment outside) other blank, Mode.finished_moved,
        List.map_append, ← ih, Nat.add_assoc]
      rfl
  | case7 offset c rest mode outside other letter ih =>
      rw [scan_letter (Mode.moved_ne_comment outside) other letter, Mode.extend_moved,
        ← ih, Nat.add_assoc]

theorem ofSource_lineFeed (first second : String) :
    ofSource (first ++ "\n" ++ second) =
      scan .between 0 (first.toList ++ '\n' :: second.toList) := by
  simp [ofSource]

theorem map_moved_ofSource (bytes : Nat) (source : String) :
    (ofSource source).map (moved bytes) = scan .between bytes source.toList :=
  (scan_moved bytes .between 0 source.toList).symm

theorem ofSource_append {first : String} (whole : endsInHyphen false first.toList = false)
    (second : String) :
    ofSource (first ++ "\n" ++ second) =
      ofSource first ++ (ofSource second).map (moved (first.utf8ByteSize + 1)) := by
  rw [ofSource_lineFeed, map_moved_ofSource, scan_append_lineFeed .between 0 _ _ whole,
    String.ofList_toList, Nat.zero_add]
  rfl

end Word
end TinkaCompiler
