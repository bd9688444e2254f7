import Mathlib.Data.List.DropRight
import Mathlib.Order.Bounds.Defs
import TinkaCompiler.Position
import TinkaCompiler.Proofs.Scanning

/-! What positions say about a source.

An offset stands for the last boundary between characters that is not behind it. The position
counts the line feeds in front of that boundary and the characters of its line up to it. So a
boundary further on has a greater position, and a line and a column lead back to the boundary. -/

set_option autoImplicit false

namespace TinkaCompiler.Position

open Word (utf8ByteSize_ofList_cons)

/-- Lines first: positions are compared by their lines, and by their columns on one line. -/
def coordinates (position : Position) : Nat × Nat :=
  (position.line, position.column)

/-- What a position says of a boundary in its source. The line is counted by the line feeds in
front of the boundary. The column is counted from behind the last of them, or from the start of
the source. The source line is shown without the carriage returns at its end. -/
structure Describes (position : Position) {source : String} (boundary : source.Pos) : Prop where
  line : ∃ before after, boundary.Splits before after ∧ position.line = 1 + before.toList.count '\n'
  column : ∃ above left after, boundary.Splits (above ++ left) after ∧
    (above = "" ∨ above.toList.getLast? = some '\n') ∧ '\n' ∉ left.toList ∧
    position.column = 1 + left.length
  sourceLine : ∃ returns,
    (source.toList.splitOn '\n')[position.line - 1]? =
      some (position.sourceLine.toList ++ List.replicate returns '\r') ∧
    position.sourceLine.toList.getLast? ≠ some '\r'

/-- How many bytes stand in front of a place some lines down and then some characters to the
right, if the text has such a place. -/
def bytesTo? : Nat → Nat → List Char → Option Nat
  | 0, 0, _ => some 0
  | _, _, [] => none
  | 0, right + 1, c :: rest => if c = '\n' then none
      else (bytesTo? 0 right rest).map (c.utf8Size + ·)
  | down + 1, right, c :: rest =>
    (bytesTo? (if c = '\n' then down else down + 1) right rest).map (c.utf8Size + ·)

def offsetAt? (source : String) : Nat × Nat → Option Nat
  | (line + 1, column + 1) => bytesTo? line column source.toList
  | _ => none

/-! Boundaries. -/

theorem utf8ByteSize_takeBytes_le (room : Nat) (text : List Char) :
    (String.ofList (takeBytes room text)).utf8ByteSize ≤ room := by
  induction text generalizing room with
  | nil => exact Nat.zero_le room
  | cons c rest ih =>
      rw [takeBytes]
      split
      · rename_i fits
        rw [utf8ByteSize_ofList_cons]
        have restFits := ih (room - c.utf8Size)
        omega
      · exact Nat.zero_le room

theorem prefix_takeBytes {before text : List Char} {room : Nat} (within : before <+: text)
    (fits : (String.ofList before).utf8ByteSize ≤ room) : before <+: takeBytes room text := by
  induction before generalizing text room with
  | nil => exact List.nil_prefix
  | cons c before ih =>
      obtain ⟨after, rfl⟩ := within
      rw [utf8ByteSize_ofList_cons] at fits
      rw [List.cons_append, takeBytes, if_pos (by omega), List.prefix_cons_inj]
      exact ih (List.prefix_append before after) (by omega)

theorem takeBytes_append (before after : List Char) :
    takeBytes (String.ofList before).utf8ByteSize (before ++ after) = before := by
  induction before with
  | nil =>
      cases after with
      | nil => rfl
      | cons c after => exact if_neg (Nat.not_le.mpr c.utf8Size_pos)
  | cons c before ih =>
      rw [utf8ByteSize_ofList_cons, List.cons_append, takeBytes, if_pos (Nat.le_add_right _ _),
        Nat.add_sub_cancel_left, ih]

/-! Lines and columns of the text in front of a boundary. -/

theorem lastLine_append (text : List Char) {more : List Char} (single : '\n' ∉ more) :
    lastLine (text ++ more) = lastLine text ++ more := by
  have kept : ∀ c ∈ more.reverse, (c != '\n') = true := by
    intro c member
    exact bne_iff_ne.mpr fun same => single (same ▸ List.mem_reverse.mp member)
  rw [lastLine, List.reverse_append, List.takeWhile_append_of_pos kept, List.reverse_append,
    List.reverse_reverse]
  rfl

theorem lastLine_of_not_mem {text : List Char} (single : '\n' ∉ text) : lastLine text = text :=
  lastLine_append [] single

theorem lastLine_append_of_mem (text : List Char) {more : List Char} (broken : '\n' ∈ more) :
    lastLine (text ++ more) = lastLine more := by
  have stopped : (more.reverse.takeWhile (· != '\n')).length ≠ more.reverse.length := by
    intro all
    have whole := (List.takeWhile_prefix (· != '\n')).eq_of_length all
    have kept := List.takeWhile_eq_self_iff.mp whole '\n' (List.mem_reverse.mpr broken)
    exact bne_iff_ne.mp kept rfl
  rw [lastLine, List.reverse_append, List.takeWhile_append, if_neg stopped]
  rfl

theorem lastLine_cons_of_mem (c : Char) {text : List Char} (broken : '\n' ∈ text) :
    lastLine (c :: text) = lastLine text :=
  lastLine_append_of_mem [c] broken

theorem lastLine_lineFeed (text : List Char) : lastLine ('\n' :: text) = lastLine text := by
  by_cases broken : '\n' ∈ text
  · exact lastLine_cons_of_mem '\n' broken
  · rw [lastLine_of_not_mem broken]
    exact lastLine_append ['\n'] broken

theorem lastLine_cons_of_not_mem {c : Char} {text : List Char} (other : c ≠ '\n')
    (single : '\n' ∉ text) :
    lastLine (c :: text) = c :: text :=
  lastLine_of_not_mem (List.not_mem_cons_of_ne_of_not_mem (Ne.symm other) single)

/-- A text grows at its front by a line feed, by a character of its only line, or by one of a
line above its last. -/
theorem line_induction {motive : List Char → Prop} (nil : motive [])
    (lineFeed : ∀ text, motive text → motive ('\n' :: text))
    (above : ∀ c text, c ≠ '\n' → '\n' ∈ text → motive text → motive (c :: text))
    (only : ∀ c text, c ≠ '\n' → '\n' ∉ text → motive text → motive (c :: text))
    (text : List Char) : motive text := by
  induction text with
  | nil => exact nil
  | cons c text ih =>
      by_cases isLineFeed : c = '\n'
      · subst isLineFeed
        exact lineFeed text ih
      · by_cases broken : '\n' ∈ text
        · exact above c text isLineFeed broken ih
        · exact only c text isLineFeed broken ih

theorem exists_append_lastLine (text : List Char) :
    ∃ above, above ++ lastLine text = text ∧ (above = [] ∨ above.getLast? = some '\n') ∧
      '\n' ∉ lastLine text := by
  refine ⟨text.rdropWhile (· != '\n'), List.rdropWhile_append_rtakeWhile, ?_, ?_⟩
  · by_cases start : text.rdropWhile (· != '\n') = []
    · exact Or.inl start
    · have last := List.rdropWhile_last_not (· != '\n') text start
      rw [Bool.not_eq_true, bne_eq_false_iff_eq] at last
      exact Or.inr (by rw [List.getLast?_eq_some_getLast start, last])
  · intro member
    have kept := List.mem_rtakeWhile_imp (p := (· != '\n')) member
    exact bne_iff_ne.mp kept rfl

/-! The way back from a line and a column. -/

theorem bytesTo?_lineFeed (down right : Nat) (rest : List Char) :
    bytesTo? (down + 1) right ('\n' :: rest) =
      (bytesTo? down right rest).map ('\n'.utf8Size + ·) := by
  rw [bytesTo?, if_pos rfl]

theorem bytesTo?_down {c : Char} (other : c ≠ '\n') (down right : Nat) (rest : List Char) :
    bytesTo? (down + 1) right (c :: rest) =
      (bytesTo? (down + 1) right rest).map (c.utf8Size + ·) := by
  rw [bytesTo?, if_neg other]

theorem bytesTo?_right {c : Char} (other : c ≠ '\n') (right : Nat) (rest : List Char) :
    bytesTo? 0 (right + 1) (c :: rest) = (bytesTo? 0 right rest).map (c.utf8Size + ·) := by
  rw [bytesTo?, if_neg other]

theorem bytesTo?_append (before after : List Char) :
    bytesTo? (before.count '\n') (lastLine before).length (before ++ after) =
      some (String.ofList before).utf8ByteSize := by
  induction before using line_induction with
  | nil => cases after <;> rfl
  | lineFeed before ih =>
      rw [List.cons_append, utf8ByteSize_ofList_cons, List.count_cons_self, lastLine_lineFeed,
        bytesTo?_lineFeed, ih]
      rfl
  | above c before other broken ih =>
      obtain ⟨down, count⟩ := Nat.exists_eq_add_one.mpr (List.count_pos_iff.mpr broken)
      rw [List.cons_append, utf8ByteSize_ofList_cons, List.count_cons_of_ne other,
        lastLine_cons_of_mem c broken, count, bytesTo?_down other, ← count, ih]
      rfl
  | only c before other single ih =>
      rw [List.count_eq_zero.mpr single, lastLine_of_not_mem single] at ih
      rw [List.cons_append, utf8ByteSize_ofList_cons, List.count_cons_of_ne other,
        List.count_eq_zero.mpr single, lastLine_cons_of_not_mem other single, List.length_cons,
        bytesTo?_right other, ih]
      rfl

theorem exists_front_of_bytesTo? {down right size : Nat} {text : List Char}
    (found : bytesTo? down right text = some size) :
    ∃ before after, before ++ after = text ∧ (String.ofList before).utf8ByteSize = size ∧
      before.count '\n' = down ∧ (lastLine before).length = right := by
  fun_induction bytesTo? down right text generalizing size with
  | case1 text =>
      cases found
      exact ⟨[], text, rfl, rfl, rfl, rfl⟩
  | case2 => cases found
  | case3 => cases found
  | case4 right c rest other ih =>
      obtain ⟨size, inRest, rfl⟩ := Option.map_eq_some_iff.mp found
      obtain ⟨before, after, rfl, rfl, count, length⟩ := ih inRest
      have single : '\n' ∉ before := List.count_eq_zero.mp count
      rw [lastLine_of_not_mem single] at length
      refine ⟨c :: before, after, rfl, utf8ByteSize_ofList_cons c before, ?_, ?_⟩
      · rw [List.count_cons_of_ne other, count]
      · rw [lastLine_cons_of_not_mem other single, List.length_cons, length]
  | case5 down right c rest ih =>
      obtain ⟨size, inRest, rfl⟩ := Option.map_eq_some_iff.mp found
      obtain ⟨before, after, rfl, rfl, count, length⟩ := ih inRest
      refine ⟨c :: before, after, rfl, utf8ByteSize_ofList_cons c before, ?_⟩
      by_cases lineFeed : c = '\n'
      · subst lineFeed
        rw [if_pos rfl] at count
        rw [List.count_cons_self, count, lastLine_lineFeed]
        exact ⟨rfl, length⟩
      · rw [if_neg lineFeed] at count
        have broken : '\n' ∈ before := List.count_pos_iff.mp (count ▸ Nat.succ_pos down)
        rw [List.count_cons_of_ne lineFeed, count, lastLine_cons_of_mem c broken]
        exact ⟨rfl, length⟩

/-! The line of a boundary. -/

theorem head?_splitOn (text : List Char) :
    (text.splitOn '\n')[0]? = some (text.takeWhile (· != '\n')) := by
  induction text with
  | nil => rfl
  | cons c text ih =>
      rw [List.splitOn_cons_eq_if_modifyHead]
      by_cases lineFeed : c = '\n'
      · rw [if_pos (beq_iff_eq.mpr lineFeed), List.takeWhile_cons_of_neg (by simpa using lineFeed)]
        rfl
      · rw [if_neg (by simpa using lineFeed), List.takeWhile_cons_of_pos (by simpa using lineFeed),
          List.getElem?_modifyHead_zero, ih]
        rfl

/-- The last line of a front and what stands behind it up to a line feed are one piece of the
text, with as many pieces above it as the front has line feeds. -/
theorem getElem?_splitOn_append (before after : List Char) :
    ((before ++ after).splitOn '\n')[before.count '\n']? =
      some (lastLine before ++ after.takeWhile (· != '\n')) := by
  induction before using line_induction with
  | nil => exact head?_splitOn after
  | lineFeed before ih =>
      rw [List.cons_append, List.splitOn_cons_eq_if_modifyHead, if_pos (beq_self_eq_true '\n'),
        List.count_cons_self, List.getElem?_cons_succ, ih, lastLine_lineFeed]
  | above c before other broken ih =>
      obtain ⟨down, count⟩ := Nat.exists_eq_add_one.mpr (List.count_pos_iff.mpr broken)
      rw [List.cons_append, List.splitOn_cons_eq_if_modifyHead, if_neg (by simpa using other),
        List.count_cons_of_ne other, lastLine_cons_of_mem c broken, count,
        List.getElem?_modifyHead_succ, ← count, ih]
  | only c before other single ih =>
      rw [List.count_eq_zero.mpr single, lastLine_of_not_mem single] at ih
      rw [List.cons_append, List.splitOn_cons_eq_if_modifyHead, if_neg (by simpa using other),
        List.count_cons_of_ne other, List.count_eq_zero.mpr single,
        lastLine_cons_of_not_mem other single, List.getElem?_modifyHead_zero, ih]
      rfl

theorem exists_append_trimReturns (text : List Char) :
    ∃ returns, text = trimReturns text ++ List.replicate returns '\r' ∧
      (trimReturns text).getLast? ≠ some '\r' := by
  have returns : ∀ c ∈ text.rtakeWhile (· == '\r'), c = '\r' := by
    intro c member
    have taken := List.mem_rtakeWhile_imp (p := (· == '\r')) member
    exact beq_iff_eq.mp taken
  refine ⟨(text.rtakeWhile (· == '\r')).length, ?_, ?_⟩
  · rw [← List.eq_replicate_of_mem returns]
    exact List.rdropWhile_append_rtakeWhile.symm
  · intro last
    obtain ⟨some, last⟩ := List.mem_getLast?_eq_getLast last
    exact List.rdropWhile_last_not (· == '\r') text some (beq_iff_eq.mpr last.symm)

/-! Positions of boundaries. -/

def between (file before after : String) : Position where
  file
  line := before.toList.count '\n' + 1
  column := (lastLine before.toList).length + 1
  sourceLine := String.ofList
    (trimReturns (lastLine before.toList ++ after.toList.takeWhile (· != '\n')))

theorem coordinates_between (file before after : String) :
    (between file before after).coordinates =
      (before.toList.count '\n' + 1, (lastLine before.toList).length + 1) :=
  rfl

theorem describes_between (file : String) {source before after : String} {boundary : source.Pos}
    (splits : boundary.Splits before after) : (between file before after).Describes boundary where
  line := ⟨before, after, splits, Nat.add_comm _ 1⟩
  column := by
    obtain ⟨above, whole, start, single⟩ := exists_append_lastLine before.toList
    refine ⟨String.ofList above, String.ofList (lastLine before.toList), after, ?_, ?_, ?_, ?_⟩
    · rw [← String.ofList_append, whole, String.ofList_toList]
      exact splits
    · rw [String.toList_ofList]
      exact start.imp_left fun empty => congrArg String.ofList empty
    · rw [String.toList_ofList]
      exact single
    · rw [String.length_ofList]
      exact Nat.add_comm _ 1
  sourceLine := by
    obtain ⟨returns, trimmed, last⟩ :=
      exists_append_trimReturns (lastLine before.toList ++ after.toList.takeWhile (· != '\n'))
    have piece := getElem?_splitOn_append before.toList after.toList
    rw [← String.toList_append, ← splits.eq_append, trimmed] at piece
    refine ⟨returns, ?_, ?_⟩
    · rw [between, String.toList_ofList]
      exact piece
    · rw [between, String.toList_ofList]
      exact last

theorem offsetAt?_between (file : String) {source before after : String} {boundary : source.Pos}
    (splits : boundary.Splits before after) :
    offsetAt? source (between file before after).coordinates = some boundary.offset.byteIdx := by
  have found := bytesTo?_append before.toList after.toList
  rw [← String.toList_append, ← splits.eq_append, String.ofList_toList] at found
  rw [splits.offset_eq_rawEndPos]
  exact found

theorem exists_between_of_offsetAt? (file : String) {source : String} {coordinates : Nat × Nat}
    {offset : Nat} (found : offsetAt? source coordinates = some offset) :
    ∃ before after, source = before ++ after ∧ before.utf8ByteSize = offset ∧
      (between file before after).coordinates = coordinates := by
  unfold offsetAt? at found
  split at found
  · obtain ⟨before, after, text, bytes, rfl, rfl⟩ := exists_front_of_bytesTo? found
    refine ⟨String.ofList before, String.ofList after, ?_, bytes, ?_⟩
    · rw [← String.ofList_append, text, String.ofList_toList]
    · rw [coordinates_between, String.toList_ofList]
  · cases found

theorem lex_between (file : String) {before longer after behind : String} {more : List Char}
    (longer_eq : before.toList ++ more = longer.toList) (some : more ≠ []) :
    Prod.Lex (· < ·) (· < ·) (between file before after).coordinates
      (between file longer behind).coordinates := by
  rw [coordinates_between, coordinates_between, ← longer_eq, List.count_append]
  by_cases broken : '\n' ∈ more
  · have down : 0 < more.count '\n' := List.count_pos_iff.mpr broken
    exact .left _ _ (by omega)
  · have right : 0 < more.length := List.length_pos_iff.mpr some
    rw [List.count_eq_zero.mpr broken, Nat.add_zero, lastLine_append _ broken, List.length_append]
    exact .right _ (by omega)

/-! Positions of offsets. -/

section Boundaries

variable (file : String) {source before after : String} {boundary first second : source.Pos}
  {offset : Nat}

theorem ofOffset_eq_between (text : source = before ++ after)
    (front : takeBytes offset source.toList = before.toList) :
    ofOffset file source offset = between file before after := by
  have behind : source.toList.drop before.toList.length = after.toList := by
    rw [text, String.toList_append, List.drop_left]
  rw [ofOffset, front, behind]
  rfl

theorem takeBytes_boundary (splits : boundary.Splits before after) :
    takeBytes boundary.offset.byteIdx source.toList = before.toList := by
  have fits := takeBytes_append before.toList after.toList
  rw [String.ofList_toList, ← String.toList_append, ← splits.eq_append] at fits
  rw [splits.offset_eq_rawEndPos]
  exact fits

theorem ofOffset_boundary (splits : boundary.Splits before after) :
    ofOffset file source boundary.offset.byteIdx = between file before after :=
  ofOffset_eq_between file splits.eq_append (takeBytes_boundary splits)

theorem prefix_of_le (splits : boundary.Splits before after)
    (fits : boundary.offset.byteIdx ≤ offset) :
    before.toList <+: takeBytes offset source.toList := by
  apply prefix_takeBytes
  · rw [splits.eq_append, String.toList_append]
    exact List.prefix_append _ _
  · rw [String.ofList_toList]
    rw [splits.offset_eq_rawEndPos] at fits
    exact fits

/-- The characters that fit in an offset end at the last boundary that is not behind it. -/
theorem isGreatest_of_splits
    (splits : boundary.Splits (String.ofList (takeBytes offset source.toList)) after) :
    IsGreatest {place : source.Pos | place.offset.byteIdx ≤ min offset source.utf8ByteSize}
      boundary := by
  constructor
  · have fits : boundary.offset.byteIdx ≤ offset := by
      rw [splits.offset_eq_rawEndPos]
      exact utf8ByteSize_takeBytes_le offset source.toList
    exact Nat.le_min.mpr ⟨fits, boundary.isValid.le_rawEndPos⟩
  · intro place inFront
    obtain ⟨more, longer⟩ := prefix_of_le place.splits (Nat.le_min.mp inFront).1
    rw [← longer, String.ofList_append, String.ofList_toList] at splits
    rw [String.Pos.le_iff, place.splits.offset_eq_rawEndPos, splits.offset_eq_rawEndPos,
      String.Pos.Raw.le_iff, String.byteIdx_rawEndPos, String.byteIdx_rawEndPos,
      String.utf8ByteSize_append]
    exact Nat.le_add_right _ _

theorem exists_splits (text : source = before ++ after) :
    ∃ boundary : source.Pos, boundary.Splits before after :=
  ⟨⟨_, String.Pos.Raw.isValid_iff_exists_append.mpr ⟨before, after, text, rfl⟩⟩, text, rfl⟩

theorem exists_boundary_of_offset (source : String) (offset : Nat) :
    ∃ (boundary : source.Pos) (before after : String),
      IsGreatest {place : source.Pos | place.offset.byteIdx ≤ min offset source.utf8ByteSize}
        boundary ∧
      boundary.Splits before after ∧ ofOffset file source offset = between file before after := by
  obtain ⟨after, whole⟩ := takeBytes_prefix offset source.toList
  have text : source = String.ofList (takeBytes offset source.toList) ++ String.ofList after := by
    rw [← String.ofList_append, whole, String.ofList_toList]
  obtain ⟨boundary, splits⟩ := exists_splits text
  exact ⟨boundary, _, _, isGreatest_of_splits splits, splits,
    ofOffset_eq_between file text String.toList_ofList.symm⟩

theorem offsetAt?_boundary (boundary : source.Pos) :
    offsetAt? source (ofOffset file source boundary.offset.byteIdx).coordinates =
      some boundary.offset.byteIdx := by
  rw [ofOffset_boundary file boundary.splits]
  exact offsetAt?_between file boundary.splits

/-- A line and a column lead to an offset exactly if it is a boundary with that position. -/
theorem offsetAt?_eq_some_iff {coordinates : Nat × Nat} :
    offsetAt? source coordinates = some offset ↔
      ∃ boundary : source.Pos, boundary.offset.byteIdx = offset ∧
        (ofOffset file source boundary.offset.byteIdx).coordinates = coordinates := by
  constructor
  · intro found
    obtain ⟨before, after, text, bytes, same⟩ := exists_between_of_offsetAt? file found
    obtain ⟨boundary, splits⟩ := exists_splits text
    rw [← ofOffset_boundary file splits] at same
    refine ⟨boundary, ?_, same⟩
    rw [splits.offset_eq_rawEndPos]
    exact bytes
  · rintro ⟨boundary, rfl, rfl⟩
    exact offsetAt?_boundary file boundary

theorem coordinates_injective (source : String) :
    Function.Injective fun boundary : source.Pos =>
      (ofOffset file source boundary.offset.byteIdx).coordinates := by
  intro first second same
  dsimp only at same
  have found := offsetAt?_boundary file first
  rw [same, offsetAt?_boundary file second] at found
  exact String.Pos.ext (String.Pos.Raw.ext (Option.some.inj found).symm)

theorem lex_of_lt (ahead : first < second) :
    Prod.Lex (· < ·) (· < ·) (ofOffset file source first.offset.byteIdx).coordinates
      (ofOffset file source second.offset.byteIdx).coordinates := by
  obtain ⟨more, longer⟩ := prefix_of_le first.splits (Nat.le_of_lt ahead)
  rw [takeBytes_boundary second.splits] at longer
  rw [ofOffset_boundary file first.splits, ofOffset_boundary file second.splits]
  apply lex_between file longer
  -- With nothing more the two boundaries would be one.
  rintro rfl
  rw [List.append_nil, String.toList_inj] at longer
  rw [String.Pos.lt_iff, first.splits.offset_eq_rawEndPos, second.splits.offset_eq_rawEndPos,
    longer] at ahead
  exact absurd ahead (Nat.lt_irrefl _)

theorem lt_iff_lex (first second : source.Pos) :
    first < second ↔
      Prod.Lex (· < ·) (· < ·) (ofOffset file source first.offset.byteIdx).coordinates
        (ofOffset file source second.offset.byteIdx).coordinates := by
  constructor
  · exact lex_of_lt file
  · -- Of two boundaries one is in front of the other, so the direction above decides this one.
    intro lex
    rcases Nat.lt_trichotomy first.offset.byteIdx second.offset.byteIdx with ahead | equal | behind
    · exact ahead
    · rw [equal, Prod.lex_def] at lex
      omega
    · have further : second < first := behind
      have back := lex_of_lt file further
      rw [Prod.lex_def] at lex back
      omega

end Boundaries

/-- Positions are exact: an offset has the position of the last boundary that is not behind it
and not behind the end of the source. They are invertible: the line and the column lead back to
the boundary, and to nothing else. Different boundaries have different positions, and a position
is greater exactly if its boundary is further on. -/
theorem ofOffset_exact_invertible (file source : String) :
    (∀ offset, ∃ boundary : source.Pos,
      IsGreatest {place : source.Pos | place.offset.byteIdx ≤ min offset source.utf8ByteSize}
      boundary ∧
      (ofOffset file source offset).Describes boundary ∧
      offsetAt? source (ofOffset file source offset).coordinates = some boundary.offset.byteIdx) ∧
    (∀ coordinates offset, offsetAt? source coordinates = some offset ↔
      ∃ boundary : source.Pos, boundary.offset.byteIdx = offset ∧
        (ofOffset file source boundary.offset.byteIdx).coordinates = coordinates) ∧
    (Function.Injective fun boundary : source.Pos =>
      (ofOffset file source boundary.offset.byteIdx).coordinates) ∧
    ∀ first second : source.Pos, first < second ↔
      Prod.Lex (· < ·) (· < ·) (ofOffset file source first.offset.byteIdx).coordinates
        (ofOffset file source second.offset.byteIdx).coordinates := by
  refine ⟨fun offset => ?_,
    fun _ _ => offsetAt?_eq_some_iff file, coordinates_injective file source, lt_iff_lex file⟩
  obtain ⟨boundary, before, after, greatest, splits, same⟩ :=
    exists_boundary_of_offset file source offset
  rw [same]
  exact ⟨boundary, greatest, describes_between file splits, offsetAt?_between file splits⟩

-- An offset within a letter of two bytes, on a line that ends in a carriage return.
example : ofOffset "a.tinka" "kue\nxä\r\n" 6 = ⟨"a.tinka", 2, 2, "xä"⟩ := by decide +kernel

end TinkaCompiler.Position
