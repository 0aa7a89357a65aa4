import Mathlib.Data.List.DropRight
import Mathlib.Data.List.GetD
import Presage.Source.Basic

/-!
What the table of lines of a source says. The table is in strict order (`Text.pairwise_lineStarts`),
so that the search finds the last line that does not start behind an offset
(`Text.searchBetween_spec`). At the end of a part of the text this is the line that the line feeds
of the part count (`Source.lineIndex_byteSize`), and the characters that are sliced out from the
start of that line are those behind the last line feed.

Together they give every position: `Position.behind` is the place behind a beginning of a text in
terms of its characters, and `Source.position?_eq_map_splitAt?` says that this is what the table
gives.
-/

set_option autoImplicit false
set_option relaxedAutoImplicit false

namespace Presage

/-! ### Looking up a key -/

namespace Text

/-- The entries of a table grow from one to the next. -/
def Increasing (values : Array Nat) : Prop :=
  ∀ {first second : Nat}, first < second → second < values.size →
    values.getD first 0 < values.getD second 0

/-- What a search may give: the index of the key, or else that of the first entry above it. -/
def Located (values : Array Nat) (key : Nat) : Except Nat Nat → Prop
  | .ok index => index < values.size ∧ values.getD index 0 = key
  | .error index => index ≤ values.size ∧ (∀ other < index, values.getD other 0 < key) ∧
      ∀ other < values.size, index ≤ other → key < values.getD other 0

/-- The search keeps the smaller entries before its range and the greater ones behind it. -/
theorem searchBetween_spec {values : Array Nat} (hvalues : Increasing values) {key low high : Nat}
    (hrange : low ≤ high) (hhigh : high ≤ values.size)
    (hbelow : ∀ other < low, values.getD other 0 < key)
    (habove : ∀ other < values.size, high ≤ other → key < values.getD other 0) :
    Located values key (searchBetween values key low high) := by
  fun_induction searchBetween values key low high with
  | case1 low high hlt middle hsmaller ih =>
    refine ih (by omega) hhigh (fun other hother ↦ ?_) habove
    rcases Nat.lt_or_eq_of_le (Nat.lt_succ_iff.mp hother) with hlt | rfl
    · exact Nat.lt_trans (hvalues hlt (by omega)) hsmaller
    · exact hsmaller
  | case2 low high hlt middle _ hgreater ih =>
    refine ih (by omega) (by omega) hbelow fun other hother hmiddle ↦ ?_
    rcases Nat.lt_or_eq_of_le hmiddle with hlt | rfl
    · exact Nat.lt_trans hgreater (hvalues hlt hother)
    · exact hgreater
  | case3 low high hlt middle hsmaller hgreater => exact ⟨by omega, by omega⟩
  | case4 low high hdone =>
    exact ⟨Nat.le_trans hrange hhigh, hbelow, fun other hother hle ↦ habove other hother (by omega)⟩

theorem search_spec {values : Array Nat} (hvalues : Increasing values) (key : Nat) :
    Located values key (search values key) :=
  searchBetween_spec hvalues (Nat.zero_le _) (Nat.le_refl _) nofun fun _ hother hle ↦
    absurd hother (Nat.not_lt_of_le hle)

/-! ### Line feeds -/

theorem feedEnds_append (offset : Nat) (first second : List Char) :
    feedEnds offset (first ++ second) =
      feedEnds offset first ++ feedEnds (offset + byteSize first) second := by
  induction first generalizing offset with
  | nil => rfl
  | cons c rest ih =>
    rw [List.cons_append, feedEnds, feedEnds, ih, byteSize, ← Nat.add_assoc]
    split <;> rfl

theorem length_feedEnds (offset : Nat) (text : List Char) :
    (feedEnds offset text).length = text.count '\n' := by
  induction text generalizing offset with
  | nil => rfl
  | cons c rest ih =>
    rw [feedEnds, List.count_cons]
    by_cases hc : c = '\n' <;> simp [hc, ih]

theorem lt_of_mem_feedEnds {offset stop : Nat} {text : List Char}
    (h : stop ∈ feedEnds offset text) : offset < stop := by
  induction text generalizing offset with
  | nil => cases h
  | cons c rest ih =>
    have hsize := c.utf8Size_pos
    rw [feedEnds] at h
    split at h
    · rcases List.mem_cons.mp h with rfl | hrest
      · omega
      · exact Nat.lt_trans (by omega) (ih hrest)
    · exact Nat.lt_trans (by omega) (ih h)

theorem pairwise_feedEnds (offset : Nat) (text : List Char) :
    (feedEnds offset text).Pairwise (· < ·) := by
  induction text generalizing offset with
  | nil => exact .nil
  | cons c rest ih =>
    rw [feedEnds]
    split
    · exact List.pairwise_cons.mpr ⟨fun _ ↦ lt_of_mem_feedEnds, ih _⟩
    · exact ih _

theorem pairwise_lineStarts (text : List Char) : (0 :: feedEnds 0 text).Pairwise (· < ·) :=
  List.pairwise_cons.mpr ⟨fun _ ↦ lt_of_mem_feedEnds, pairwise_feedEnds 0 text⟩

theorem getD_lineStarts (text : List Char) (index : Nat) :
    (lineStarts text).getD index 0 = (0 :: feedEnds 0 text).getD index 0 := by
  rw [lineStarts, Array.getD_eq_getD_getElem?, List.getElem?_toArray, List.getD_eq_getElem?_getD]

theorem increasing_lineStarts (text : List Char) : Increasing (lineStarts text) := by
  intro first second hlt hsize
  have hpairs := List.pairwise_iff_getElem.mp (pairwise_lineStarts text)
  have hsecond : second < (0 :: feedEnds 0 text).length := hsize
  have hfirst := Nat.lt_trans hlt hsecond
  rw [getD_lineStarts, getD_lineStarts, List.getD_eq_getElem _ _ hfirst,
    List.getD_eq_getElem _ _ hsecond]
  exact hpairs first second hfirst hsecond hlt

theorem size_lineStarts (text : List Char) : (lineStarts text).size = 1 + text.count '\n' := by
  rw [lineStarts, List.size_toArray, List.length_cons, length_feedEnds, Nat.add_comm]

/-! ### The last line of a text -/

/-- The part of a text behind its last line feed. -/
def lastLine (text : List Char) : List Char := text.rtakeWhile (· != '\n')

theorem not_mem_lastLine (text : List Char) : '\n' ∉ lastLine text := by
  intro hmem
  simpa using List.mem_rtakeWhile_imp hmem

/-- A text is its last line, or it has a line feed before its last line. -/
theorem eq_lastLine_or_append (text : List Char) :
    text = lastLine text ∨ ∃ lines, text = lines ++ '\n' :: lastLine text := by
  have hparts : text.rdropWhile (· != '\n') ++ lastLine text = text :=
    List.rdropWhile_append_rtakeWhile
  rcases List.eq_nil_or_concat (text.rdropWhile (· != '\n')) with hnil | ⟨lines, c, hlines⟩
  · rw [hnil] at hparts
    exact Or.inl hparts.symm
  · have hlast := List.rdropWhile_last_not (· != '\n') text (by simp [hlines])
    obtain rfl : c = '\n' := by simpa [hlines] using hlast
    rw [hlines] at hparts
    exact Or.inr ⟨lines, by simpa using hparts.symm⟩

theorem lastLine_append {lines line : List Char} (h : '\n' ∉ line) :
    lastLine (lines ++ '\n' :: line) = line := by
  have hline : ∀ c ∈ line.reverse, (c != '\n') = true := by
    intro c hc
    exact bne_iff_ne.mpr fun hfeed ↦ h (hfeed ▸ List.mem_reverse.mp hc)
  unfold lastLine List.rtakeWhile
  rw [List.reverse_append, List.reverse_cons, List.append_assoc, List.takeWhile_append_of_pos hline]
  simp

/-- Characters that are put before a line feed do not change the last line. -/
theorem lastLine_append_feed (lines text : List Char) :
    lastLine (lines ++ '\n' :: text) = lastLine text := by
  have hfree := not_mem_lastLine text
  rcases eq_lastLine_or_append text with htext | ⟨before, htext⟩
  · rw [← htext] at hfree ⊢
    exact lastLine_append hfree
  · generalize lastLine text = line at htext hfree ⊢
    rw [htext, ← List.cons_append, ← List.append_assoc, lastLine_append hfree]

theorem count_le_byteSize (text : List Char) : text.count '\n' ≤ byteSize text :=
  Nat.le_trans List.count_le_length (length_le_byteSize text)

theorem count_add_length_lastLine_le (text : List Char) :
    text.count '\n' + (lastLine text).length ≤ text.length := by
  have hcount := List.count_eq_zero.mpr (not_mem_lastLine text)
  rcases eq_lastLine_or_append text with htext | ⟨lines, htext⟩
  · rw [← htext] at hcount ⊢
    rw [hcount, Nat.zero_add]
  · generalize lastLine text = line at htext hcount ⊢
    subst htext
    have hle : lines.count '\n' ≤ lines.length := List.count_le_length
    rw [List.count_append, List.count_cons_self, hcount, List.length_append, List.length_cons]
    omega

/-- The start of the line that a text ends on is the size of what is before that line. -/
theorem lineStarts_getD_count (before after : List Char) :
    (lineStarts (before ++ after)).getD (before.count '\n') 0 + byteSize (lastLine before) =
      byteSize before := by
  have hcount := List.count_eq_zero.mpr (not_mem_lastLine before)
  rcases eq_lastLine_or_append before with hbefore | ⟨lines, hbefore⟩
  · rw [← hbefore] at hcount ⊢
    rw [hcount, getD_lineStarts]
    exact Nat.zero_add _
  · generalize lastLine before = line at hbefore hcount ⊢
    subst hbefore
    have hlines : (lines ++ '\n' :: line).count '\n' = (feedEnds 0 lines).length + 1 := by
      rw [List.count_append, List.count_cons_self, hcount, length_feedEnds]
    rw [hlines, getD_lineStarts, List.getD_cons_succ, List.append_assoc,
      feedEnds_append, List.cons_append, feedEnds, if_pos rfl, List.getD_append_right _ _ _ _
        (Nat.le_refl _), Nat.sub_self, byteSize_append, byteSize]
    show 0 + byteSize lines + '\n'.utf8Size + byteSize line = _
    omega

end Text

namespace Source

variable {source : Source} {before after : List Char}

/-- The line of an offset is the last that does not start behind it. -/
theorem lineIndex_eq {offset line : Nat} (hline : source.lineStarts.getD line 0 ≤ offset)
    (hsize : line < source.lineStarts.size)
    (habove : ∀ other < source.lineStarts.size, line < other →
      offset < source.lineStarts.getD other 0) :
    source.lineIndex offset = line := by
  have hincreasing : Text.Increasing source.lineStarts :=
    source.lineStarts_eq ▸ Text.increasing_lineStarts source.chars
  have hlocated := Text.search_spec hincreasing offset
  unfold lineIndex
  cases hsearch : Text.search source.lineStarts offset with
  | ok index =>
    obtain ⟨hindex, hentry⟩ : index < source.lineStarts.size ∧ _ := by
      rw [hsearch] at hlocated
      exact hlocated
    rcases Nat.lt_trichotomy index line with hlt | rfl | hlt
    · have hless := hincreasing hlt hsize
      omega
    · rfl
    · have hgreater := habove index hindex hlt
      omega
  | error index =>
    obtain ⟨hindex, hbelow, hgreater⟩ : index ≤ source.lineStarts.size ∧ _ ∧ _ := by
      rw [hsearch] at hlocated
      exact hlocated
    have hlower : line < index := by
      refine Nat.lt_of_not_le fun hle ↦ ?_
      exact Nat.not_lt_of_le hline (hgreater line hsize hle)
    have hupper : index ≤ line + 1 := by
      refine Nat.le_of_not_lt fun hlt ↦ ?_
      have hless := hbelow (line + 1) hlt
      have hmore := habove (line + 1) (Nat.lt_of_lt_of_le hlt hindex) (Nat.lt_succ_self line)
      exact Nat.lt_irrefl _ (Nat.lt_trans hless hmore)
    show index - 1 = line
    omega

/-- At the end of a part of the text, the line is the one that the line feeds of the part count. -/
theorem lineIndex_byteSize (h : source.chars = before ++ after) :
    source.lineIndex (Text.byteSize before) = before.count '\n' := by
  have hstart := Text.lineStarts_getD_count before after
  rw [← h, ← source.lineStarts_eq] at hstart
  refine lineIndex_eq (by omega) ?_ fun other hother hlt ↦ ?_
  · rw [source.lineStarts_eq, Text.size_lineStarts, h, List.count_append]
    omega
  · rw [source.lineStarts_eq, h] at hother ⊢
    have hentries : 0 :: Text.feedEnds 0 (before ++ after) =
        (0 :: Text.feedEnds 0 before) ++ Text.feedEnds (Text.byteSize before) after := by
      rw [Text.feedEnds_append, Nat.zero_add, List.cons_append]
    have hlength : (0 :: Text.feedEnds 0 before).length ≤ other := by
      rw [List.length_cons, Text.length_feedEnds]
      exact hlt
    have hbound : other < (0 :: Text.feedEnds 0 (before ++ after)).length := hother
    rw [hentries, List.length_append] at hbound
    -- The entries past the line are those of the line feeds behind the offset.
    rw [Text.getD_lineStarts, hentries, List.getD_append_right _ _ _ _ hlength,
      List.getD_eq_getElem _ _ (by omega)]
    exact Text.lt_of_mem_feedEnds (List.getElem_mem _)

/-- Between two cuts of a text is what is left between the cuts. -/
theorem slice?_byteSize {piece : List Char} (h : source.chars = before ++ (piece ++ after)) :
    source.slice? (Text.byteSize before) (Text.byteSize (before ++ piece)) =
      some (String.ofList piece) := by
  have hdrop : Text.drop? (Text.byteSize before) source.chars = some (piece ++ after) := by
    rw [Text.drop?_eq_map_splitAt?, h, Text.splitAt?_append]
    rfl
  unfold slice?
  rw [Text.byteSize_append, if_pos (Nat.le_add_right _ _), hdrop, Nat.add_sub_cancel_left]
  show (Text.splitAt? (Text.byteSize piece) (piece ++ after)).bind _ = _
  rw [Text.splitAt?_append]
  rfl

end Source

/-! ### Places -/

theorem toWord_eq_self {number : Nat} (h : number < UInt32.size) : toWord number = number :=
  Nat.mod_eq_of_lt h

theorem toWord_toWord_succ (number : Nat) : toWord (toWord number + 1) = toWord (1 + number) := by
  rw [Nat.add_comm 1]
  exact Nat.mod_add_mod _ _ _

/-- The place behind a text, by the characters of the text. -/
def Position.behind (text : List Char) : Position :=
  ⟨toWord (Text.byteSize text), toWord (1 + text.count '\n'),
    toWord (1 + (Text.lastLine text).length)⟩

theorem Position.offset_behind {text : List Char} (h : Text.byteSize text < UInt32.size) :
    (behind text).offset = Text.byteSize text :=
  toWord_eq_self h

/-- Words hold the offset, the line and the column behind a text. -/
structure Text.Fits (text : List Char) : Prop where
  offset : byteSize text < UInt32.size
  line : 1 + text.count '\n' < UInt32.size
  column : 1 + (lastLine text).length < UInt32.size

theorem Text.fits_of_byteSize_lt {text : List Char} (h : byteSize text + 1 < UInt32.size) :
    Fits text := by
  have hlines := count_add_length_lastLine_le text
  have hbytes := length_le_byteSize text
  constructor <;> omega

theorem Position.behind_eq {text : List Char} (h : Text.Fits text) :
    behind text = ⟨Text.byteSize text, 1 + text.count '\n', 1 + (Text.lastLine text).length⟩ := by
  unfold behind
  rw [toWord_eq_self h.offset, toWord_eq_self h.line, toWord_eq_self h.column]

namespace Source

variable {source : Source} {before after : List Char}

theorem lineCount_eq (source : Source) : source.lineCount = 1 + source.chars.count '\n' := by
  unfold lineCount
  rw [source.lineStarts_eq, Text.size_lineStarts]

/-- The position at a cut of the text is the place behind what is cut off. -/
theorem position?_byteSize (h : source.chars = before ++ after) :
    source.position? (Text.byteSize before) = some (.behind before) := by
  have hle : Text.byteSize before ≤ source.size := by
    unfold size
    rw [h, Text.byteSize_append]
    exact Nat.le_add_right _ _
  have hstart := Text.lineStarts_getD_count before after
  rw [← h, ← source.lineStarts_eq] at hstart
  obtain ⟨lines, hlines⟩ : ∃ lines, before = lines ++ Text.lastLine before :=
    ⟨_, List.rdropWhile_append_rtakeWhile.symm⟩
  have hsize : Text.byteSize lines = source.lineStarts.getD (before.count '\n') 0 := by
    have hparts := congrArg Text.byteSize hlines
    rw [Text.byteSize_append] at hparts
    omega
  have hslice : source.slice? (source.lineStarts.getD (before.count '\n') 0)
      (Text.byteSize before) = some (String.ofList (Text.lastLine before)) := by
    rw [← hsize]
    conv_lhs => rw [hlines]
    exact slice?_byteSize (by rw [h, ← List.append_assoc, ← hlines])
  unfold position? Position.behind
  simp only [Nat.min_eq_left hle, lineIndex_byteSize h, hslice, Option.map_some,
    String.length_ofList, toWord_toWord_succ, Nat.add_comm (Text.lastLine before).length]

theorem position_byteSize (h : source.chars = before ++ after) :
    source.position (Text.byteSize before) = .behind before := by
  unfold position
  rw [position?_byteSize h]
  rfl

theorem position_size (source : Source) : source.position source.size = .behind source.chars :=
  position_byteSize (List.append_nil source.chars).symm

end Source

end Presage
