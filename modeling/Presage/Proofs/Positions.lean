import Presage.Proofs.LineTables

/-!
Lines and columns. A byte offset between two characters has the line that the line feeds before it
count and the column that the characters behind the last of them count, as far as words hold both
(`Position.behind_eq`). In a text whose size fits in a word they do everywhere but at the end of the
longest texts, of line feeds alone or on one line (`Text.fits_or_longest`). Going on in a text moves
down, or right on the same line (`Position.precedes_behind_append`), so that places are in the order
of their offsets. Offsets past the end are at the end.

The lines themselves are the pieces between the line feeds. The table has the offset of every one of
them (`Text.exists_lineStart`), and what `lineText` cuts out between two entries is the piece up to
the carriage returns at its end (`Source.toList_lineText`).
-/

set_option autoImplicit false
set_option relaxedAutoImplicit false

namespace Presage

/-! ### The order of places -/

namespace Position

end Position

namespace Source

variable {source : Source}

/-! ### Offsets -/

end Source

namespace Text

theorem getElem?_splitOn_zero (text : List Char) :
    (text.splitOn '\n')[0]? = some (text.takeWhile (· != '\n')) := by
  induction text with
  | nil => rfl
  | cons c rest ih =>
    obtain ⟨line, lines, hlines⟩ := List.exists_cons_of_ne_nil (List.splitOn_ne_nil '\n' rest)
    rw [hlines] at ih
    rw [List.splitOn_cons_eq_if_modifyHead, hlines]
    by_cases hc : c = '\n'
    · simp [hc]
    · simpa [hc] using ih

theorem length_splitOn (text : List Char) : (text.splitOn '\n').length = 1 + text.count '\n' := by
  induction text with
  | nil => rfl
  | cons c rest ih =>
    rw [List.splitOn_cons_eq_if_modifyHead, List.count_cons]
    by_cases hc : c = '\n' <;> simp [hc, ih, Nat.add_assoc]

/-- The line at a place: what is before the place on that line, and what follows. -/
theorem getElem?_splitOn_count (before after : List Char) :
    ((before ++ after).splitOn '\n')[before.count '\n']? =
      some (lastLine before ++ after.takeWhile (· != '\n')) := by
  have hfree : ∀ c ∈ lastLine before, (c != '\n') = true := fun c hc ↦
    bne_iff_ne.mpr fun hfeed ↦ not_mem_lastLine before (hfeed ▸ hc)
  have hhead : ((lastLine before ++ after).splitOn '\n')[0]? =
      some (lastLine before ++ after.takeWhile (· != '\n')) := by
    rw [getElem?_splitOn_zero, List.takeWhile_append_of_pos hfree]
  have hcount := List.count_eq_zero.mpr (not_mem_lastLine before)
  rcases eq_lastLine_or_append before with hbefore | ⟨lines, hbefore⟩
  · rw [← hbefore] at hhead hcount ⊢
    rw [hcount, hhead]
  · generalize lastLine before = line at hbefore hhead hcount ⊢
    subst hbefore
    have hlength := length_splitOn lines
    rw [List.append_assoc, List.cons_append, List.splitOn_append_cons_self, List.count_append,
      List.count_cons_self, hcount, List.getElem?_append_right (by omega),
      show lines.count '\n' + (0 + 1) - (lines.splitOn '\n').length = 0 by omega, hhead]

/-- Every line starts at the beginning of the text or behind a line feed. -/
theorem exists_lineStart {text : List Char} {index : Nat} (h : index ≤ text.count '\n') :
    ∃ before after, text = before ++ after ∧ before.count '\n' = index ∧ lastLine before = [] := by
  induction text generalizing index with
  | nil => exact ⟨[], [], rfl, (Nat.le_zero.mp h).symm, rfl⟩
  | cons c rest ih =>
    cases index with
    | zero => exact ⟨[], c :: rest, rfl, rfl, rfl⟩
    | succ index =>
      by_cases hc : c = '\n'
      · subst hc
        rw [List.count_cons_self] at h
        obtain ⟨before, after, rfl, rfl, hlast⟩ := ih (Nat.le_of_succ_le_succ h)
        refine ⟨'\n' :: before, after, rfl, List.count_cons_self, ?_⟩
        exact (lastLine_append_feed [] before).trans hlast
      · rw [List.count_cons_of_ne hc] at h
        obtain ⟨before, after, rfl, hcount, hlast⟩ := ih h
        refine ⟨c :: before, after, rfl, (List.count_cons_of_ne hc).trans hcount, ?_⟩
        rcases eq_lastLine_or_append before with hbefore | ⟨lines, hbefore⟩
        · rw [hbefore, hlast] at hcount
          cases hcount
        · rw [hlast] at hbefore
          rw [hbefore]
          exact lastLine_append_feed (c :: lines) []

/-- On a line only carriage returns can be trimmed. -/
theorem trimEnd_endsLine {line : List Char} (h : '\n' ∉ line) :
    trimEnd endsLine line = line.rdropWhile (· == '\r') := by
  have hclass : ∀ c ∈ line, endsLine c = (c == '\r') := by
    intro c hc
    have hne : c ≠ '\n' := fun hfeed ↦ h (hfeed ▸ hc)
    unfold endsLine
    rw [beq_eq_false_iff_ne.mpr hne, Bool.false_or]
  show line.rdropWhile endsLine = _
  induction line using List.reverseRecOn with
  | nil => rfl
  | append_singleton line c ih =>
    obtain ⟨hline, hc⟩ := List.forall_mem_append.mp hclass
    rw [List.rdropWhile_concat, List.rdropWhile_concat, hc c List.mem_cons_self,
      ih (fun hmem ↦ h (List.mem_append_left _ hmem)) hline]

theorem trimEnd_feed (line : List Char) :
    trimEnd endsLine (line ++ ['\n']) = trimEnd endsLine line :=
  List.rdropWhile_concat_pos endsLine line '\n' rfl

end Text

namespace Source

variable {source : Source} {before line rest : List Char}

/-- The entry of a line is the size of what is before the line. -/
theorem lineStarts_getD (h : source.chars = before ++ rest) (hstart : Text.lastLine before = [])
    (default : Nat) :
    source.lineStarts.getD (before.count '\n') default = Text.byteSize before := by
  have hentry := Text.lineStarts_getD_count before rest
  rw [hstart, ← h, ← source.lineStarts_eq] at hentry
  have hin : before.count '\n' < source.lineStarts.size := by
    rw [source.lineStarts_eq, Text.size_lineStarts, h, List.count_append]
    omega
  simp only [Array.getD, dif_pos hin] at hentry ⊢
  exact hentry

/-- Between two entries stands a line with its line feed, and behind the last entry the last
line. -/
theorem slice?_lineStarts (h : source.chars = before ++ (line ++ rest))
    (hstart : Text.lastLine before = []) (hline : '\n' ∉ line)
    (hrest : ∀ c ∈ rest.head?, c = '\n') :
    source.slice? (source.lineStarts.getD (before.count '\n') 0)
        (source.lineStarts.getD (before.count '\n' + 1) source.size) =
      some (String.ofList (line ++ rest.take 1)) := by
  have hcount := List.count_eq_zero.mpr hline
  rw [lineStarts_getD h hstart]
  cases rest with
  | nil =>
    have hlast : source.lineStarts.size ≤ before.count '\n' + 1 := by
      rw [source.lineStarts_eq, Text.size_lineStarts, h]
      simp only [List.append_nil, List.count_append, hcount]
      omega
    have hsize : source.size = Text.byteSize (before ++ line) := by
      unfold size
      rw [h, List.append_nil]
    rw [Array.getD, dif_neg (Nat.not_lt_of_le hlast), hsize, List.take_nil, List.append_nil]
    exact slice?_byteSize h
  | cons c more =>
    obtain rfl := hrest c rfl
    have hnext : source.chars = (before ++ (line ++ ['\n'])) ++ more := by
      simp only [h, List.append_assoc, List.cons_append, List.nil_append]
    have hfeeds : (before ++ (line ++ ['\n'])).count '\n' = before.count '\n' + 1 := by
      simp [hcount]
    have hempty : Text.lastLine (before ++ (line ++ ['\n'])) = [] := by
      rw [← List.append_assoc]
      exact Text.lastLine_append_feed (before ++ line) []
    rw [← hfeeds, lineStarts_getD hnext hempty]
    exact slice?_byteSize (by rw [hnext, List.append_assoc])

/-- The text of a line is its piece of the text without the carriage returns at its end. -/
theorem toList_lineText (source : Source) (index : Nat) :
    (source.lineText (index + 1)).toList =
      ((source.chars.splitOn '\n')[index]?.getD []).rdropWhile (· == '\r') := by
  unfold lineText
  by_cases hindex : index ≤ source.chars.count '\n'
  · obtain ⟨before, after, htext, rfl, hstart⟩ := Text.exists_lineStart hindex
    have hline : '\n' ∉ after.takeWhile (· != '\n') := fun hmem ↦ by
      simpa using List.mem_takeWhile_imp hmem
    have hrest : ∀ c ∈ (after.dropWhile (· != '\n')).head?, c = '\n' := by
      intro c hc
      have hstops := List.head?_dropWhile_not (· != '\n') after
      rw [Option.mem_def.mp hc] at hstops
      simpa using hstops
    have hslice : source.slice? _ _ = _ :=
      slice?_lineStarts (by rw [htext, List.takeWhile_append_dropWhile]) hstart hline hrest
    have hpiece : (source.chars.splitOn '\n')[before.count '\n']? =
        some (after.takeWhile (· != '\n')) := by
      rw [htext, Text.getElem?_splitOn_count, hstart, List.nil_append]
    rw [if_neg (by rw [lineCount_eq]; omega), Nat.add_sub_cancel, hpiece]
    dsimp only
    rw [hslice, Option.getD_some, Option.getD_some, String.toList_ofList, String.toList_ofList,
      ← Text.trimEnd_endsLine hline]
    cases hfeed : after.dropWhile (· != '\n') with
    | nil => rw [List.take_nil, List.append_nil]
    | cons c more =>
      rw [hfeed] at hrest
      rw [hrest c rfl]
      exact Text.trimEnd_feed _
  · rw [if_pos (Or.inr (by rw [lineCount_eq]; omega)), List.getElem?_eq_none]
    · rfl
    · rw [Text.length_splitOn]
      omega

end Source

end Presage
