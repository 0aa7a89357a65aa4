import Presage.Proofs.Positions
import Presage.Source.Excerpt

/-!
What the excerpt before a diagnostic shows. Its lines are a heading and rows
(`Source.splitOn_excerpt`) with gutters of equal width (`Source.length_gutter_of_mem_rows`): the
line of the place with a caret below it, between the lines around it.

The line of a place is what stands on both sides of it up to the next line feeds
(`Text.getElem?_splitOn_count`). It is shown without the carriage returns at its end, so that the
character at the place is shown in its column unless it belongs to them
(`Source.getElem?_lineText_count`), and then it stands above the caret.
-/

set_option autoImplicit false
set_option relaxedAutoImplicit false

namespace Presage

/-! ### The line of a place -/

namespace Text

theorem rdropWhile_append (class? : Char → Bool) (first second : List Char) :
    (first ++ second).rdropWhile class? =
      if second.rdropWhile class? = [] then first.rdropWhile class?
      else first ++ second.rdropWhile class? := by
  unfold List.rdropWhile
  rw [List.reverse_append, List.dropWhile_append]
  by_cases h : second.reverse.dropWhile class? = []
  · simp [h]
  · simp [h]

/-- Up to its first line feed the text has nothing but carriage returns. -/
def EndsLine (text : List Char) : Prop := ∀ c ∈ text.takeWhile (· != '\n'), c = '\r'

instance (text : List Char) : Decidable (EndsLine text) :=
  decidable_of_iff ((text.takeWhile (· != '\n')).all (· == '\r') = true) (by simp [EndsLine])

theorem rdropWhile_eq_nil_iff_endsLine (text : List Char) :
    (text.takeWhile (· != '\n')).rdropWhile (· == '\r') = [] ↔ EndsLine text := by
  rw [List.rdropWhile_eq_nil_iff]
  exact forall₂_congr fun c _ ↦ beq_iff_eq

theorem toList_padLeft (width : Nat) (text : String) :
    (padLeft width text).toList = List.replicate (width - text.length) ' ' ++ text.toList := by
  unfold padLeft
  rw [String.toList_append, String.toList_ofList]

end Text

/-! ### Rows -/

/-- A line of an excerpt below its heading: a mark, the gutter and what stands right of it. -/
structure Row where
  mark : Char
  gutter : List Char
  content : List Char

namespace Row

/-- The line in writing, with a bar between the gutter and the content. -/
def text (row : Row) : List Char :=
  row.mark :: ' ' :: (row.gutter ++ ' ' :: '|' :: ' ' :: row.content)

/-- The content starts behind the mark, the gutter and the bar, with the spaces around them. -/
theorem getElem?_text (row : Row) (index : Nat) :
    row.text[row.gutter.length + 5 + index]? = row.content[index]? := by
  unfold text
  rw [show row.gutter.length + 5 + index = row.gutter.length + (3 + index) + 1 + 1 by omega,
    List.getElem?_cons_succ, List.getElem?_cons_succ, List.getElem?_append_right (by omega),
    Nat.add_sub_cancel_left, show 3 + index = index + 1 + 1 + 1 by omega]
  rfl

theorem length_text (row : Row) : row.text.length = row.gutter.length + 5 + row.content.length := by
  unfold text
  rw [List.length_cons, List.length_cons, List.length_append]
  simp only [List.length_cons]
  omega

theorem newline_not_mem_text {row : Row} (hmark : row.mark ≠ '\n') (hgutter : '\n' ∉ row.gutter)
    (hcontent : '\n' ∉ row.content) : '\n' ∉ row.text := by
  simp [text, hmark.symm, hgutter, hcontent]

end Row

namespace Source

/-- The number of a line at the right of a gutter. -/
def gutter (width number : Nat) : List Char :=
  List.replicate (width - number.repr.length) ' ' ++ number.repr.toList

/-- A line with its number. -/
def numberedRow (source : Source) (width : Nat) (mark : Char) (number : Nat) : Row :=
  ⟨mark, gutter width number, (source.lineText number).toList⟩

/-- A caret in a column, in a row without a number. -/
def caretRow (width column : Nat) : Row :=
  ⟨' ', List.replicate width ' ', List.replicate (column - 1) ' ' ++ ['^']⟩

/-- The rows that show a place with a gutter of the given width: the line before if there is one,
the line itself, the caret, and the line after if there is one. -/
def rows (source : Source) (width : Nat) (position : Position) : List Row :=
  (if 1 < position.line then [source.numberedRow width ' ' (position.line - 1)] else []) ++
    source.numberedRow width '>' position.line :: caretRow width position.column ::
      if position.line < source.lineCount then
        [source.numberedRow width ' ' (position.line + 1)]
      else []

/-- The first line of an excerpt. -/
def heading (position : Position) : List Char :=
  ("Line " ++ position.line.repr ++ ", col " ++ position.column.repr ++ ":").toList

variable {source : Source}

/-! ### The lines of an excerpt -/

theorem newline_not_mem_toDigits (number : Nat) : '\n' ∉ Nat.toDigits 10 number := by
  intro hmem
  have hdigit := Nat.isDigit_of_mem_toDigits (by decide) (by decide) hmem
  exact absurd hdigit (by decide)

theorem newline_not_mem_splitOn {text line : List Char} {index : Nat}
    (h : (text.splitOn '\n')[index]? = some line) : '\n' ∉ line := by
  have hindex : index ≤ text.count '\n' := by
    have hlength := (List.getElem?_eq_some_iff.mp h).1
    rw [Text.length_splitOn] at hlength
    omega
  obtain ⟨before, after, rfl, rfl, hstart⟩ := Text.exists_lineStart hindex
  rw [Text.getElem?_splitOn_count, hstart] at h
  obtain rfl := Option.some.inj h
  exact fun hmem ↦ by simpa using List.mem_takeWhile_imp hmem

theorem newline_not_mem_lineText (source : Source) (number : Nat) :
    '\n' ∉ (source.lineText number).toList := by
  match number with
  | 0 => exact List.not_mem_nil
  | index + 1 =>
    rw [toList_lineText]
    intro hmem
    have hline := (List.rdropWhile_prefix _ _).subset hmem
    cases hindex : (source.chars.splitOn '\n')[index]? with
    | none =>
      rw [hindex] at hline
      exact List.not_mem_nil hline
    | some line =>
      rw [hindex] at hline
      exact newline_not_mem_splitOn hindex hline

theorem newline_not_mem_heading (position : Position) : '\n' ∉ heading position := by
  simp [heading, newline_not_mem_toDigits]

theorem mem_rows {width : Nat} {position : Position} {row : Row}
    (h : row ∈ source.rows width position) :
    row = source.numberedRow width '>' position.line ∨ row = caretRow width position.column ∨
      1 < position.line ∧ row = source.numberedRow width ' ' (position.line - 1) ∨
      position.line < source.lineCount ∧
        row = source.numberedRow width ' ' (position.line + 1) := by
  have hneighbour {condition : Prop} [Decidable condition] {other : Row}
      (hmem : row ∈ if condition then [other] else []) : condition ∧ row = other := by
    by_cases hcondition : condition
    · rw [if_pos hcondition] at hmem
      exact ⟨hcondition, List.mem_singleton.mp hmem⟩
    · rw [if_neg hcondition] at hmem
      exact absurd hmem List.not_mem_nil
  rcases List.mem_append.mp h with hprevious | hothers
  · exact Or.inr (Or.inr (Or.inl (hneighbour hprevious)))
  · rcases List.mem_cons.mp hothers with hmarked | hothers
    · exact Or.inl hmarked
    · rcases List.mem_cons.mp hothers with hcaret | hnext
      · exact Or.inr (Or.inl hcaret)
      · exact Or.inr (Or.inr (Or.inr (hneighbour hnext)))

theorem marked_mem_rows (source : Source) (width : Nat) (position : Position) :
    source.numberedRow width '>' position.line ∈ source.rows width position :=
  List.mem_append_right _ List.mem_cons_self

theorem newline_not_mem_numberedRow (source : Source) (width : Nat) {mark : Char}
    (hmark : mark ≠ '\n') (number : Nat) : '\n' ∉ (source.numberedRow width mark number).text := by
  apply Row.newline_not_mem_text hmark
  · simp [numberedRow, gutter, newline_not_mem_toDigits]
  · exact source.newline_not_mem_lineText number

theorem newline_not_mem_caretRow (width column : Nat) : '\n' ∉ (caretRow width column).text := by
  apply Row.newline_not_mem_text
  · exact (by decide : ' ' ≠ '\n')
  · simp [caretRow]
  · simp [caretRow]

theorem newline_not_mem_row {width : Nat} {position : Position} {row : Row}
    (h : row ∈ source.rows width position) : '\n' ∉ row.text := by
  rcases mem_rows h with rfl | rfl | ⟨-, rfl⟩ | ⟨-, rfl⟩
  · exact source.newline_not_mem_numberedRow width (by decide) _
  · exact newline_not_mem_caretRow width _
  · exact source.newline_not_mem_numberedRow width (by decide) _
  · exact source.newline_not_mem_numberedRow width (by decide) _

theorem splitOn_flatMap_newline {lines : List (List Char)} (h : ∀ line ∈ lines, '\n' ∉ line) :
    (lines.flatMap (· ++ ['\n'])).splitOn '\n' = lines ++ [[]] := by
  induction lines with
  | nil => rfl
  | cons line rest ih =>
    obtain ⟨hline, hrest⟩ := List.forall_mem_cons.mp h
    rw [List.flatMap_cons, List.append_assoc, List.singleton_append,
      List.splitOn_append_cons_self_of_not_mem hline, ih hrest, List.cons_append]

/-- A line of an excerpt is a row. -/
theorem toList_excerptLine {mark : String} {c : Char} (hmark : mark.toList = [c]) (width : Nat)
    (label content : String) :
    (excerptLine mark width label content).toList =
      Row.text ⟨c, (Text.padLeft width label).toList, content.toList⟩ ++ ['\n'] := by
  simp [excerptLine, Row.text, hmark]

theorem toList_numbered {mark : String} {c : Char} (hmark : mark.toList = [c]) (source : Source)
    (width number : Nat) :
    (excerptLine mark width number.repr (source.lineText number)).toList =
      (source.numberedRow width c number).text ++ ['\n'] := by
  rw [toList_excerptLine hmark, Text.toList_padLeft]
  rfl

theorem toList_caret (width column : Nat) :
    (excerptLine " " width "" (Text.padLeft column "^")).toList =
      (caretRow width column).text ++ ['\n'] := by
  rw [toList_excerptLine (show " ".toList = [' '] from rfl), Text.toList_padLeft,
    Text.toList_padLeft, String.toList_empty, List.append_nil]
  rfl

/-- A neighbour that is shown under a condition. -/
theorem toList_neighbour (source : Source) (width number : Nat) (condition : Prop)
    [Decidable condition] :
    (if condition then excerptLine " " width number.repr (source.lineText number)
      else "").toList =
      ((if condition then [source.numberedRow width ' ' number] else []).map Row.text).flatMap
        (· ++ ['\n']) := by
  by_cases h : condition
  · rw [if_pos h, if_pos h, toList_numbered (show " ".toList = [' '] from rfl)]
    exact (List.append_nil _).symm
  · rw [if_neg h, if_neg h]
    rfl

theorem toList_excerpt (source : Source) (position : Position) :
    (source.excerpt position).toList =
      (heading position ::
        (source.rows (source.gutterWidth position.line) position).map Row.text).flatMap
          (· ++ ['\n']) := by
  have hheading : ("Line " ++ position.line.repr ++ ", col " ++ position.column.repr ++
      ":\n").toList = heading position ++ ['\n'] := by
    simp [heading]
  have hexcerpt : source.excerpt position = "Line " ++ position.line.repr ++ ", col " ++
      position.column.repr ++ ":\n" ++
      (if 1 < position.line then
        excerptLine " " (source.gutterWidth position.line) (position.line - 1).repr
          (source.lineText (position.line - 1))
      else "") ++
      excerptLine ">" (source.gutterWidth position.line) position.line.repr
        (source.lineText position.line) ++
      excerptLine " " (source.gutterWidth position.line) "" (Text.padLeft position.column "^") ++
      if position.line < source.lineCount then
        excerptLine " " (source.gutterWidth position.line) (position.line + 1).repr
          (source.lineText (position.line + 1))
      else "" := rfl
  rw [hexcerpt, String.toList_append, String.toList_append, String.toList_append,
    String.toList_append, hheading, toList_neighbour,
    toList_numbered (show ">".toList = ['>'] from rfl), toList_caret, toList_neighbour, rows,
    List.flatMap_cons, List.map_append, List.flatMap_append, List.map_cons, List.map_cons,
    List.flatMap_cons, List.flatMap_cons]
  simp only [List.append_assoc]

/-- The lines of an excerpt are its heading and its rows. -/
theorem splitOn_excerpt (source : Source) (position : Position) :
    (source.excerpt position).toList.splitOn '\n' =
      heading position ::
        ((source.rows (source.gutterWidth position.line) position).map Row.text ++ [[]]) := by
  rw [toList_excerpt, splitOn_flatMap_newline, List.cons_append]
  rw [List.forall_mem_cons, List.forall_mem_map]
  exact ⟨newline_not_mem_heading position, fun row hrow ↦ newline_not_mem_row hrow⟩

theorem length_repr_mono {number other : Nat} (h : number ≤ other) :
    number.repr.length ≤ other.repr.length := by
  rw [Nat.length_repr_le_iff Nat.length_repr_pos]
  exact Nat.lt_of_le_of_lt h ((Nat.length_repr_le_iff Nat.length_repr_pos).mp (Nat.le_refl _))

theorem length_gutter {width number : Nat} (h : number.repr.length ≤ width) :
    (gutter width number).length = width := by
  rw [gutter, List.length_append, List.length_replicate, String.length_toList]
  exact Nat.sub_add_cancel h

/-- The gutters are as wide as the number of the last line that is shown. -/
theorem length_gutter_of_mem_rows {position : Position} (h : position.line ≤ source.lineCount)
    {row : Row} (hrow : row ∈ source.rows (source.gutterWidth position.line) position) :
    row.gutter.length = source.gutterWidth position.line := by
  have hnumbered {number : Nat} (hnext : number ≤ position.line + 1)
      (hcount : number ≤ source.lineCount) :
      (gutter (source.gutterWidth position.line) number).length =
        source.gutterWidth position.line :=
    length_gutter (length_repr_mono (Nat.le_min.mpr ⟨hnext, hcount⟩))
  rcases mem_rows hrow with rfl | rfl | ⟨hline, rfl⟩ | ⟨hline, rfl⟩
  · exact hnumbered (Nat.le_succ _) h
  · exact List.length_replicate
  · exact hnumbered (by omega) (by omega)
  · exact hnumbered (Nat.le_refl _) hline

/-! ### The character above the caret -/

/-- The text of the line of a place, cut where the line ends. -/
theorem toList_lineText_count {before after : List Char} (h : source.chars = before ++ after) :
    (source.lineText (1 + before.count '\n')).toList =
      if Text.EndsLine after then (Text.lastLine before).rdropWhile (· == '\r')
      else Text.lastLine before ++ (after.takeWhile (· != '\n')).rdropWhile (· == '\r') := by
  rw [Nat.add_comm, toList_lineText, h, Text.getElem?_splitOn_count, Option.getD_some,
    Text.rdropWhile_append]
  simp only [Text.rdropWhile_eq_nil_iff_endsLine]

/-- A character that does not end its line is shown in its column. -/
theorem getElem?_lineText_count {before rest : List Char} {c : Char}
    (h : source.chars = before ++ c :: rest) (hinside : ¬ Text.EndsLine (c :: rest)) :
    (source.lineText (1 + before.count '\n')).toList[(Text.lastLine before).length]? = some c := by
  rw [toList_lineText_count h, if_neg hinside, List.getElem?_append_right (Nat.le_refl _),
    Nat.sub_self]
  rw [← Text.rdropWhile_eq_nil_iff_endsLine] at hinside
  have hprefix := List.rdropWhile_prefix (· == '\r') ((c :: rest).takeWhile (· != '\n'))
  have hline := hprefix.trans (List.takeWhile_prefix (· != '\n'))
  obtain ⟨d, others, hshown⟩ := List.exists_cons_of_ne_nil hinside
  rw [hshown] at hline ⊢
  rw [(List.cons_prefix_cons.mp hline).1]
  rfl

/-- The caret row is blank up to the caret. -/
theorem text_caretRow (width column : Nat) :
    ∃ indent, (caretRow width column).text = indent ++ ['^'] ∧ '^' ∉ indent ∧
      indent.length = width + 5 + (column - 1) := by
  refine ⟨' ' :: ' ' :: (List.replicate width ' ' ++ ' ' :: '|' :: ' ' ::
    List.replicate (column - 1) ' '), ?_, ?_, ?_⟩
  · simp [caretRow, Row.text]
  · simp
  · simp only [List.length_cons, List.length_append, List.length_replicate]
    omega

end Source

/-- The excerpt at a place shows the line of the place, marked, with a caret below it, between the
lines around it, and all gutters are of one width. The caret is below the character at the place,
unless that is one of the carriage returns and the line feed that end its line: the row of the line
is over before them. The number of the line is one that fits in a word. -/
theorem caret_below_character {source : Source} {before after : List Char} {position : Position}
    (htext : source.chars = before ++ after) (hlines : 1 + before.count '\n' < UInt32.size)
    (hcolumns : 1 + (Text.lastLine before).length ≤ 65535)
    (hposition : source.position? (Text.byteSize before) = some position) :
    ∃ width indent,
      (source.excerpt position).toList.splitOn '\n' =
        Source.heading position :: ((source.rows width position).map Row.text ++ [[]]) ∧
      (∀ row ∈ source.rows width position, row.gutter.length = width) ∧
      (Source.caretRow width position.column).text = indent ++ ['^'] ∧ '^' ∉ indent ∧
      ∀ c rest, after = c :: rest →
        (¬ Text.EndsLine after →
          (source.numberedRow width '>' position.line).text[indent.length]? = some c) ∧
        (Text.EndsLine after →
          (source.numberedRow width '>' position.line).text.length ≤ indent.length) := by
  rw [Source.position?_byteSize htext] at hposition
  have hline : position.line = 1 + before.count '\n' :=
    (congrArg Position.line (Option.some.inj hposition)).symm.trans (toWord_eq_self hlines)
  have hcolumn : position.column = 1 + (Text.lastLine before).length :=
    (congrArg Position.column (Option.some.inj hposition)).symm.trans
      (toWord_eq_self (Nat.lt_of_le_of_lt hcolumns (by decide)))
  have hcount : position.line ≤ source.lineCount := by
    rw [Source.lineCount_eq, htext, List.count_append, hline]
    omega
  obtain ⟨width, hwidth⟩ : ∃ width, width = source.gutterWidth position.line := ⟨_, rfl⟩
  have hshown := source.splitOn_excerpt position
  have hgutters : ∀ row ∈ source.rows width position, row.gutter.length = width := by
    subst hwidth
    exact fun row hrow ↦ Source.length_gutter_of_mem_rows hcount hrow
  rw [← hwidth] at hshown
  obtain ⟨indent, hcaret, hblank, hindent⟩ := Source.text_caretRow width position.column
  refine ⟨width, indent, hshown, hgutters, hcaret, hblank, ?_⟩
  rintro c rest rfl
  -- The gutters are equal, so the caret and the character are compared right of them.
  have hmarked := hgutters _ (source.marked_mem_rows width position)
  have hcontent : (source.numberedRow width '>' position.line).content =
      (source.lineText (1 + before.count '\n')).toList := by
    rw [← hline]
    rfl
  rw [hcolumn, Nat.add_sub_cancel_left] at hindent
  nth_rewrite 1 [← hmarked] at hindent
  constructor
  · intro hinside
    rw [hindent, Row.getElem?_text, hcontent]
    exact Source.getElem?_lineText_count htext hinside
  · intro hends
    rw [hindent, Row.length_text, hcontent, Source.toList_lineText_count htext, if_pos hends]
    exact Nat.add_le_add_left (List.rdropWhile_prefix _ _).length_le _

/-- A character behind another of two bytes and a carriage return, on the ninth line of ten: the
gutters are two wide, and the carriage return before it is no end of the line. -/
theorem caret_below_character_wide :
    ∃ source before rest position,
      source = Source.ofText "" "\n\n\n\n\n\n\n\né\r(\r\n" ∧
      source.chars = before ++ '(' :: rest ∧ 1 + before.count '\n' < UInt32.size ∧
      1 + (Text.lastLine before).length ≤ 65535 ∧
      source.position? (Text.byteSize before) = some position ∧ position = ⟨11, 9, 3⟩ ∧
      ¬ Text.EndsLine ('(' :: rest) ∧
      ∃ width indent,
        (Source.caretRow width 3).text = indent ++ ['^'] ∧ '^' ∉ indent ∧
        (source.numberedRow width '>' 9).text[indent.length]? = some '(' := by
  have htext : (Source.ofText "" "\n\n\n\n\n\n\n\né\r(\r\n").chars =
    "\n\n\n\n\n\n\n\né\r".toList ++ '(' :: ['\r', '\n'] := by
    simp [Source.ofText, Source.ofChars]
  have hposition := Source.position?_byteSize htext
  have hinside : ¬ Text.EndsLine ['(', '\r', '\n'] := by decide
  have hlines : 1 + "\n\n\n\n\n\n\n\né\r".toList.count '\n' < UInt32.size := by decide
  have hcolumns : 1 + (Text.lastLine "\n\n\n\n\n\n\n\né\r".toList).length ≤ 65535 := by decide
  obtain ⟨width, indent, -, -, hcaret, hblank, hmarked⟩ :=
    caret_below_character htext hlines hcolumns hposition
  exact ⟨_, _, _, _, rfl, htext, hlines, hcolumns, hposition, by decide, hinside, width, indent,
    hcaret, hblank, (hmarked _ _ rfl).1 hinside⟩

end Presage
