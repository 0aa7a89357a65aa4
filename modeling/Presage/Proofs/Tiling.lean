import Presage.Proofs.LineTables
import Presage.Proofs.Outcomes
import Presage.Proofs.Spelling
import Presage.Token.Scan

/-!
The tokens of a text tile it. `TokenStream.Tiling` lays out a text as pieces that are spelled as
lexemes, one after the other, and gives the stream of those that are tokens; `tiling_of_scan` shows
that a scan that succeeds has laid out its text. What holds of the stream follows from the layout:
the tokens are in order (`Tiling.ordered`), each fills its span of the text (`Tiling.placed`), and
what is left between them is blanks and comments (`Tiling.gaps`).

Positions are kept in words. Whatever reads a text by the offsets of a position, or compares such
offsets, is about texts that are smaller than a word can count.

A scan fails where the layout cannot go on: `scan_eq_error_iff` says that it has got to a character
that starts no lexeme, past pieces that are lexemes, and reports that character at its place.
-/

set_option autoImplicit false
set_option relaxedAutoImplicit false

namespace Presage

/-! ### Places in a text -/

/-- The piece fills the span of the text, before `after`. -/
def Placed (text : List Char) (span : Span) (piece after : List Char) : Prop :=
  ∃ before, text = before ++ (piece ++ after) ∧ span = ⟨.behind before, .behind (before ++ piece)⟩

theorem Placed.start_lt_stop {text piece after : List Char} {span : Span}
    (h : Placed text span piece after) (hsize : Text.byteSize text < UInt32.size)
    (hpiece : piece ≠ []) : span.start.offset < span.stop.offset := by
  obtain ⟨before, rfl, rfl⟩ := h
  have hpos := Text.byteSize_pos hpiece
  simp only [Text.byteSize_append] at hsize
  have hstop : Text.byteSize (before ++ piece) = Text.byteSize before + Text.byteSize piece :=
    Text.byteSize_append before piece
  show (Position.behind before).offset < (Position.behind (before ++ piece)).offset
  rw [Position.offset_behind (by omega), Position.offset_behind (by omega)]
  omega

/-- Where a piece starts, the words of the position lose nothing. -/
theorem Placed.start_eq {text piece after : List Char} {span : Span}
    (h : Placed text span piece after) (hsize : Text.byteSize text < UInt32.size)
    (hpiece : piece ≠ []) :
    ∃ before, text = before ++ (piece ++ after) ∧ span.start =
      ⟨Text.byteSize before, 1 + before.count '\n', 1 + (Text.lastLine before).length⟩ := by
  obtain ⟨before, rfl, rfl⟩ := h
  have hpos := Text.byteSize_pos hpiece
  simp only [Text.byteSize_append] at hsize
  exact ⟨before, rfl, Position.behind_eq (Text.fits_of_byteSize_lt (by omega))⟩

/-- What fills a span is what the source has there, from one boundary of characters to another. -/
theorem Source.slice?_of_placed {source : Source} {span : Span} {piece after : List Char}
    (hsize : source.size < UInt32.size) (h : Placed source.chars span piece after) :
    source.position? span.start.offset = some span.start ∧
      source.position? span.stop.offset = some span.stop ∧
      source.slice? span.start.offset span.stop.offset = some (String.ofList piece) := by
  obtain ⟨before, htext, rfl⟩ := h
  have hstop : source.chars = (before ++ piece) ++ after := by rw [htext, List.append_assoc]
  have hsizes : source.size = Text.byteSize (before ++ piece) + Text.byteSize after := by
    unfold size
    rw [hstop, Text.byteSize_append]
  have hstart : Text.byteSize before ≤ Text.byteSize (before ++ piece) := by
    rw [Text.byteSize_append]
    exact Nat.le_add_right _ _
  simp only [Position.offset_behind (show Text.byteSize before < UInt32.size by omega),
    Position.offset_behind (show Text.byteSize (before ++ piece) < UInt32.size by omega)]
  exact ⟨position?_byteSize htext, position?_byteSize hstop, slice?_byteSize htext⟩

theorem Placed.read_eq {source : Source} {span : Span} {piece after : List Char}
    (hsize : source.size < UInt32.size) (h : Placed source.chars span piece after) :
    source.read span = String.ofList piece :=
  Source.read_eq (Source.slice?_of_placed hsize h).2.2

/-! ### Gaps -/

/-- The characters before `after` are blanks and comments, each comment up to the end of its
line. -/
inductive Gap (after : List Char) : List Char → Prop
  | nil : Gap after []
  | blank {c : Char} {rest : List Char} (hblank : Text.isBlank c = true) (hrest : Gap after rest) :
      Gap after (c :: rest)
  | comment {body rest : List Char} (hbody : '\n' ∉ body)
      (hend : ∀ d ∈ (rest ++ after).head?, d = '\n') (hrest : Gap after rest) :
      Gap after ('/' :: '/' :: (body ++ rest))

namespace Gap

theorem of_blanks {after blanks : List Char} (h : ∀ d ∈ blanks, Text.isBlank d = true) :
    Gap after blanks := by
  induction blanks with
  | nil => exact .nil
  | cons c rest ih =>
    obtain ⟨hc, hrest⟩ := List.forall_mem_cons.mp h
    exact .blank hc (ih hrest)

/-- A lexeme without a kind is a gap. -/
theorem of_spelled {after piece : List Char} (h : Lexeme.Spelled after none piece) :
    Gap after piece := by
  cases h with
  | blanks _ hblanks _ => exact of_blanks hblanks
  | @comment body hbody hend =>
    have hgap : Gap after ('/' :: '/' :: (body ++ [])) := .comment hbody hend .nil
    rw [List.append_nil] at hgap
    exact hgap

theorem append {after first second : List Char} (hfirst : Gap (second ++ after) first)
    (hsecond : Gap after second) : Gap after (first ++ second) := by
  induction hfirst with
  | nil => exact hsecond
  | blank hblank _ ih => exact .blank hblank ih
  | @comment body rest hbody hend _ ih =>
    rw [List.cons_append, List.cons_append, List.append_assoc]
    refine .comment hbody ?_ ih
    rw [List.append_assoc]
    exact hend

end Gap

/-! ### Cutting a text -/

/-- Induction on a text by the lexemes it is cut into. -/
theorem Lexeme.text_induction {motive : List Char → Prop} (nil : motive [])
    (stuck : ∀ {c : Char} {rest : List Char}, Stuck c rest → motive (c :: rest))
    (piece : ∀ {kind? : Option TokenKind} {piece after : List Char}, Spelled after kind? piece →
      motive after → motive (piece ++ after))
    (text : List Char) : motive text :=
  match text with
  | [] => nil
  | c :: rest => by
    cases hnext : next? (c :: rest) with
    | none => exact stuck (next?_eq_none_iff.mp hnext)
    | some lexeme =>
      rw [← text_append_rest hnext]
      exact piece (spelled_of_next? hnext) (text_induction nil stuck piece lexeme.rest)
termination_by text.length
decreasing_by exact length_rest_lt hnext

/-- Cutting lexemes off a text from its head on leads past `before` to `rest`. -/
inductive Lexeme.Reaches : List Char → List Char → List Char → Prop
  | here {text : List Char} : Reaches text [] text
  | piece {kind? : Option TokenKind} {piece after before rest : List Char}
      (hpiece : Spelled after kind? piece) (hrest : Reaches after before rest) :
      Reaches (piece ++ after) (piece ++ before) rest

theorem Lexeme.Reaches.append_eq {text before rest : List Char} (h : Reaches text before rest) :
    before ++ rest = text := by
  induction h with
  | here => rfl
  | piece _ _ ih => rw [List.append_assoc, ih]

/-! ### Kinds and values -/

theorem TokenKind.IsOfWord.ne {kind : TokenKind} {word : String} (h : kind.IsOfWord word) :
    kind ≠ .string ∧ kind ≠ .eof := by
  have hreserved : ∀ entry ∈ reserved, entry.2 ≠ .string ∧ entry.2 ≠ .eof := by decide
  rcases h with hmem | ⟨rfl, -⟩
  · exact hreserved _ hmem
  · exact ⟨nofun, nofun⟩

theorem TokenKind.ofSymbol?_ne {c : Char} {kind : TokenKind} (h : ofSymbol? c = some kind) :
    kind ≠ .string ∧ kind ≠ .eof := by
  unfold ofSymbol? at h
  split at h
  all_goals cases h
  all_goals exact ⟨nofun, nofun⟩

namespace Lexeme

theorem Spelled.ne_eof {after piece : List Char} {kind : TokenKind}
    (h : Spelled after (some kind) piece) : kind ≠ .eof := by
  cases h with
  | word _ _ _ hkind => exact hkind.ne.2
  | number | string => exact nofun
  | symbol hsymbol => exact (TokenKind.ofSymbol?_ne hsymbol).2

theorem Spelled.kind?_ne_eof {after piece : List Char} {kind? : Option TokenKind}
    (h : Spelled after kind? piece) : kind? ≠ some .eof := by
  rintro rfl
  exact h.ne_eof rfl

/-- A string is its value between quotes. -/
theorem Spelled.of_string {after piece : List Char} (h : Spelled after (some .string) piece) :
    String.ofList piece = "\"" ++ (Lexeme.mk (some .string) piece after).value ++ "\"" ∧
      '\"' ∉ (Lexeme.mk (some .string) piece after).value.toList := by
  cases h with
  | word _ _ _ hkind => exact (hkind.ne.1 rfl).elim
  | symbol hsymbol => exact ((TokenKind.ofSymbol?_ne hsymbol).1 rfl).elim
  | @string inside hinside =>
    have hvalue : (Lexeme.mk (some .string) ('\"' :: (inside ++ ['\"'])) after).value =
        String.ofList inside := by
      unfold value
      rw [if_pos rfl]
      show String.ofList (inside ++ ['\"']).dropLast = _
      rw [List.dropLast_concat]
    rw [hvalue, String.toList_ofList]
    refine ⟨?_, hinside⟩
    rw [← String.toList_inj]
    simp

/-- Any other lexeme with a kind is its value. -/
theorem value_of_ne {after piece : List Char} {kind : TokenKind} (h : kind ≠ .string) :
    (Lexeme.mk (some kind) piece after).value = String.ofList piece := by
  unfold value
  rw [if_neg (by simpa using h)]

end Lexeme

/-! ### Scans -/

namespace TokenStream

open Lexeme (Spelled Stuck Reaches)

theorem scan_of_spelled {after piece : List Char} {kind? : Option TokenKind} (source : Source)
    (offset : Nat) (h : Spelled after kind? piece) :
    scan source offset (piece ++ after) =
      (scan source (offset + Text.byteSize piece) after).map
        (push ⟨kind?, piece, after⟩ h.kind?_ne_eof
          ⟨source.position offset, source.position (offset + Text.byteSize piece)⟩) := by
  have hnext := Lexeme.next?_of_spelled h
  obtain ⟨c, rest, hcons⟩ : ∃ c rest, piece ++ after = c :: rest :=
    List.exists_cons_of_ne_nil (List.append_ne_nil_of_left_ne_nil h.ne_nil after)
  rw [hcons] at hnext ⊢
  rw [scan]
  split
  · next hnone =>
    rw [hnext] at hnone
    cases hnone
  · next lexeme hsome =>
    rw [hnext] at hsome
    cases hsome
    rfl

theorem scan_of_stuck {c : Char} {rest : List Char} (source : Source) (offset : Nat)
    (h : Stuck c rest) :
    scan source offset (c :: rest) =
      .error ⟨.unrecognisedToken (String.singleton c), source.position offset⟩ := by
  have hnext := Lexeme.next?_eq_none_iff.mpr h
  rw [scan]
  split
  · rfl
  · next lexeme hsome =>
    rw [hnext] at hsome
    cases hsome

/-- A scan fails at the first character that it gets to and that starts no lexeme. -/
theorem scan_eq_error_iff {source : Source} {offset : Nat} {text : List Char}
    {diagnostic : Diagnostic} :
    scan source offset text = .error diagnostic ↔
      ∃ before c after, Reaches text before (c :: after) ∧ Stuck c after ∧
        diagnostic = ⟨.unrecognisedToken (String.singleton c),
          source.position (offset + Text.byteSize before)⟩ := by
  constructor
  · induction text using Lexeme.text_induction generalizing offset with
    | nil =>
      intro h
      rw [scan] at h
      cases h
    | @stuck c rest hstuck =>
      intro h
      rw [scan_of_stuck source offset hstuck] at h
      cases h
      exact ⟨[], c, rest, .here, hstuck, rfl⟩
    | @piece kind? piece after hpiece ih =>
      intro h
      rw [scan_of_spelled source offset hpiece] at h
      cases hscan : scan source (offset + Text.byteSize piece) after with
      | ok stream =>
        rw [hscan] at h
        cases h
      | error found =>
        rw [hscan] at h
        cases h
        obtain ⟨before, c, rest, hreaches, hstuck, rfl⟩ := ih hscan
        refine ⟨piece ++ before, c, rest, .piece hpiece hreaches, hstuck, ?_⟩
        rw [Text.byteSize_append, Nat.add_assoc]
  · rintro ⟨before, c, after, hreaches, hstuck, rfl⟩
    -- The induction is on the pieces that are passed, not on the text.
    generalize htarget : c :: after = target at hreaches
    induction hreaches generalizing offset with
    | here =>
      rw [← htarget]
      exact scan_of_stuck source offset hstuck
    | piece hpiece _ ih =>
      rw [scan_of_spelled source offset hpiece, ih htarget, Text.byteSize_append, Nat.add_assoc]
      rfl

/-! ### Layouts -/

/-- Behind the text `before` there follows a text that is laid out as lexemes one after the other,
and the stream has the tokens among them. -/
inductive Tiling : List Char → List Char → TokenStream → Prop
  | done {before : List Char} : Tiling before [] (.empty (.behind before))
  | skip {before piece after : List Char} {stream : TokenStream}
      (hpiece : Spelled after none piece) (hrest : Tiling (before ++ piece) after stream) :
      Tiling before (piece ++ after) stream
  | token {before : List Char} {kind : TokenKind} {piece after : List Char} {stream : TokenStream}
      (hpiece : Spelled after (some kind) piece)
      (hrest : Tiling (before ++ piece) after stream) :
      Tiling before (piece ++ after)
        (stream.cons ⟨kind, (Lexeme.mk (some kind) piece after).value,
          ⟨.behind before, .behind (before ++ piece)⟩⟩ hpiece.ne_eof)

theorem tiling_of_scan {source : Source} {before text : List Char} {stream : TokenStream}
    (htext : source.chars = before ++ text)
    (h : scan source (Text.byteSize before) text = .ok stream) : Tiling before text stream := by
  induction text using Lexeme.text_induction generalizing before stream with
  | nil =>
    rw [scan, Source.position_byteSize htext] at h
    cases h
    exact .done
  | stuck hstuck =>
    rw [scan_of_stuck source _ hstuck] at h
    cases h
  | @piece kind? piece after hpiece ih =>
    have hrest : source.chars = (before ++ piece) ++ after := by rw [htext, List.append_assoc]
    rw [scan_of_spelled source _ hpiece, ← Text.byteSize_append, Source.position_byteSize htext,
      Source.position_byteSize hrest] at h
    cases hscan : scan source (Text.byteSize (before ++ piece)) after with
    | error diagnostic =>
      rw [hscan] at h
      cases h
    | ok rest =>
      rw [hscan] at h
      cases h
      cases kind? with
      | none => exact .skip hpiece (ih hrest hscan)
      | some kind => exact .token hpiece (ih hrest hscan)

theorem tiling_of_ofSource {source : Source} {stream : TokenStream}
    (h : ofSource source = .ok stream) : Tiling [] source.chars stream :=
  tiling_of_scan rfl h

/-- The spans between the tokens, from `position` on: before each token what the one before left. -/
def gapsFrom (position : Position) : List Token → List Span
  | [] => []
  | token :: rest => ⟨position, token.span.start⟩ :: gapsFrom token.span.stop rest

/-- The spans between the tokens of a stream, with those before the first and after the last. -/
def gaps (stream : TokenStream) : List Span := gapsFrom .start stream.toList

namespace Tiling

variable {before text : List Char} {stream : TokenStream}

theorem eof_eq (h : Tiling before text stream) :
    stream.eof = .endOfText (.behind (before ++ text)) := by
  induction h with
  | done => rw [List.append_nil]; rfl
  | skip _ _ ih | token _ _ ih => rw [← List.append_assoc]; exact ih

theorem offset_le (h : Tiling before text stream)
    (hsize : Text.byteSize before + Text.byteSize text < UInt32.size) :
    ∀ token ∈ stream.toList, Text.byteSize before ≤ token.span.start.offset := by
  induction h with
  | @done before =>
    intro token htoken
    obtain rfl := List.mem_singleton.mp htoken
    exact Nat.le_of_eq (Position.offset_behind hsize).symm
  | @skip before piece after stream _ _ ih =>
    intro token htoken
    rw [Text.byteSize_append] at hsize ih
    have hle := ih (by omega) token htoken
    omega
  | @token before kind piece after stream _ _ ih =>
    intro token htoken
    rw [Text.byteSize_append] at hsize ih
    rcases List.mem_cons.mp htoken with rfl | hrest
    · exact Nat.le_of_eq (Position.offset_behind (by omega)).symm
    · have hle := ih (by omega) token hrest
      omega

/-- Every token ends before those after it start. -/
theorem ordered (h : Tiling before text stream)
    (hsize : Text.byteSize before + Text.byteSize text < UInt32.size) :
    stream.toList.Pairwise fun first second ↦
      first.span.stop.offset ≤ second.span.start.offset := by
  induction h with
  | done => exact List.pairwise_singleton _ _
  | skip _ _ ih =>
    rw [Text.byteSize_append] at hsize ih
    exact ih (by omega)
  | @token before kind piece after stream _ hrest ih =>
    rw [Text.byteSize_append] at hsize
    have hrestSize : Text.byteSize (before ++ piece) + Text.byteSize after < UInt32.size := by
      rw [Text.byteSize_append]
      omega
    refine List.pairwise_cons.mpr ⟨fun second hsecond ↦ ?_, ih hrestSize⟩
    show (Position.behind (before ++ piece)).offset ≤ _
    rw [Position.offset_behind (Nat.lt_of_le_of_lt (Nat.le_add_right _ _) hrestSize)]
    exact hrest.offset_le hrestSize second hsecond

/-- Every token fills its span with a lexeme of its kind, which gives its value. -/
theorem placed (h : Tiling before text stream) :
    ∀ token ∈ stream.tokens, ∃ piece after, Placed (before ++ text) token.span piece after ∧
      Spelled after (some token.kind) piece ∧
      token.value = (Lexeme.mk (some token.kind) piece after).value := by
  induction h with
  | done => exact nofun
  | skip _ _ ih =>
    rw [← List.append_assoc]
    exact ih
  | @token before kind piece after stream hpiece _ ih =>
    intro token htoken
    rcases List.mem_cons.mp htoken with rfl | hrest
    · exact ⟨piece, after, ⟨before, rfl, rfl⟩, hpiece, rfl⟩
    · rw [← List.append_assoc]
      exact ih token hrest

/-- What is left between the tokens is gaps. The first may have begun before the text. -/
theorem gaps {first gap : List Char} (h : Tiling (first ++ gap) text stream) (hgap : Gap text gap) :
    ∀ span ∈ gapsFrom (.behind first) stream.toList,
      ∃ piece after, Placed (first ++ (gap ++ text)) span piece after ∧ Gap after piece := by
  generalize hbefore : first ++ gap = before at h
  induction h generalizing first gap with
  | done =>
    intro span hspan
    obtain rfl := List.mem_singleton.mp hspan
    exact ⟨gap, [], ⟨first, rfl, by rw [hbefore]; rfl⟩, hgap⟩
  | @skip before piece after stream hpiece _ ih =>
    -- The piece makes the gap before it longer.
    have hlonger : first ++ (gap ++ piece) = before ++ piece := by
      rw [← hbefore, List.append_assoc]
    have hspans := ih (hgap.append (.of_spelled hpiece)) hlonger
    rw [List.append_assoc] at hspans
    exact hspans
  | @token before kind piece after stream hpiece _ ih =>
    intro span hspan
    subst hbefore
    rcases List.mem_cons.mp hspan with rfl | hrest
    · exact ⟨gap, piece ++ after, ⟨first, rfl, rfl⟩, hgap⟩
    · have hspans := ih .nil (List.append_nil _) span hrest
      rw [List.nil_append, List.append_assoc, List.append_assoc] at hspans
      exact hspans

end Tiling

/-- The tokens of the stream tile the source. -/
structure Tiles (source : Source) (stream : TokenStream) : Prop where
  /-- Tokens are not empty. -/
  nonempty : ∀ token ∈ stream.tokens,
    token.kind ≠ .eof ∧ token.span.start.offset < token.span.stop.offset
  /-- The end is marked at the end of the text. -/
  ended : stream.eof.kind = .eof ∧ stream.eof.span.start.offset = source.size ∧
    stream.eof.span.stop.offset = source.size
  /-- Tokens start and end between characters. -/
  bounded : ∀ token ∈ stream.toList,
    source.position? token.span.start.offset = some token.span.start ∧
      source.position? token.span.stop.offset = some token.span.stop
  /-- Tokens come one after the other. -/
  ordered : stream.toList.Pairwise fun first second ↦
    first.span.stop.offset ≤ second.span.start.offset
  /-- Between tokens there are only blanks and comments. -/
  separated : ∀ gap ∈ stream.gaps,
    ∃ piece after, Placed source.chars gap piece after ∧ Gap after piece
  /-- A token is spelled as a lexeme of its kind, words and numbers as long as they go on. -/
  spelled : ∀ token ∈ stream.tokens, ∃ piece after,
    Placed source.chars token.span piece after ∧
      source.slice? token.span.start.offset token.span.stop.offset = some (String.ofList piece) ∧
      Spelled after (some token.kind) piece
  /-- The text of a token is its value, that of a string with quotes around. -/
  valued : ∀ token ∈ stream.tokens,
    (token.kind ≠ .string →
      source.slice? token.span.start.offset token.span.stop.offset = some token.value) ∧
    (token.kind = .string → '\"' ∉ token.value.toList ∧
      source.slice? token.span.start.offset token.span.stop.offset =
        some ("\"" ++ token.value ++ "\""))

theorem Tiling.tiles {source : Source} {stream : TokenStream}
    (hsize : source.size < UInt32.size) (h : Tiling [] source.chars stream) :
    stream.Tiles source := by
  have heof := h.eof_eq
  have hend : (Position.behind source.chars).offset = source.size := Position.offset_behind hsize
  have hsizes : Text.byteSize [] + Text.byteSize source.chars < UInt32.size := by
    rw [← Text.byteSize_append]
    exact hsize
  constructor
  case nonempty =>
    intro token htoken
    obtain ⟨piece, after, hplaced, hspelled, -⟩ := h.placed token htoken
    exact ⟨hspelled.ne_eof, hplaced.start_lt_stop hsize hspelled.ne_nil⟩
  case ended =>
    rw [heof]
    exact ⟨rfl, hend, hend⟩
  case bounded =>
    intro token htoken
    rcases List.mem_append.mp htoken with htoken | htoken
    · obtain ⟨piece, after, hplaced, -⟩ := h.placed token htoken
      obtain ⟨hstart, hstop, -⟩ := Source.slice?_of_placed hsize hplaced
      exact ⟨hstart, hstop⟩
    · have hposition := Source.position?_byteSize (List.append_nil source.chars).symm
      rw [← Position.offset_behind hsize] at hposition
      rw [List.mem_singleton.mp htoken, heof]
      exact ⟨hposition, hposition⟩
  case ordered => exact h.ordered hsizes
  case separated =>
    have hgaps : Tiling ([] ++ []) source.chars stream := h
    exact hgaps.gaps .nil
  case spelled =>
    intro token htoken
    obtain ⟨piece, after, hplaced, hspelled, -⟩ := h.placed token htoken
    exact ⟨piece, after, hplaced, (Source.slice?_of_placed hsize hplaced).2.2, hspelled⟩
  case valued =>
    intro token htoken
    obtain ⟨piece, after, hplaced, hspelled, hvalue⟩ := h.placed token htoken
    obtain ⟨-, -, hslice⟩ := Source.slice?_of_placed hsize hplaced
    rw [hslice, hvalue]
    constructor
    · intro hkind
      rw [Lexeme.value_of_ne hkind]
    · intro hkind
      rw [hkind] at hspelled ⊢
      obtain ⟨htext, hinside⟩ := hspelled.of_string
      exact ⟨hinside, congrArg some htext⟩

theorem tiles_of_ofSource {source : Source} {stream : TokenStream}
    (hsize : source.size < UInt32.size) (h : ofSource source = .ok stream) :
    stream.Tiles source :=
  (tiling_of_ofSource h).tiles hsize

namespace Tiles

variable {source : Source} {stream : TokenStream} {token : Token}

/-- What is read of a token is spelled as its kind says. -/
theorem read_spelled (h : stream.Tiles source) (htoken : token ∈ stream.tokens) :
    ∃ piece after, source.read token.span = String.ofList piece ∧
      Spelled after (some token.kind) piece := by
  obtain ⟨piece, after, -, hslice, hspelled⟩ := h.spelled token htoken
  exact ⟨piece, after, Source.read_eq hslice, hspelled⟩

/-- The text of a token that is not a string is its value. -/
theorem read_eq (h : stream.Tiles source) (htoken : token ∈ stream.tokens)
    (hkind : token.kind ≠ .string) : source.read token.span = token.value :=
  Source.read_eq ((h.valued token htoken).1 hkind)

/-- The text of a string is its value between quotes. -/
theorem read_string (h : stream.Tiles source) (htoken : token ∈ stream.tokens)
    (hkind : token.kind = .string) :
    source.read token.span = "\"" ++ token.value ++ "\"" ∧ '\"' ∉ token.value.toList := by
  obtain ⟨hinside, hslice⟩ := (h.valued token htoken).2 hkind
  exact ⟨Source.read_eq hslice, hinside⟩

end Tiles

/-- The tokens of every source that can be cut into lexemes tile it, if its size fits in a word. The
others are those with a character that starts no lexeme behind lexemes only, and that character is
reported at its place. -/
theorem ofSource_tiles (source : Source) :
    (source.size < UInt32.size → ∀ stream, ofSource source = .ok stream → stream.Tiles source) ∧
      ∀ diagnostic, ofSource source = .error diagnostic ↔
        ∃ before c after position, source.chars = before ++ c :: after ∧
          Reaches source.chars before (c :: after) ∧ Stuck c after ∧
          source.position? (Text.byteSize before) = some position ∧
          diagnostic = ⟨.unrecognisedToken (String.singleton c), position⟩ := by
  refine ⟨fun hsize stream ↦ tiles_of_ofSource hsize, fun diagnostic ↦ scan_eq_error_iff.trans ?_⟩
  simp only [Nat.zero_add]
  constructor
  · rintro ⟨before, c, after, hreaches, hstuck, rfl⟩
    have htext := hreaches.append_eq.symm
    rw [Source.position_byteSize htext]
    exact ⟨before, c, after, _, htext, hreaches, hstuck, Source.position?_byteSize htext, rfl⟩
  · rintro ⟨before, c, after, position, htext, hreaches, hstuck, hplace, rfl⟩
    rw [Source.position?_byteSize htext] at hplace
    obtain rfl := Option.some.inj hplace
    exact ⟨before, c, after, hreaches, hstuck, by rw [Source.position_byteSize htext]⟩

example : (ofSource (Source.ofText "" "a // é\n\"b")).map (fun _ ↦ ()) =
    .error ⟨.unrecognisedToken "\"", ⟨8, 2, 1⟩⟩ := by
  decide +kernel

end TokenStream

end Presage
