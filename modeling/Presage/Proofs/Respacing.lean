import Mathlib.Data.Bool.Basic
import Mathlib.Data.List.Forall2
import Presage.Proofs.Layout

/-!
Tokens set apart by single spaces. A token that is spelled in a text is spelled in the same way in
front of a space (`Lexeme.Spelled.before_space`), and a space in front of a token is a gap of its
own (`Lexeme.Spelled.space_before`), since no token starts with a blank. So texts of tokens with a
space between two of them are cut where they were joined (`TokenStream.scan_spaced`), and the tokens
of a source can be written with spaces alone between them.
-/

set_option autoImplicit false
set_option relaxedAutoImplicit false

namespace Presage

namespace Lexeme

variable {after piece : List Char} {kind : TokenKind}

theorem isBlank_eq_false_of_ofSymbol? {c : Char} (h : TokenKind.ofSymbol? c = some kind) :
    Text.isBlank c = false := by
  unfold TokenKind.ofSymbol? at h
  split at h
  case h_11 => cases h
  all_goals rfl

/-- No token starts with a blank. -/
theorem Spelled.head_not_blank (h : Spelled after (some kind) piece) (rest : List Char) :
    ∀ c ∈ (piece ++ rest).head?, Text.isBlank c = false := by
  have hcons {first : Char} {others : List Char} (hfirst : Text.isBlank first = false) :
      ∀ c ∈ (first :: others ++ rest).head?, Text.isBlank c = false := by
    intro c hc
    rw [← Option.some.inj hc]
    exact hfirst
  cases h with
  | word hstart =>
    apply hcons
    by_contra hblank
    rw [isWordStart_of_isBlank (Bool.eq_true_of_not_eq_false hblank)] at hstart
    exact Bool.false_ne_true hstart
  | number hne hdigits =>
    obtain ⟨first, others, rfl⟩ := List.exists_cons_of_ne_nil hne
    apply hcons
    by_contra hblank
    have hdigit := hdigits first List.mem_cons_self
    rw [isDigit_of_isBlank (Bool.eq_true_of_not_eq_false hblank)] at hdigit
    exact Bool.false_ne_true hdigit
  | string => exact hcons rfl
  | symbol hsymbol => exact hcons (isBlank_eq_false_of_ofSymbol? hsymbol)

/-- A space goes on with no token. -/
theorem Spelled.before_space (h : Spelled after (some kind) piece) (rest : List Char) :
    Spelled (' ' :: rest) (some kind) piece := by
  have hspace {class? : Char → Bool} (hclass : class? ' ' = false) :
      ∀ c ∈ (' ' :: rest).head?, class? c = false := by
    intro c hc
    rw [← Option.some.inj hc]
    exact hclass
  cases h with
  | word hstart hparts _ hkind => exact .word hstart hparts (hspace rfl) hkind
  | number hne hdigits _ => exact .number hne hdigits (hspace rfl)
  | string hinside => exact .string hinside
  | symbol hsymbol _ =>
    apply Spelled.symbol hsymbol
    intro _ hslash
    exact absurd (Option.some.inj hslash) (by decide)

theorem Spelled.space_before (h : Spelled after (some kind) piece) (rest : List Char) :
    Spelled (piece ++ rest) none [' '] := by
  apply Spelled.blanks (List.cons_ne_nil _ _)
  · intro c hc
    rw [List.mem_singleton.mp hc]
    rfl
  · exact h.head_not_blank rest

end Lexeme

namespace TokenStream

open Lexeme (Spelled)

/-- The source texts of the tokens. -/
def texts (source : Source) (stream : TokenStream) : List String :=
  stream.tokens.map fun token ↦ source.read token.span

/-- The text is spelled as the kind of the token says, and gives its value. -/
def IsTextOf (text : List Char) (token : Token) : Prop :=
  Spelled [] (some token.kind) text ∧ token.value = (Lexeme.mk (some token.kind) text []).value

theorem Tiling.isTextOf_read {source : Source} {stream : TokenStream}
    (hsize : source.size < UInt32.size) (h : Tiling [] source.chars stream) {token : Token}
    (htoken : token ∈ stream.tokens) : IsTextOf (source.read token.span).toList token := by
  obtain ⟨piece, after, hplaced, hspelled, hvalue⟩ := h.placed token htoken
  rw [hplaced.read_eq hsize, String.toList_ofList]
  exact ⟨hspelled.alone, hvalue⟩

/-- The stream at a token is the token and the stream behind it. -/
theorem scan_token {source : Source} {offset : Nat} {text after : List Char} {token : Token}
    {rest : TokenStream} (hspelled : Spelled after (some token.kind) text)
    (hvalue : token.value = (Lexeme.mk (some token.kind) text []).value)
    (hrest : scan source (offset + Text.byteSize text) after = .ok rest) :
    ∃ stream, scan source offset (text ++ after) = .ok stream ∧
      stream.toList.map Token.content = token.content :: rest.toList.map Token.content := by
  refine ⟨_, (scan_of_spelled source offset hspelled).trans (congrArg _ hrest), ?_⟩
  show (token.kind, (Lexeme.mk (some token.kind) text []).value) :: _ = _
  rw [← hvalue]
  rfl

theorem scan_space {source : Source} {offset : Nat} {text : List Char} {rest : TokenStream}
    (hspelled : Spelled text none [' '])
    (hrest : scan source (offset + Text.byteSize [' ']) text = .ok rest) :
    scan source offset (' ' :: text) = .ok rest :=
  (scan_of_spelled source offset hspelled).trans (congrArg _ hrest)

theorem exists_intercalate_cons (text : List Char) (others : List (List Char)) :
    ∃ behind, [' '].intercalate (text :: others) = text ++ behind := by
  cases others with
  | nil => exact ⟨[], by rw [List.intercalate_singleton, List.append_nil]⟩
  | cons => exact ⟨_, by rw [List.intercalate_cons_cons, List.append_assoc]⟩

/-- Texts of tokens with a space between two of them are cut into the tokens, in any source and at
any offset. -/
theorem scan_spaced {texts : List (List Char)} {tokens : List Token}
    (h : List.Forall₂ IsTextOf texts tokens) (source : Source) (offset : Nat) :
    ∃ stream, scan source offset ([' '].intercalate texts) = .ok stream ∧
      stream.toList.map Token.content = tokens.map Token.content ++ [(.eof, "EOF")] := by
  induction h generalizing offset with
  | nil =>
    exact ⟨.empty (source.position offset), by rw [List.intercalate_nil, scan], rfl⟩
  | @cons text token texts tokens hfirst hothers ih =>
    obtain ⟨hspelled, hvalue⟩ := hfirst
    cases hothers with
    | nil =>
      obtain ⟨rest, hrest, hcontents⟩ := ih (offset + Text.byteSize text)
      obtain ⟨stream, hstream, hall⟩ := scan_token hspelled hvalue hrest
      rw [List.append_nil] at hstream
      rw [List.intercalate_singleton]
      exact ⟨stream, hstream, hall.trans (congrArg _ hcontents)⟩
    | @cons next _ others _ hnext _ =>
      -- The space ends the first token, and the next one ends the space.
      obtain ⟨rest, hrest, hcontents⟩ := ih (offset + Text.byteSize text + Text.byteSize [' '])
      obtain ⟨behind, hbehind⟩ := exists_intercalate_cons next others
      have hspace := scan_space (hbehind ▸ hnext.1.space_before behind) hrest
      obtain ⟨stream, hstream, hall⟩ := scan_token (hspelled.before_space _) hvalue hspace
      rw [List.intercalate_cons_cons, List.append_assoc]
      exact ⟨stream, hstream, hall.trans (congrArg _ hcontents)⟩

end TokenStream

/-- The tokens of a source whose size fits in a word, written with single spaces between them, are
the tokens of what is written: every one is found again, with its kind and value, and nothing else
is. -/
theorem respacing_keeps_tokens {source : Source} {stream : TokenStream}
    (hsize : source.size < UInt32.size) (h : TokenStream.ofSource source = .ok stream)
    (name : String) :
    ∃ respaced,
      TokenStream.ofSource (.ofText name (" ".intercalate (stream.texts source))) = .ok respaced ∧
      respaced.toList.map Token.content = stream.toList.map Token.content := by
  have htiling := TokenStream.tiling_of_ofSource h
  have htexts : List.Forall₂ TokenStream.IsTextOf ((stream.texts source).map String.toList)
      stream.tokens := by
    unfold TokenStream.texts
    rw [List.map_map, List.forall₂_map_left_iff, List.forall₂_same]
    exact fun token htoken ↦ htiling.isTextOf_read hsize htoken
  obtain ⟨respaced, hscan, hcontents⟩ := TokenStream.scan_spaced htexts
    (.ofText name (" ".intercalate (stream.texts source))) 0
  have hchars : (Source.ofText name (" ".intercalate (stream.texts source))).chars =
      [' '].intercalate ((stream.texts source).map String.toList) := String.toList_intercalate
  refine ⟨respaced, ?_, ?_⟩
  · unfold TokenStream.ofSource
    rw [hchars]
    exact hscan
  · rw [hcontents, TokenStream.toList, List.map_append, htiling.eof_eq]
    rfl

/-- A string that holds a comment, a keyword and a line feed, slashes on both sides of a comment,
and a word that follows a number at once. -/
theorem respacing_keeps_tokens_slashes :
    ∃ source stream respaced,
      source = Source.ofText "" "let a=\"// let\n\"/b//c\n/2x" ∧
      source.size < UInt32.size ∧
      TokenStream.ofSource source = .ok stream ∧
      " ".intercalate (stream.texts source) = "let a = \"// let\n\" / b / 2 x" ∧
      TokenStream.ofSource (.ofText "" (" ".intercalate (stream.texts source))) = .ok respaced ∧
      respaced.toList.map Token.content = stream.toList.map Token.content := by
  obtain ⟨stream, hstream, htext⟩ : ∃ stream,
      TokenStream.ofSource (.ofText "" "let a=\"// let\n\"/b//c\n/2x") = .ok stream ∧
      " ".intercalate (stream.texts (.ofText "" "let a=\"// let\n\"/b//c\n/2x")) =
        "let a = \"// let\n\" / b / 2 x" :=
    exists_of_any (by decide +kernel)
  have hsize : (Source.ofText "" "let a=\"// let\n\"/b//c\n/2x").size < UInt32.size := by
    decide +kernel
  obtain ⟨respaced, hrespaced, hcontents⟩ := respacing_keeps_tokens hsize hstream ""
  exact ⟨_, stream, respaced, rfl, hsize, hstream, htext, hrespaced, hcontents⟩

end Presage
