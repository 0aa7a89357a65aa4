import Presage.Diagnostic
import Presage.Token.Lexeme

/-!
From a text to its tokens: the text is cut into lexemes from its head on, and every lexeme with a
kind becomes a token, placed where the source has the offsets of its two ends. The first character
that starts no lexeme is reported.
-/

set_option autoImplicit false
set_option relaxedAutoImplicit false

namespace Presage.TokenStream

/-- Puts the token of a lexeme that fills `span` at the head of a stream. -/
def push (lexeme : Lexeme) (hlexeme : lexeme.kind? ≠ some .eof) (span : Span)
    (stream : TokenStream) : TokenStream :=
  match hkind : lexeme.kind? with
  | none => stream
  | some kind =>
    stream.cons ⟨kind, lexeme.value, span⟩ fun heof ↦ hlexeme (hkind.trans (congrArg some heof))

/-- The tokens of the part of a source that starts at `offset`. -/
def scan (source : Source) (offset : Nat) : List Char → Except Diagnostic TokenStream
  | [] => .ok (.empty (source.position offset))
  | c :: rest =>
    match h : Lexeme.next? (c :: rest) with
    | none => .error ⟨.unrecognisedToken (String.singleton c), source.position offset⟩
    | some lexeme =>
      let stop := offset + Text.byteSize lexeme.text
      have := Lexeme.length_rest_lt h
      (scan source stop lexeme.rest).map
        (push lexeme (Lexeme.kind?_ne_eof h) ⟨source.position offset, source.position stop⟩)
termination_by text => text.length
decreasing_by exact this

/-- The tokens of a source. -/
def ofSource (source : Source) : Except Diagnostic TokenStream := scan source 0 source.chars

end Presage.TokenStream
