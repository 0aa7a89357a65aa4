import Presage.Text.Blank
import Presage.Token.Basic

/-!
Lexemes: the pieces a text is cut into. `Lexeme.next?` takes the longest word, number, blank or
comment at the head of a text, or a string up to its closing quote, or one symbol. It loses nothing
(`text_append_rest`), always takes something (`length_rest_lt`), and is never taken for the end of
the text (`kind?_ne_eof`).
-/

set_option autoImplicit false
set_option relaxedAutoImplicit false

namespace Presage

/-- A piece at the head of a text and what follows it. Blanks and comments have no kind. -/
structure Lexeme where
  kind? : Option TokenKind
  text : List Char
  rest : List Char

namespace Lexeme

def isWordStart (c : Char) : Bool := c.isAlpha || c == '_'

def isWordPart (c : Char) : Bool := c.isAlphanum || c == '_'

/-- Cuts a text before its first character outside a class. -/
def run (class? : Char → Bool) (kindOf : List Char → Option TokenKind) (text : List Char) :
    Lexeme :=
  ⟨kindOf (text.takeWhile class?), text.takeWhile class?, text.dropWhile class?⟩

/-- The lexeme at the head of a text. A string needs its closing quote. -/
def next? : List Char → Option Lexeme
  | [] => none
  | c :: rest =>
    if isWordStart c then
      some (run isWordPart (fun word ↦ some (.ofWord (String.ofList word))) (c :: rest))
    else if c.isDigit then some (run Char.isDigit (fun _ ↦ some .number) (c :: rest))
    else if Text.isBlank c then some (run Text.isBlank (fun _ ↦ none) (c :: rest))
    else if c = '\"' then
      match rest.dropWhile (· != '\"') with
      | [] => none
      | closing :: after =>
        some ⟨some .string, c :: (rest.takeWhile (· != '\"') ++ [closing]), after⟩
    else if c = '/' ∧ rest.head? = some '/' then some (run (· != '\n') (fun _ ↦ none) (c :: rest))
    else (TokenKind.ofSymbol? c).map fun kind ↦ ⟨some kind, [c], rest⟩

/-- What a token of this lexeme carries: the text, or the inside of a string. -/
def value (lexeme : Lexeme) : String :=
  if lexeme.kind? = some .string then String.ofList lexeme.text.tail.dropLast
  else String.ofList lexeme.text

theorem text_append_rest {text : List Char} {lexeme : Lexeme} (h : next? text = some lexeme) :
    lexeme.text ++ lexeme.rest = text := by
  cases text with
  | nil => simp [next?] at h
  | cons c rest =>
    simp only [next?] at h
    split at h
    · cases h; simp [run]
    split at h
    · cases h; simp [run]
    split at h
    · cases h; simp [run]
    split at h
    · split at h
      · simp at h
      · next closing after hafter =>
        cases h
        have := List.takeWhile_append_dropWhile (p := (· != '\"')) (l := rest)
        simp only [hafter] at this
        simpa using this
    split at h
    · cases h; simp [run]
    · obtain ⟨kind, _, rfl⟩ := Option.map_eq_some_iff.mp h
      rfl

theorem length_run_rest_lt {class? : Char → Bool} {kindOf : List Char → Option TokenKind} {c : Char}
    (hc : class? c = true) (rest : List Char) :
    (run class? kindOf (c :: rest)).rest.length < (c :: rest).length := by
  simp only [run, List.dropWhile_cons, hc, ↓reduceIte, List.length_cons]
  exact Nat.lt_succ_of_le (List.dropWhile_sublist _).length_le

theorem length_rest_lt {text : List Char} {lexeme : Lexeme} (h : next? text = some lexeme) :
    lexeme.rest.length < text.length := by
  cases text with
  | nil => simp [next?] at h
  | cons c rest =>
    simp only [next?] at h
    split at h
    · next hword =>
      cases h
      refine length_run_rest_lt ?_ rest
      simp only [isWordStart, isWordPart, Char.isAlphanum, Bool.or_eq_true] at hword ⊢
      exact hword.imp_left Or.inl
    split at h
    · next hdigit => cases h; exact length_run_rest_lt hdigit rest
    split at h
    · next hblank => cases h; exact length_run_rest_lt hblank rest
    split at h
    · split at h
      · simp at h
      · next closing after hafter =>
        cases h
        have := (List.dropWhile_sublist (· != '\"') (l := rest)).length_le
        simp only [hafter, List.length_cons] at this ⊢
        omega
    split at h
    · next hcomment =>
      cases h
      refine length_run_rest_lt ?_ rest
      simp [hcomment.1]
    · obtain ⟨kind, _, rfl⟩ := Option.map_eq_some_iff.mp h
      simp

theorem kind?_ne_eof {text : List Char} {lexeme : Lexeme} (h : next? text = some lexeme) :
    lexeme.kind? ≠ some .eof := by
  cases text with
  | nil => simp [next?] at h
  | cons c rest =>
    simp only [next?] at h
    split at h
    · cases h
      exact fun heof ↦ TokenKind.ofWord_ne_eof _ (Option.some.inj heof)
    split at h
    · cases h; simp [run]
    split at h
    · cases h; simp [run]
    split at h
    · split at h
      · simp at h
      · cases h; simp
    split at h
    · cases h; simp [run]
    · obtain ⟨kind, hkind, rfl⟩ := Option.map_eq_some_iff.mp h
      exact fun heof ↦ TokenKind.ne_eof_of_ofSymbol? hkind (Option.some.inj heof)

end Lexeme

end Presage
