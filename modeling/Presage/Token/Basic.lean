import Presage.Source.Position

/-!
Tokens. A kind is fixed by the reserved word or the symbol it is written as, except for numbers,
strings, identifiers and the end of the text; `ofWord` and `ofSymbol?` classify the written forms.
-/

set_option autoImplicit false
set_option relaxedAutoImplicit false

namespace Presage

inductive TokenKind where
  | eof
  | number
  | string
  | identifier
  | openCurly
  | closeCurly
  | openParen
  | closeParen
  | assignment
  | comma
  | plus
  | dash
  | slash
  | star
  | kwDefine
  | kwThen
  | kwFor
  | kwIn
  | kwPredictiveRange
  | kwCompare
  | kwTo
  | kwPrint
  | kwReturn
  | kwYield
  | kwLet
  | kwTrue
  | kwFalse
  | kwAnd
  | kwOr
deriving DecidableEq, Inhabited

namespace TokenKind

/-- Every kind, in the order in which tables of kinds are listed. -/
def all : List TokenKind :=
  [eof, number, string, identifier, openCurly, closeCurly, openParen, closeParen, assignment, comma,
    plus, dash, slash, star, kwDefine, kwThen, kwFor, kwIn, kwPredictiveRange, kwCompare, kwTo,
    kwPrint, kwReturn, kwYield, kwLet, kwTrue, kwFalse, kwAnd, kwOr]

def name : TokenKind → String
  | eof => "EOF"
  | number => "Number"
  | string => "String"
  | identifier => "Identifier"
  | openCurly => "OpenCurly"
  | closeCurly => "CloseCurly"
  | openParen => "OpenParen"
  | closeParen => "CloseParen"
  | assignment => "Assignment"
  | comma => "Comma"
  | plus => "Plus"
  | dash => "Dash"
  | slash => "Slash"
  | star => "Star"
  | kwDefine => "Define"
  | kwThen => "Then"
  | kwFor => "For"
  | kwIn => "In"
  | kwPredictiveRange => "PredictiveRange"
  | kwCompare => "Compare"
  | kwTo => "To"
  | kwPrint => "Print"
  | kwReturn => "Return"
  | kwYield => "Yield"
  | kwLet => "Let"
  | kwTrue => "True"
  | kwFalse => "False"
  | kwAnd => "And"
  | kwOr => "Or"

/-- The reserved words with their kinds. -/
def reserved : List (String × TokenKind) :=
  [("define", kwDefine), ("then", kwThen), ("for", kwFor), ("in", kwIn),
    ("predictive_range", kwPredictiveRange), ("compare", kwCompare), ("to", kwTo),
    ("print", kwPrint), ("return", kwReturn), ("yield", kwYield), ("let", kwLet),
    ("true", kwTrue), ("false", kwFalse), ("and", kwAnd), ("or", kwOr)]

/-- The kind of a word: that of the reserved word it is, or else an identifier. -/
def ofWord (word : String) : TokenKind := (reserved.lookup word).getD identifier

/-- The kind of a token that is one symbol. -/
def ofSymbol? : Char → Option TokenKind
  | '\x7b' => some openCurly
  | '\x7d' => some closeCurly
  | '(' => some openParen
  | ')' => some closeParen
  | '=' => some assignment
  | ',' => some comma
  | '+' => some plus
  | '-' => some dash
  | '/' => some slash
  | '*' => some star
  | _ => none

theorem ofWord_ne_eof (word : String) : ofWord word ≠ eof := by
  have hreserved : ∀ entry ∈ reserved, entry.2 ≠ eof := by decide
  unfold ofWord
  cases hlookup : reserved.lookup word with
  | none => simp
  | some kind =>
    obtain ⟨before, after, hsplit, -⟩ := List.lookup_eq_some_iff.mp hlookup
    exact hreserved (word, kind) (hsplit ▸ List.mem_append_right before List.mem_cons_self)

theorem ne_eof_of_ofSymbol? {c : Char} {kind : TokenKind} (h : ofSymbol? c = some kind) :
    kind ≠ eof := by
  rintro rfl
  unfold ofSymbol? at h
  split at h <;> simp at h

end TokenKind

/-- A token. Its value is its text, without the quotes if it is a string. -/
structure Token where
  kind : TokenKind
  value : String
  span : Span
deriving DecidableEq, Inhabited

namespace Token

/-- The token that ends every stream. -/
def endOfText (position : Position) : Token := ⟨.eof, "EOF", ⟨position, position⟩⟩

/-- The kind, with the value where the kind does not determine it. -/
def label (token : Token) : String :=
  match token.kind with
  | .string | .identifier | .number => token.kind.name ++ " (" ++ token.value ++ ")"
  | kind => kind.name

/-- The label after the line and column at which the token starts. -/
def placedLabel (token : Token) : String :=
  token.span.start.line.repr ++ ":" ++ token.span.start.column.repr ++ " " ++ token.label

end Token

/-- The tokens of a text and the token that marks its end, which is the only one of its kind. -/
structure TokenStream where
  tokens : List Token
  eof : Token
  tokens_ne_eof : ∀ token ∈ tokens, token.kind ≠ .eof
  eof_kind : eof.kind = .eof

namespace TokenStream

/-- The stream of a text without tokens that ends at `position`. -/
def empty (position : Position) : TokenStream := ⟨[], .endOfText position, nofun, rfl⟩

/-- A stream with one more token at its head. -/
def cons (token : Token) (htoken : token.kind ≠ .eof) (stream : TokenStream) : TokenStream :=
  ⟨token :: stream.tokens, stream.eof, List.forall_mem_cons.mpr ⟨htoken, stream.tokens_ne_eof⟩,
    stream.eof_kind⟩

/-- All tokens of a stream, the one that marks the end last. -/
def toList (stream : TokenStream) : List Token := stream.tokens ++ [stream.eof]

end TokenStream

end Presage
