import Presage.Diagnostic
import Presage.Node.Basic
import Presage.Token.Basic

/-!
Reading a token stream. A cursor stands in a stream with the token it last passed and the tokens
ahead of it; past the last of them it keeps showing the token that ends the stream. A `Parse` moves
a cursor and gives a result or a diagnostic, and in both cases the cursor where it stopped.
-/

set_option autoImplicit false
set_option relaxedAutoImplicit false

namespace Presage

/-- A place in a token stream. Only the token past the last one ahead marks an end. -/
@[ext] structure Cursor where
  passed? : Option Token
  ahead : List Token
  eof : Token
  ahead_ne_eof : ∀ token ∈ ahead, token.kind ≠ .eof
  eof_kind : eof.kind = .eof

namespace Cursor

/-- The place before the first token of a stream. -/
def start (stream : TokenStream) : Cursor :=
  ⟨none, stream.tokens, stream.eof, stream.tokens_ne_eof, stream.eof_kind⟩

def current (cursor : Cursor) : Token := cursor.ahead.head?.getD cursor.eof

/-- Where the current token starts. -/
def position (cursor : Cursor) : Position := cursor.current.span.start

/-- Where the token that was passed last ends, or where the current one starts if none was. -/
def passedEnd (cursor : Cursor) : Position :=
  match cursor.passed? with
  | none => cursor.position
  | some token => token.span.stop

/-- The place behind the current token; the end of the stream is never passed. -/
def next (cursor : Cursor) : Cursor :=
  match hahead : cursor.ahead with
  | [] => cursor
  | token :: rest =>
    ⟨some token, rest, cursor.eof,
      fun other hother ↦ cursor.ahead_ne_eof other (hahead ▸ List.mem_cons_of_mem token hother),
      cursor.eof_kind⟩

theorem next_of_nil {cursor : Cursor} (h : cursor.ahead = []) : cursor.next = cursor := by
  unfold next
  split
  · rfl
  · rename_i hahead
    cases h.symm.trans hahead

theorem passed?_next {cursor : Cursor} {token : Token} {rest : List Token}
    (h : cursor.ahead = token :: rest) : cursor.next.passed? = some token := by
  unfold next
  split
  · rename_i hahead
    cases h.symm.trans hahead
  · rename_i hahead
    cases h.symm.trans hahead
    rfl

@[simp] theorem ahead_next (cursor : Cursor) : cursor.next.ahead = cursor.ahead.tail := by
  unfold next
  split
  · rename_i hahead
    exact hahead.trans (congrArg List.tail hahead).symm
  · rename_i hahead
    exact (congrArg List.tail hahead).symm

@[simp] theorem eof_next (cursor : Cursor) : cursor.next.eof = cursor.eof := by
  unfold next
  split <;> rfl

/-- Tokens are left before the end of the stream. -/
def hasTokens (cursor : Cursor) : Bool := !cursor.ahead.isEmpty

/-- The span from `start` to the end of the token that was passed last. -/
def spanFrom (cursor : Cursor) (start : Position) : Span := ⟨start, cursor.passedEnd⟩

/-- More steps than there are tokens ahead: enough for every repetition that passes a token each
time, and for every recursion that passes a token before it recurs. -/
def budget (cursor : Cursor) : Nat := cursor.ahead.length + 1

end Cursor

/-- A reader of a token stream. -/
abbrev Parse (α : Type) := EStateM Diagnostic Cursor α

namespace Parse

variable {α : Type}

def current : Parse Token := fun cursor ↦ .ok cursor.current cursor

def kind : Parse TokenKind := fun cursor ↦ .ok cursor.current.kind cursor

def spanFrom (start : Position) : Parse Span := fun cursor ↦ .ok (cursor.spanFrom start) cursor

/-- Passes the current token and gives it. -/
def advance : Parse Token := fun cursor ↦ .ok cursor.current cursor.next

/-- Fails at the current token. -/
def unexpected : Parse α := fun cursor ↦
  .error ⟨.unexpectedToken cursor.current.value, cursor.position⟩ cursor

/-- Fails at the current token with a remark on what was expected. -/
def unexpectedBecause (message : String) : Parse α := fun cursor ↦
  .error ⟨.unexpectedTokenDetailed cursor.current.value message, cursor.position⟩ cursor

/-- Passes a token of the given kind; any other is dealt with by `otherwise`. -/
def expectOr (otherwise : Parse Token) (expected : TokenKind) : Parse Token := do
  if (← kind) = expected then advance else otherwise

/-- Passes a token of the given kind and fails at any other. -/
def expect (expected : TokenKind) : Parse Token := expectOr unexpected expected

/-- Passes an identifier and gives its leaf. -/
def expectIdentifier (message : String) : Parse Node := do
  return .leaf .identifier (← expectOr (unexpectedBecause message) .identifier).span

/-- Runs `item` as long as the cursor satisfies `continues`, at most `steps` times. -/
def whileAtMost (continues : Cursor → Bool) (item : Parse α) : Nat → Parse (List α)
  | 0 => unexpected
  | steps + 1 => do
    if continues (← get) then
      let first ← item
      let rest ← whileAtMost continues item steps
      return first :: rest
    else return []

/-- Runs `item` as long as the cursor satisfies `continues`. -/
def repeatWhile (continues : Cursor → Bool) (item : Parse α) : Parse (List α) := fun cursor ↦
  whileAtMost continues item cursor.budget cursor

/-- Items with commas between them, at most `steps` of them, up to a closing parenthesis; the last
may have a comma too. -/
def itemsAtMost (item : Parse α) : Nat → Parse (List α)
  | 0 => unexpected
  | steps + 1 => do
    if (← kind) = .closeParen then return []
    let first ← item
    if (← kind) = .comma then
      let _ ← advance
      let rest ← itemsAtMost item steps
      return first :: rest
    else return [first]

/-- Items with commas between them and the parenthesis that closes them. -/
def closedItems (item : Parse α) : Parse (List α) := do
  let items ← itemsAtMost item (← get).budget
  let _ ← expect .closeParen
  return items

end Parse

end Presage
