import Presage.Node.Expression

/-!
Reading statements. A statement starts with a word of its own, or is a reassignment or a call. The
body of a function has no closing mark: it goes on while statements start on the line of `then` or
to the right of `define`. `Node.ofTokens` reads a whole program.
-/

set_option autoImplicit false
set_option relaxedAutoImplicit false

namespace Presage

namespace Parse

/-- `let name = initializer` -/
def variableDeclaration (grammar : Grammar) : Parse Node := do
  let opening ← advance
  let name ← expectIdentifier "expected identifier during variable declaration"
  let _ ← expect .assignment
  let initializer ← expression grammar .default
  return .variableDeclaration (← spanFrom opening.span.start) name initializer

/-- A parameter name, with a default if it has an equals sign. -/
def parameter (grammar : Grammar) : Parse Node := do
  let name ← expectIdentifier "expected parameter name"
  if (← kind) = .assignment then
    let _ ← advance
    let default ← expression grammar .default
    return .parameter (← spanFrom name.span.start) name (some default)
  else return .parameter (← spanFrom name.span.start) name none

/-- The offside rule: the current token belongs to the body of the function opened by `define` and
`then` when it is on the line of the latter or to the right of the former. -/
def inBody (defineToken thenToken : Token) (cursor : Cursor) : Bool :=
  cursor.hasTokens && cursor.current.kind != .closeCurly &&
    (cursor.position.line == thenToken.span.start.line ||
      defineToken.span.start.column < cursor.position.column)

/-- `define name(parameters) then body` -/
def functionDefinition (grammar : Grammar) (inner : Parse Node) : Parse Node := do
  let defineToken ← advance
  let name ← expectIdentifier "expected function name"
  let _ ← expect .openParen
  let parameters ← closedItems (parameter grammar)
  let thenToken ← expect .kwThen
  let body ← repeatWhile (inBody defineToken thenToken) inner
  if body.isEmpty then unexpectedBecause "expected a function body"
  return .functionDefinition (← spanFrom defineToken.span.start) name parameters body

/-- `for variable in predictive_range(low, high, pattern) { body }` -/
def predictiveLoop (grammar : Grammar) (inner : Parse Node) : Parse Node := do
  let opening ← advance
  let iterator ← expectIdentifier "expected loop variable"
  let _ ← expect .kwIn
  let _ ← expect .kwPredictiveRange
  let _ ← expect .openParen
  let low ← expression grammar .default
  let _ ← expect .comma
  let high ← expression grammar .default
  let _ ← expect .comma
  let pattern ← expectIdentifier "expected pattern name"
  let _ ← expect .closeParen
  let _ ← expect .openCurly
  let body ← repeatWhile (fun cursor ↦ cursor.current.kind != .closeCurly) inner
  let _ ← expect .closeCurly
  return .predictiveLoop (← spanFrom opening.span.start) iterator low high pattern body

/-- `compare left to right` -/
def comparison (grammar : Grammar) : Parse Node := do
  let opening ← advance
  let left ← expression grammar .default
  let _ ← expect .kwTo
  let right ← expression grammar .default
  return .comparisonStatement (← spanFrom opening.span.start) left right

/-- A word and an expression, put together by `build`. -/
def wordAndExpression (grammar : Grammar) (build : Span → Node → Node) : Parse Node := do
  let opening ← advance
  let value ← expression grammar .default
  return build (← spanFrom opening.span.start) value

/-- A statement of a given form; `inner` reads the statements inside it. -/
def statementForm (grammar : Grammar) (inner : Parse Node) : StatementForm → Parse Node
  | .variableDeclaration => variableDeclaration grammar
  | .functionDefinition => functionDefinition grammar inner
  | .predictiveLoop => predictiveLoop grammar inner
  | .comparison => comparison grammar
  | .print => wordAndExpression grammar .printStatement
  | .returnValue => wordAndExpression grammar .returnStatement
  | .yieldValue => wordAndExpression grammar .yieldStatement

/-- `name = value`, or a call. -/
def simpleStatement (grammar : Grammar) : Parse Node := do
  if (← kind) ≠ .identifier then unexpectedBecause "expected a statement"
  let first ← expression grammar .default
  match first with
  | .leaf .identifier _ =>
    if (← kind) = .assignment then
      let _ ← advance
      let value ← expression grammar .default
      return .variableReassignment (← spanFrom first.span.start) first value
    else unexpectedBecause "expected a statement"
  | .call _ _ _ => return first
  | _ => unexpectedBecause "expected a statement"

/-- A statement with at most `depth` statements inside one another. -/
def statementWithin (grammar : Grammar) : Nat → Parse Node
  | 0 => unexpected
  | depth + 1 => do
    match grammar.statement (← kind) with
    | some form => statementForm grammar (statementWithin grammar depth) form
    | none => simpleStatement grammar

def statement (grammar : Grammar) : Parse Node := fun cursor ↦
  statementWithin grammar cursor.budget cursor

/-- The statements up to the end of the stream. -/
def statements (grammar : Grammar) : Parse (List Node) :=
  repeatWhile Cursor.hasTokens (statement grammar)

end Parse

/-- The program that a token stream is. Its span is the whole text. -/
def Node.ofTokens (stream : TokenStream) : Except Diagnostic Node :=
  match Parse.statements .standard (Cursor.start stream) with
  | .ok statements _ => .ok (.program ⟨Position.start, stream.eof.span.stop⟩ statements)
  | .error diagnostic _ => .error diagnostic

end Presage
