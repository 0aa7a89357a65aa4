import Presage.Node.Cursor
import Presage.Node.Grammar
import Presage.Text.Integer

/-!
Reading expressions. An expression is an operand and the extensions that bind tighter than what
stands on its left. The forms are given the reader of the expressions inside them, so that
`expressionWithin` ties them together by recursion on a bound, and `expression` takes a bound that
is always enough: every form passes a token before it reads an expression inside.
-/

set_option autoImplicit false
set_option relaxedAutoImplicit false

namespace Presage.Parse

/-- An operand of one token. A number has to be one that 64 bits hold. -/
def primary : Parse Node := do
  let token ← current
  match token.kind with
  | .number =>
    if (Integer.read? token.value).isNone then
      throw ⟨.numberParse token.value, token.span.start⟩
    return .leaf .number (← advance).span
  | .string => return .leaf .string (← advance).span
  | .identifier => return .leaf .identifier (← advance).span
  | .kwTrue => return .leaf .truth (← advance).span
  | .kwFalse => return .leaf .falsity (← advance).span
  | _ => unexpected

/-- An expression in parentheses, from the opening one on. -/
def grouping (inner : BindingPower → Parse Node) : Parse Node := do
  let opening ← advance
  let expression ← inner .default
  let _ ← expect .closeParen
  return .parenthesized (← spanFrom opening.span.start) expression

def operand (inner : BindingPower → Parse Node) : OperandForm → Parse Node
  | .primary => primary
  | .grouping => grouping inner

/-- The rest of a binary expression, from the operator on. -/
def binary (inner : BindingPower → Parse Node) (power : BindingPower) (left : Node) :
    Parse Node := do
  let operator ← advance
  let right ← inner power
  return .binary ⟨left.span.start, right.span.stop⟩ left (.leaf .operator operator.span) right

/-- An argument, with the name of its parameter before it if it has an equals sign. -/
def argument (inner : BindingPower → Parse Node) : Parse Node := do
  let expression ← inner .default
  if expression.isIdentifier && (← kind) = .assignment then
    let _ ← advance
    let value ← inner .default
    return .keywordArgument (← spanFrom expression.span.start) expression value
  else return expression

/-- The rest of a call, from the opening parenthesis on. Only a name can be called. -/
def call (inner : BindingPower → Parse Node) (callee : Node) : Parse Node := do
  if !callee.isIdentifier then unexpectedBecause "only a name can be called"
  let _ ← advance
  let arguments ← closedItems (argument inner)
  return .call (← spanFrom callee.span.start) callee arguments

def extension (inner : BindingPower → Parse Node) (power : BindingPower) (left : Node) :
    ExtensionForm → Parse Node
  | .binary => binary inner power left
  | .call => call inner left

/-- Extends `left` while the current token binds tighter than `least`, at most `steps` times. -/
def extendAtMost (grammar : Grammar) (inner : BindingPower → Parse Node) (least : BindingPower) :
    Nat → Node → Parse Node
  | 0, _ => unexpected
  | steps + 1, left => do
    match grammar.extension (← kind) with
    | none => return left
    | some (power, form) =>
      if least.rank < power.rank then
        let longer ← extension inner power left form
        extendAtMost grammar inner least steps longer
      else return left

/-- An expression whose extensions bind tighter than `least`, with at most `depth` expressions
inside one another. -/
def expressionWithin (grammar : Grammar) : Nat → BindingPower → Parse Node
  | 0, _ => unexpected
  | depth + 1, least => do
    match grammar.operand (← kind) with
    | none => unexpected
    | some form =>
      let left ← operand (expressionWithin grammar depth) form
      extendAtMost grammar (expressionWithin grammar depth) least (← get).budget left

/-- An expression whose extensions bind tighter than `least`. -/
def expression (grammar : Grammar) (least : BindingPower) : Parse Node := fun cursor ↦
  expressionWithin grammar cursor.budget least cursor

end Presage.Parse
