import Presage.Token.Basic

/-!
Grammars as tables. A grammar says for each kind of token how it starts a statement, how it starts
an expression, and how tightly and in which form it extends the expression on its left. `standard`
is the grammar of the language.
-/

set_option autoImplicit false
set_option relaxedAutoImplicit false

namespace Presage

/-- How tightly an operator holds the expression on its left. -/
inductive BindingPower where
  | default
  | logical
  | additive
  | multiplicative
  | call
  | primary
deriving DecidableEq

namespace BindingPower

def all : List BindingPower := [default, logical, additive, multiplicative, call, primary]

def name : BindingPower → String
  | default => "Default"
  | logical => "Logical"
  | additive => "Additive"
  | multiplicative => "Multiplicative"
  | call => "Call"
  | primary => "Primary"

/-- The rank of a power; a greater rank binds tighter. -/
def rank : BindingPower → Nat
  | default => 0
  | logical => 1
  | additive => 2
  | multiplicative => 3
  | call => 4
  | primary => 5

end BindingPower

/-- How a token starts an expression: as an operand of its own, or as an opening parenthesis. -/
inductive OperandForm where
  | primary
  | grouping
deriving DecidableEq

/-- How a token extends the expression on its left: with a right operand, or with arguments. -/
inductive ExtensionForm where
  | binary
  | call
deriving DecidableEq

/-- The statements that start with a word of their own. -/
inductive StatementForm where
  | variableDeclaration
  | functionDefinition
  | predictiveLoop
  | comparison
  | print
  | returnValue
  | yieldValue
deriving DecidableEq

/-- What each kind of token starts or extends. -/
structure Grammar where
  statement : TokenKind → Option StatementForm
  operand : TokenKind → Option OperandForm
  extension : TokenKind → Option (BindingPower × ExtensionForm)

namespace Grammar

/-- The grammar in which no token starts or extends anything. -/
def empty : Grammar := ⟨fun _ ↦ none, fun _ ↦ none, fun _ ↦ none⟩

def withStatement (grammar : Grammar) (kind : TokenKind) (form : StatementForm) : Grammar :=
  { grammar with
    statement := fun other ↦ if other = kind then some form else grammar.statement other }

def withOperand (grammar : Grammar) (kind : TokenKind) (form : OperandForm) : Grammar :=
  { grammar with operand := fun other ↦ if other = kind then some form else grammar.operand other }

def withExtension (grammar : Grammar) (kind : TokenKind) (power : BindingPower)
    (form : ExtensionForm) : Grammar :=
  { grammar with
    extension := fun other ↦ if other = kind then some (power, form) else grammar.extension other }

/-- How tightly a kind of token extends what is on its left; the least power if it does not. -/
def power (grammar : Grammar) (kind : TokenKind) : BindingPower :=
  match grammar.extension kind with
  | some (power, _) => power
  | none => .default

/-- Adds the tokens of the language to a grammar, in place of what it had for them. -/
def withStandard (grammar : Grammar) : Grammar where
  statement
    | .kwDefine => some .functionDefinition
    | .kwFor => some .predictiveLoop
    | .kwCompare => some .comparison
    | .kwPrint => some .print
    | .kwReturn => some .returnValue
    | .kwYield => some .yieldValue
    | .kwLet => some .variableDeclaration
    | other => grammar.statement other
  operand
    | .number | .string | .identifier | .kwTrue | .kwFalse => some .primary
    | .openParen => some .grouping
    | other => grammar.operand other
  extension
    | .kwAnd | .kwOr => some (.logical, .binary)
    | .plus | .dash => some (.additive, .binary)
    | .star | .slash => some (.multiplicative, .binary)
    | .openParen => some (.call, .call)
    | other => grammar.extension other

/-- The grammar of the language. -/
def standard : Grammar := empty.withStandard

end Grammar

end Presage
