import Presage.Source.Basic

/-!
Parse trees. A node carries the span of the text it was read from, and the words and signs that
matter are leaves whose text is read back from the source. The type does not fix which nodes may
stand where: a tree that came from a text follows the grammar, and one made by hand need not.
-/

set_option autoImplicit false
set_option relaxedAutoImplicit false

namespace Presage

/-- What a leaf of a parse tree stands for. -/
inductive LeafKind where
  | number
  | string
  | truth
  | falsity
  | identifier
  | operator
deriving DecidableEq

def LeafKind.name : LeafKind → String
  | number => "Number"
  | string => "String"
  | truth => "True"
  | falsity => "False"
  | identifier => "Identifier"
  | operator => "Operator"

inductive Node where
  | program (span : Span) (statements : List Node)
  | functionDefinition (span : Span) (name : Node) (parameters body : List Node)
  | predictiveLoop (span : Span) (iterator low high pattern : Node) (body : List Node)
  | comparisonStatement (span : Span) (left right : Node)
  | printStatement (span : Span) (expression : Node)
  | returnStatement (span : Span) (expression : Node)
  | yieldStatement (span : Span) (expression : Node)
  | variableDeclaration (span : Span) (name initializer : Node)
  | variableReassignment (span : Span) (name value : Node)
  | parameter (span : Span) (name : Node) (default? : Option Node)
  | keywordArgument (span : Span) (name value : Node)
  | call (span : Span) (callee : Node) (arguments : List Node)
  | binary (span : Span) (left operator right : Node)
  | parenthesized (span : Span) (expression : Node)
  | leaf (kind : LeafKind) (span : Span)

namespace Node

def span : Node → Span
  | program span _ | functionDefinition span _ _ _ | predictiveLoop span _ _ _ _ _
  | comparisonStatement span _ _ | printStatement span _ | returnStatement span _
  | yieldStatement span _ | variableDeclaration span _ _ | variableReassignment span _ _
  | parameter span _ _ | keywordArgument span _ _ | call span _ _ | binary span _ _ _
  | parenthesized span _ | leaf _ span => span

def kindName : Node → String
  | program _ _ => "Program"
  | functionDefinition _ _ _ _ => "FunctionDefinition"
  | predictiveLoop _ _ _ _ _ _ => "PredictiveLoop"
  | comparisonStatement _ _ _ => "ComparisonStatement"
  | printStatement _ _ => "PrintStatement"
  | returnStatement _ _ => "ReturnStatement"
  | yieldStatement _ _ => "YieldStatement"
  | variableDeclaration _ _ _ => "VariableDeclaration"
  | variableReassignment _ _ _ => "VariableReassignment"
  | parameter _ _ _ => "Parameter"
  | keywordArgument _ _ _ => "KeywordArgument"
  | call _ _ _ => "Call"
  | binary _ _ _ _ => "Binary"
  | parenthesized _ _ => "Parenthesized"
  | leaf kind _ => kind.name

/-- The direct children of a node, in the order of the text. -/
def children : Node → List Node
  | program _ statements => statements
  | functionDefinition _ name parameters body => name :: (parameters ++ body)
  | predictiveLoop _ iterator low high pattern body => iterator :: low :: high :: pattern :: body
  | comparisonStatement _ left right => [left, right]
  | printStatement _ expression | returnStatement _ expression | yieldStatement _ expression
  | parenthesized _ expression => [expression]
  | variableDeclaration _ name initializer => [name, initializer]
  | variableReassignment _ name value | keywordArgument _ name value => [name, value]
  | parameter _ name default? => name :: default?.toList
  | call _ callee arguments => callee :: arguments
  | binary _ left operator right => [left, operator, right]
  | leaf _ _ => []

/-- The text a node was read from. -/
def text (source : Source) (node : Node) : String := source.read node.span

def isIdentifier : Node → Bool
  | leaf .identifier _ => true
  | _ => false

end Node

end Presage
