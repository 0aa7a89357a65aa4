import Presage.Node.Basic

/-!
Parse trees in writing. `preorder` lists the nodes of a tree with their depths, a node before its
children, and `outline` writes one line for each: its kind, and for a leaf also its text.
-/

set_option autoImplicit false
set_option relaxedAutoImplicit false

namespace Presage.Node

mutual

/-- The nodes of a tree with their depths, every node before its children. -/
def preorder (depth : Nat) (node : Node) : List (Nat × Node) :=
  (depth, node) ::
    match node with
    | program _ statements => preorderAll (depth + 1) statements
    | functionDefinition _ name parameters body =>
      preorder (depth + 1) name ++ preorderAll (depth + 1) parameters
        ++ preorderAll (depth + 1) body
    | predictiveLoop _ iterator low high pattern body =>
      preorder (depth + 1) iterator ++ preorder (depth + 1) low ++ preorder (depth + 1) high
        ++ preorder (depth + 1) pattern ++ preorderAll (depth + 1) body
    | comparisonStatement _ left right => preorder (depth + 1) left ++ preorder (depth + 1) right
    | printStatement _ expression => preorder (depth + 1) expression
    | returnStatement _ expression => preorder (depth + 1) expression
    | yieldStatement _ expression => preorder (depth + 1) expression
    | variableDeclaration _ name initializer =>
      preorder (depth + 1) name ++ preorder (depth + 1) initializer
    | variableReassignment _ name value => preorder (depth + 1) name ++ preorder (depth + 1) value
    | parameter _ name none => preorder (depth + 1) name
    | parameter _ name (some default) => preorder (depth + 1) name ++ preorder (depth + 1) default
    | keywordArgument _ name value => preorder (depth + 1) name ++ preorder (depth + 1) value
    | call _ callee arguments => preorder (depth + 1) callee ++ preorderAll (depth + 1) arguments
    | binary _ left operator right =>
      preorder (depth + 1) left ++ preorder (depth + 1) operator ++ preorder (depth + 1) right
    | parenthesized _ expression => preorder (depth + 1) expression
    | leaf _ _ => []

def preorderAll (depth : Nat) : List Node → List (Nat × Node)
  | [] => []
  | node :: rest => preorder depth node ++ preorderAll depth rest

end

/-- One line of an outline, two spaces deeper for every level. -/
def outlineLine (source : Source) (depth : Nat) (node : Node) : String :=
  String.ofList (List.replicate (2 * depth) ' ') ++
    match node with
    | leaf kind span => kind.name ++ " " ++ source.read span ++ "\n"
    | other => other.kindName ++ "\n"

/-- The nodes of a tree in preorder, one to a line. -/
def outline (source : Source) (node : Node) : String :=
  String.join ((node.preorder 0).map fun (depth, inner) ↦ outlineLine source depth inner)

end Presage.Node
