import Presage.Compile

/-!
Folding without the bodies that are attached on the way. What a statement is folded to does not
depend on the bodies that functions have: `Statement.folded` gives it alone, and
`Statement.fold_fst` and `Program.fold_fst` say that folding gives the same in every state of the
bodies.
-/

set_option autoImplicit false
set_option relaxedAutoImplicit false

namespace Presage

mutual

/-- The statement with its expressions folded. -/
def Statement.folded : Statement → Statement
  | .functionDeclaration name function parameters body =>
    .functionDeclaration name function (parameters.map Parameter.fold) (Statement.foldedAll body)
  | .variableDeclaration target initializer => .variableDeclaration target initializer.fold
  | .variableReassignment target value => .variableReassignment target value.fold
  | .predictiveLoop iterator low high pattern body =>
    .predictiveLoop iterator low.fold high.fold pattern (Statement.foldedAll body)
  | .comparison left right => .comparison left.fold right.fold
  | .print value => .print value.fold
  | .returnValue value => .returnValue value.fold
  | .yieldValue value => .yieldValue value.fold
  | .call invocation => .call invocation.fold

def Statement.foldedAll : List Statement → List Statement
  | [] => []
  | statement :: rest => Statement.folded statement :: Statement.foldedAll rest

end

/-- The program with all its expressions folded. -/
def Program.folded (program : Program) : Program := ⟨Statement.foldedAll program.statements⟩

mutual

theorem Statement.fold_fst (owned : Bool) (bodies : Bodies) : ∀ statement : Statement,
    (statement.fold owned bodies).1 = statement.folded
  | .functionDeclaration name function parameters body => by
    simp only [Statement.fold, Statement.folded, Statement.foldAll_fst false bodies body]
  | .predictiveLoop iterator low high pattern body => by
    simp only [Statement.fold, Statement.folded, Statement.foldAll_fst owned bodies body]
  | .variableDeclaration _ _ => rfl
  | .variableReassignment _ _ => rfl
  | .comparison _ _ => rfl
  | .print _ => rfl
  | .returnValue _ => rfl
  | .yieldValue _ => rfl
  | .call _ => rfl

theorem Statement.foldAll_fst (owned : Bool) (bodies : Bodies) : ∀ statements : List Statement,
    (Statement.foldAll owned bodies statements).1 = Statement.foldedAll statements
  | [] => rfl
  | statement :: rest => by
    simp only [Statement.foldAll, Statement.foldedAll, Statement.fold_fst owned bodies statement,
      Statement.foldAll_fst owned _ rest]

end

@[simp] theorem Program.fold_fst (program : Program) (bodies : Bodies) :
    (program.fold bodies).1 = program.folded := by
  simp only [Program.fold, Program.folded, Statement.foldAll_fst]

/-- The program of a source is what its tree is analysed to, folded or not. -/
theorem Source.program_eq (source : Source) (folded : Bool) :
    source.program folded = do
      let program ← Program.ofNode source (← source.tree)
      return if folded then program.folded else program := by
  unfold Source.program Source.build Program.ofNode
  cases source.tree with
  | error cause => rfl
  | ok tree =>
    simp only [bind, Except.bind]
    cases Analysis.program source .initial tree with
    | error cause => rfl
    | ok result =>
      cases folded with
      | false => rfl
      | true => exact congrArg Except.ok (Program.fold_fst result.1 result.2.bodies)

end Presage
