import Presage.Program.Bodies
import Presage.Text.Integer

/-!
Constant folding. Operations on two literals are replaced by their result, from the inside out:
integer arithmetic whose result 64 bits hold, division only where it leaves no remainder, the
joining of strings, and the logic of booleans. Everything else of a program stays as it is. The
bodies of functions are built anew and attached to them.
-/

set_option autoImplicit false
set_option relaxedAutoImplicit false

namespace Presage

/-- The result of integer arithmetic, if it is an integer of 64 bits. -/
def foldIntegers (operator : String) (left right : Int) : Option Int :=
  if operator = "+" then Integer.fit? (left + right)
  else if operator = "-" then Integer.fit? (left - right)
  else if operator = "*" then Integer.fit? (left * right)
  else if operator = "/" ∧ right ≠ 0 ∧ left % right = 0 then Integer.fit? (left / right)
  else none

def foldBooleans (operator : String) (left right : Bool) : Option Bool :=
  if operator = "and" then some (left && right)
  else if operator = "or" then some (left || right)
  else none

/-- The literal that an operation on two literals gives. -/
def foldBinary (operator : String) : Expr → Expr → Option Expr
  | .number left _, .number right _ =>
    (foldIntegers operator left right).map fun value ↦ .number value .int
  | .string left _, .string right _ =>
    if operator = "+" then some (.string (left ++ right) .string) else none
  | .boolean left, .boolean right => (foldBooleans operator left right).map .boolean
  | _, _ => none

mutual

/-- The expression with every foldable operation folded. -/
def Expr.fold : Expr → Expr
  | .call invocation => .call (Call.fold invocation)
  | .binary operator left right ty? =>
    (foldBinary operator (Expr.fold left) (Expr.fold right)).getD
      (.binary operator (Expr.fold left) (Expr.fold right) ty?)
  | literalOrReference => literalOrReference

def Expr.foldAll : List Expr → List Expr
  | [] => []
  | value :: rest => Expr.fold value :: Expr.foldAll rest

def Call.fold : Call → Call
  | ⟨callee, arguments, ty?⟩ => ⟨callee, Expr.foldAll arguments, ty?⟩

end

theorem Expr.foldAll_eq_map (values : List Expr) : Expr.foldAll values = values.map Expr.fold := by
  induction values with
  | nil => rfl
  | cons value rest ih => rw [Expr.foldAll, ih, List.map_cons]

def Parameter.fold (parameter : Parameter) : Parameter :=
  { parameter with default? := parameter.default?.map Expr.fold }

mutual

/-- The statement with its expressions folded. The parameters of a declaration are folded, and
those of its function stay. The folded body is attached to the function in place of the one before.
A statement that is `owned` is given up once it is folded, and a declaration is dropped then. The
body of a declaration is folded from a copy: the declarations in it are held until it goes. -/
def Statement.fold (owned : Bool) (bodies : Bodies) : Statement → Statement × Bodies
  | .functionDeclaration name function parameters body =>
    let (folded, inside) := Statement.foldAll false bodies body
    let attached := inside.attach function folded
    (.functionDeclaration name function (parameters.map Parameter.fold) folded,
      if owned then attached.release (Statement.declarationCountAll body + 1) else attached)
  | .variableDeclaration target initializer =>
    (.variableDeclaration target initializer.fold, bodies)
  | .variableReassignment target value => (.variableReassignment target value.fold, bodies)
  | .predictiveLoop iterator low high pattern body =>
    let (folded, inside) := Statement.foldAll owned bodies body
    (.predictiveLoop iterator low.fold high.fold pattern folded, inside)
  | .comparison left right => (.comparison left.fold right.fold, bodies)
  | .print value => (.print value.fold, bodies)
  | .returnValue value => (.returnValue value.fold, bodies)
  | .yieldValue value => (.yieldValue value.fold, bodies)
  | .call invocation => (.call invocation.fold, bodies)

def Statement.foldAll (owned : Bool) (bodies : Bodies) :
    List Statement → List Statement × Bodies
  | [] => ([], bodies)
  | statement :: rest =>
    let (first, next) := Statement.fold owned bodies statement
    let (others, last) := Statement.foldAll owned next rest
    (first :: others, last)

end

/-- The folded program, with the bodies of its functions in place of those of the program, which is
given up. -/
def Program.fold (program : Program) (bodies : Bodies) : Program × Bodies :=
  let (statements, last) := Statement.foldAll true bodies program.statements
  (⟨statements⟩, last)

end Presage
