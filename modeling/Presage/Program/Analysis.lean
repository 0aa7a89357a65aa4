import Presage.Diagnostic
import Presage.Node.Basic
import Presage.Program.Bodies
import Presage.Program.Context
import Presage.Text.Integer

/-!
From a parse tree to a program. The rules check a tree and build the program from it in one pass:
names are resolved in the scopes that are open, types follow from values, and the first rule that a
tree breaks is reported at the node that breaks it. An `Analyzer` goes through the whole tree: it
has the open scopes, hands out the identities of variables and functions, and keeps the bodies that
are attached to functions.
-/

set_option autoImplicit false
set_option relaxedAutoImplicit false

namespace Presage

/-- The state of an analysis: the open scopes, the next identity to be handed out, and the bodies
of the functions declared so far. -/
structure Analyzer where
  context : Context
  nextId : Nat
  bodies : Bodies

namespace Analyzer

/-- The state before anything is analysed. -/
def initial : Analyzer := ⟨.root, 0, .empty⟩

/-- A new variable, bound in the current scope. -/
def declareVariable (analyzer : Analyzer) (name : String) (ty? : Option Ty) :
    Variable × Analyzer :=
  let target : Variable := ⟨analyzer.nextId, name, ty?⟩
  (target,
    { analyzer with
      context := analyzer.context.bind name (.var target)
      nextId := analyzer.nextId + 1 })

/-- A new function, bound in the current scope. -/
def declareFunction (analyzer : Analyzer) (name : String) (parameters : List Parameter)
    (returnType? : Option Ty) : Func × Analyzer :=
  let target : Func := ⟨analyzer.nextId, name, parameters, returnType?⟩
  (target,
    { analyzer with
      context := analyzer.context.bind name (.func target)
      nextId := analyzer.nextId + 1 })

/-- Binds a new variable for each parameter. -/
def declareParameters (analyzer : Analyzer) (parameters : List Parameter) : Analyzer :=
  parameters.foldl (fun state parameter ↦ (state.declareVariable parameter.name parameter.ty?).2)
    analyzer

/-- The scope of a function's body, with its parameters. -/
def enterFunction (analyzer : Analyzer) (function : Func) : Analyzer :=
  { analyzer with context := analyzer.context.enter (some false) (some function) }.declareParameters
    function.parameters

/-- The scope of a loop's body. -/
def enterLoop (analyzer : Analyzer) : Analyzer :=
  { analyzer with context := analyzer.context.enter (some true) none }

def leave (analyzer : Analyzer) : Analyzer := { analyzer with context := analyzer.context.leave }

/-- Attaches the body of a complete declaration to its function. -/
def attachBody (analyzer : Analyzer) (function : Func) (body : List Statement) : Analyzer :=
  { analyzer with bodies := analyzer.bodies.attach function body }

end Analyzer

namespace Analysis

/-- Fails at the start of `node` with `cause` unless `condition` holds. -/
def require (condition : Bool) (cause : Cause) (node : Node) : Except Diagnostic Unit :=
  if condition then .ok () else .error ⟨cause, node.span.start⟩

/-- Fails at a node that cannot stand where it does. -/
def unexpectedNode {α : Type} (node : Node) : Except Diagnostic α :=
  .error ⟨.unexpectedNode node.kindName, node.span.start⟩

/-- What the name `node` means. -/
def resolve (source : Source) (context : Context) (node : Node) : Except Diagnostic Entity :=
  match context.lookup? (node.text source) with
  | some entity => .ok entity
  | none => .error ⟨.undeclaredIdentifier (node.text source), node.span.start⟩

/-- The current scope does not bind the name `node`. -/
def requireUndeclared (source : Source) (context : Context) (node : Node) :
    Except Diagnostic Unit :=
  require (context.lookupLocal? (node.text source)).isNone
    (.duplicateDeclaration (node.text source)) node

/-! ### Leaves -/

/-- The inside of a quoted text; a text that is not quoted stays as it is. -/
def unquote (text : String) : String :=
  match text.toList with
  | '\"' :: rest => if rest.getLast? = some '\"' then String.ofList rest.dropLast else text
  | _ => text

/-- A name used as a value. -/
def identifier (source : Source) (context : Context) (node : Node) : Except Diagnostic Expr := do
  match ← resolve source context node with
  | .var target => return .reference target
  | .func target => return .functionReference target
  | .type _ => throw ⟨.expectedValue (node.text source), node.span.start⟩

def leaf (source : Source) (context : Context) (kind : LeafKind) (span : Span) :
    Except Diagnostic Expr :=
  match kind with
  | .number =>
    match Integer.read? (source.read span) with
    | some value => .ok (.number value .int)
    | none => .error ⟨.numberParse (source.read span), span.start⟩
  | .string => .ok (.string (unquote (source.read span)) .string)
  | .truth => .ok (.boolean true)
  | .falsity => .ok (.boolean false)
  | .identifier => identifier source context (.leaf .identifier span)
  | .operator => unexpectedNode (.leaf .operator span)

/-! ### Operators -/

def arithmeticOperators : List String := ["+", "-", "*", "/"]

def logicalOperators : List String := ["and", "or"]

/-- The type of a binary expression with operands of the given types. A sum with a string is a
string. Other arithmetic takes numbers and is an integer, and is not checked when a type is not
known; `and` and `or` take booleans. -/
def binaryTy? (source : Source) (left operator right : Node) (leftTy? rightTy? : Option Ty) :
    Except Diagnostic (Option Ty) :=
  let text := operator.text source
  if text = "+" ∧
      (Ty.equivalent? leftTy? (some .string) ∨ Ty.equivalent? rightTy? (some .string)) then
    return some .string
  else if text ∈ arithmeticOperators then
    match leftTy?, rightTy? with
    | some leftTy, some rightTy => do
      require leftTy.isNumeric .expectedNumber left
      require rightTy.isNumeric .expectedNumber right
      return some .int
    | _, _ => return none
  else if text ∈ logicalOperators then do
    require (Ty.equivalent? leftTy? (some .boolean)) .expectedBoolean left
    require (Ty.equivalent? rightTy? (some .boolean)) .expectedBoolean right
    return some .boolean
  else throw ⟨.invalidOperator text, operator.span.start⟩

/-! ### Calls -/

/-- What the name `node` calls. -/
def callee (source : Source) (context : Context) (node : Node) : Except Diagnostic Callee := do
  match ← resolve source context node with
  | .func target => return .function target
  | .type (.struct target) => return .struct target
  | _ => throw ⟨.notCallable, node.span.start⟩

/-- The parameter that the argument `node` at `index` is checked against: the one it names, or else
the one at its index. -/
def parameterFor? (source : Source) (function : Func) (index : Nat) (node : Node) :
    Except Diagnostic (Option Parameter) :=
  match node with
  | .keywordArgument _ name _ => do
    let found? := function.parameters.find? fun parameter ↦ parameter.name == name.text source
    require found?.isSome (.undeclaredIdentifier (name.text source)) name
    return found?
  | _ => return function.parameters[index]?

/-- A value of the type `given?` may be passed for the type `expected?`, if both are known. -/
def checkAssignable (given? expected? : Option Ty) (node : Node) : Except Diagnostic Unit :=
  match given?, expected? with
  | some given, some expected =>
    require (given.assignable expected)
      (.assignabilityMismatch given.describe expected.describe) node
  | _, _ => return ()

/-- Checks arguments, of which the first has the given index, against their parameters. -/
def checkArguments (source : Source) (function : Func) :
    Nat → List (Node × Expr) → Except Diagnostic Unit
  | _, [] => return ()
  | index, (node, value) :: rest => do
    let parameter? ← parameterFor? source function index node
    checkAssignable value.ty? (parameter?.bind Parameter.ty?) node
    checkArguments source function (index + 1) rest

/-- The call of `callee` at `position` with arguments that have been analysed. A function takes as
many arguments as it has parameters without a default. -/
def checkedCall (source : Source) (position : Position) (callee : Callee) (arguments : List Node)
    (values : List Expr) : Except Diagnostic Call :=
  match callee with
  | .function target => do
    if values.length ≠ target.requiredCount then
      throw ⟨.argumentCountMismatch target.requiredCount values.length, position⟩
    checkArguments source target 0 (arguments.zip values)
    return ⟨callee, values, target.returnType?⟩
  | .struct target => return ⟨callee, values, some (.struct target)⟩

/-! ### Expressions -/

mutual

def expression (source : Source) (analyzer : Analyzer) :
    Node → Except Diagnostic (Expr × Analyzer)
  | .call span name arguments => do
    let callee ← callee source analyzer.context name
    let (values, next) ← argumentValues source analyzer arguments
    return (.call (← checkedCall source span.start callee arguments values), next)
  | .binary _ left operator right => do
    let (leftValue, middle) ← expression source analyzer left
    let (rightValue, next) ← expression source middle right
    let ty? ← binaryTy? source left operator right leftValue.ty? rightValue.ty?
    return (.binary (operator.text source) leftValue rightValue ty?, next)
  | .parenthesized _ inner => expression source analyzer inner
  | .leaf kind span => return (← leaf source analyzer.context kind span, analyzer)
  | node => unexpectedNode node

/-- The values of arguments, with or without the names of their parameters. -/
def argumentValues (source : Source) (analyzer : Analyzer) :
    List Node → Except Diagnostic (List Expr × Analyzer)
  | [] => return ([], analyzer)
  | .keywordArgument _ _ value :: rest => do
    let (first, next) ← expression source analyzer value
    let (others, last) ← argumentValues source next rest
    return (first :: others, last)
  | node :: rest => do
    let (first, next) ← expression source analyzer node
    let (others, last) ← argumentValues source next rest
    return (first :: others, last)

end

def parameter (source : Source) (analyzer : Analyzer) :
    Node → Except Diagnostic (Parameter × Analyzer)
  | .parameter _ name none => return (⟨name.text source, none⟩, analyzer)
  | .parameter _ name (some default) => do
    let (value, next) ← expression source analyzer default
    return (⟨name.text source, some value⟩, next)
  | node => unexpectedNode node

def parameters (source : Source) (analyzer : Analyzer) :
    List Node → Except Diagnostic (List Parameter × Analyzer)
  | [] => return ([], analyzer)
  | node :: rest => do
    let (first, next) ← parameter source analyzer node
    let (others, last) ← parameters source next rest
    return (first :: others, last)

/-! ### Statements -/

/-- The current scope binds the name to a value, so that giving it another is a reassignment. -/
def rebinds (context : Context) (name : String) : Bool :=
  match context.lookupLocal? name with
  | some (.var _) | some (.func _) => true
  | _ => false

mutual

def statement (source : Source) (analyzer : Analyzer) :
    Node → Except Diagnostic (Statement × Analyzer)
  | .functionDefinition _ name parameterNodes body => do
    requireUndeclared source analyzer.context name
    let (parameters, prepared) ← parameters source analyzer parameterNodes
    let (function, declared) := prepared.declareFunction (name.text source) parameters none
    let (body, finished) ← statements source (declared.enterFunction function) body
    return (.functionDeclaration function.name function parameters body,
      finished.leave.attachBody function body)
  | .predictiveLoop _ name low high pattern body => do
    requireUndeclared source analyzer.context name
    let (lowValue, middle) ← expression source analyzer low
    let (highValue, next) ← expression source middle high
    require (Ty.equivalent? lowValue.ty? (some .int)) .expectedInteger low
    require (Ty.equivalent? highValue.ty? (some .int)) .expectedInteger high
    let (iterator, entered) := next.enterLoop.declareVariable (name.text source) (some .int)
    let (body, finished) ← statements source entered body
    return (.predictiveLoop iterator lowValue highValue (pattern.text source) body, finished.leave)
  | .comparisonStatement _ left right => do
    let (leftValue, middle) ← expression source analyzer left
    let (rightValue, next) ← expression source middle right
    match leftValue.ty?, rightValue.ty? with
    | some leftTy, some rightTy => require (leftTy.equivalent rightTy) .operandTypeMismatch right
    | _, _ => pure ()
    return (.comparison leftValue rightValue, next)
  | .printStatement _ value => do
    let (value, next) ← expression source analyzer value
    return (.print value, next)
  | .returnStatement span value => do
    let (value', next) ← expression source analyzer value
    require next.context.current.function?.isSome .returnOutsideFunction
      (.returnStatement span value)
    return (.returnValue value', next)
  | .yieldStatement span value => do
    let (value', next) ← expression source analyzer value
    require next.context.current.inLoop .yieldOutsideLoop (.yieldStatement span value)
    return (.yieldValue value', next)
  | .variableDeclaration _ name initializer => do
    requireUndeclared source analyzer.context name
    let (value, next) ← expression source analyzer initializer
    let (target, declared) := next.declareVariable (name.text source) value.ty?
    return (.variableDeclaration target value, declared)
  | .variableReassignment _ name value => do
    let (value', next) ← expression source analyzer value
    let (target, declared) := next.declareVariable (name.text source) value'.ty?
    if rebinds next.context (name.text source) then
      return (.variableReassignment target value', declared)
    else return (.variableDeclaration target value', declared)
  | .call span name arguments => do
    let callee ← callee source analyzer.context name
    let (values, next) ← argumentValues source analyzer arguments
    return (.call (← checkedCall source span.start callee arguments values), next)
  | node => unexpectedNode node

/-- Statements in turn, each in the state that the one before it leaves. -/
def statements (source : Source) (analyzer : Analyzer) :
    List Node → Except Diagnostic (List Statement × Analyzer)
  | [] => return ([], analyzer)
  | node :: rest => do
    let (first, next) ← statement source analyzer node
    let (others, last) ← statements source next rest
    return (first :: others, last)

end

/-- The program that a tree is, and the state after it. -/
def program (source : Source) (analyzer : Analyzer) :
    Node → Except Diagnostic (Program × Analyzer)
  | .program _ nodes => do
    let (body, last) ← statements source analyzer nodes
    return (⟨body⟩, last)
  | node => unexpectedNode node

end Analysis

/-- The program that a tree over `source` is. -/
def Program.ofNode (source : Source) (tree : Node) : Except Diagnostic Program :=
  (Analysis.program source .initial tree).map Prod.fst

end Presage
