import Presage.Program.Bodies
import Presage.Text.Integer

/-!
Traces: programs as flat lists of lines, in which variables and functions are numbered by identity
in the order of their first appearance. Two uses have the same number exactly when they hold the
same entity, which their names do not tell. A `Numbering` carries the numbers from one program on to
the next.
-/

set_option autoImplicit false
set_option relaxedAutoImplicit false

namespace Presage

/-- An entry of a trace: a text, or an entity that is to be numbered. -/
inductive TraceEntry where
  | text (line : String)
  | var (target : Variable)
  | func (target : Func)

/-- A type in a trace; one that is not known is a question mark. -/
def Ty.trace (ty? : Option Ty) : String :=
  match ty? with
  | some ty => ty.describe
  | none => "?"

def Callee.trace : Callee → TraceEntry
  | .function target => .func target
  | .struct target => .text ("T " ++ target.name)

mutual

/-- An expression, then what it consists of. -/
def Expr.trace : Expr → List TraceEntry
  | .call invocation => Call.trace "E" invocation
  | .binary operator left right ty? =>
    .text ("E Binary " ++ operator ++ ": " ++ Ty.trace ty?) :: (Expr.trace left ++ Expr.trace right)
  | .boolean value =>
    [.text ("E Boolean " ++ (if value then "true" else "false") ++ ": "
      ++ Ty.trace (some .boolean))]
  | .number value ty =>
    [.text ("E Number " ++ Integer.decimal value ++ ": " ++ Ty.trace (some ty))]
  | .string value ty => [.text ("E String " ++ value ++ ": " ++ Ty.trace (some ty))]
  | .reference target => [.text ("E Variable: " ++ Ty.trace target.ty?), .var target]
  | .functionReference target =>
    [.text ("E FunctionReference: " ++ Ty.trace (some target.ty)), .func target]

def Expr.traceAll : List Expr → List TraceEntry
  | [] => []
  | value :: rest => Expr.trace value ++ Expr.traceAll rest

/-- A call, as an expression or as a statement, then its callee and its arguments. -/
def Call.trace (word : String) : Call → List TraceEntry
  | ⟨callee, arguments, ty?⟩ =>
    .text (word ++ " Call " ++ callee.name ++ ": " ++ Ty.trace ty?) :: callee.trace
      :: Expr.traceAll arguments

end

def Parameter.trace (parameter : Parameter) : List TraceEntry :=
  .text ("P " ++ parameter.name ++ ": " ++ Ty.trace parameter.ty? ++ " required="
      ++ (if parameter.isRequired then "true" else "false"))
    :: (parameter.default?.map Expr.trace).getD []

mutual

def Statement.trace : Statement → List TraceEntry
  | .functionDeclaration name function parameters body =>
    .text ("S FunctionDeclaration " ++ name) :: .func function
      :: (parameters.flatMap Parameter.trace
        ++ .text "\x7b" :: (Statement.traceAll body ++ [.text "\x7d"]))
  | .variableDeclaration target initializer =>
    .text "S VariableDeclaration" :: .var target :: initializer.trace
  | .variableReassignment target value =>
    .text "S VariableReassignment" :: .var target :: value.trace
  | .predictiveLoop iterator low high pattern body =>
    .text ("S PredictiveLoop " ++ pattern) :: .var iterator
      :: (low.trace ++ high.trace ++ .text "\x7b" :: (Statement.traceAll body ++ [.text "\x7d"]))
  | .comparison left right => .text "S Comparison" :: (left.trace ++ right.trace)
  | .print value => .text "S Print" :: value.trace
  | .returnValue value => .text "S Return" :: value.trace
  | .yieldValue value => .text "S Yield" :: value.trace
  | .call invocation => Call.trace "S" invocation

def Statement.traceAll : List Statement → List TraceEntry
  | [] => []
  | statement :: rest => Statement.trace statement ++ Statement.traceAll rest

end

/-- The identities met so far, each with its place as its number. -/
structure Numbering where
  seenVariables : List Nat
  seenFunctions : List Nat

namespace Numbering

def empty : Numbering := ⟨[], []⟩

/-- The identities with `id` among them. -/
def including (ids : List Nat) (id : Nat) : List Nat := if id ∈ ids then ids else ids ++ [id]

/-- Numbers the entity of an entry, if it has one. -/
def meet (numbering : Numbering) : TraceEntry → Numbering
  | .text _ => numbering
  | .var target => { numbering with seenVariables := including numbering.seenVariables target.id }
  | .func target => { numbering with seenFunctions := including numbering.seenFunctions target.id }

/-- The line of an entry whose entity has a number. A function is shown with its signature and the
size of the body that `bodies` has for it. -/
def line (numbering : Numbering) (bodies : Bodies) : TraceEntry → String
  | .text line => line
  | .var target =>
    "V#" ++ (numbering.seenVariables.idxOf target.id).repr ++ " " ++ target.name ++ ": "
      ++ Ty.trace target.ty?
  | .func target =>
    let body :=
      match bodies.body? target with
      | some statements => statements.length.repr
      | none => "-"
    "F#" ++ (numbering.seenFunctions.idxOf target.id).repr ++ " " ++ target.name ++ "("
      ++ ", ".intercalate (target.parameters.map Parameter.name) ++ "): " ++ target.ty.describe
      ++ " required=" ++ target.requiredCount.repr ++ " body=" ++ body

/-- The numbering after all entries, and their lines. -/
def lines (bodies : Bodies) : Numbering → List TraceEntry → Numbering × List String
  | numbering, [] => (numbering, [])
  | numbering, entry :: rest =>
    let met := numbering.meet entry
    let (last, others) := lines bodies met rest
    (last, met.line bodies entry :: others)

end Numbering

/-- The trace of a program, with entities numbered from `numbering` on. -/
def Program.trace (program : Program) (bodies : Bodies) (numbering : Numbering) :
    Numbering × List String :=
  numbering.lines bodies (Statement.traceAll program.statements)

end Presage
