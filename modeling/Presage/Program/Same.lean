import Presage.Program.Basic

/-!
When two programs say the same. Identities of variables and functions do not count, only their names
and types, and a function counts by its signature; struct types count by identity.
-/

set_option autoImplicit false
set_option relaxedAutoImplicit false

namespace Presage

def Variable.same (first second : Variable) : Bool :=
  first.name == second.name && Ty.equivalent? first.ty? second.ty?

mutual

def Expr.same : Expr → Expr → Bool
  | .call invocation, .call invocation' => Call.same invocation invocation'
  | .binary operator left right ty?, .binary operator' left' right' ty?' =>
    operator == operator' && Expr.same left left' && Expr.same right right'
      && Ty.equivalent? ty? ty?'
  | .boolean value, .boolean value' => value == value'
  | .number value ty, .number value' ty' => value == value' && Ty.equivalent ty ty'
  | .string value ty, .string value' ty' => value == value' && Ty.equivalent ty ty'
  | .reference target, .reference target' => target.same target'
  | .functionReference target, .functionReference target' => Func.same target target'
  | _, _ => false

def Expr.sameAll : List Expr → List Expr → Bool
  | [], [] => true
  | value :: rest, value' :: rest' => Expr.same value value' && Expr.sameAll rest rest'
  | _, _ => false

def Call.same : Call → Call → Bool
  | ⟨callee, arguments, ty?⟩, ⟨callee', arguments', ty?'⟩ =>
    Callee.same callee callee' && Expr.sameAll arguments arguments' && Ty.equivalent? ty? ty?'

def Callee.same : Callee → Callee → Bool
  | .function target, .function target' => Func.same target target'
  | .struct target, .struct target' => target.id == target'.id
  | _, _ => false

/-- Functions are the same when name, parameters and return type are, whatever their bodies. -/
def Func.same : Func → Func → Bool
  | ⟨_, name, parameters, returnType?⟩, ⟨_, name', parameters', returnType?'⟩ =>
    name == name' && Parameter.sameAll parameters parameters'
      && Ty.equivalent? returnType? returnType?'

def Parameter.same : Parameter → Parameter → Bool
  | ⟨name, none⟩, ⟨name', none⟩ => name == name'
  | ⟨name, some default⟩, ⟨name', some default'⟩ => name == name' && Expr.same default default'
  | _, _ => false

def Parameter.sameAll : List Parameter → List Parameter → Bool
  | [], [] => true
  | parameter :: rest, parameter' :: rest' =>
    Parameter.same parameter parameter' && Parameter.sameAll rest rest'
  | _, _ => false

end

mutual

def Statement.same : Statement → Statement → Bool
  | .functionDeclaration name function parameters body,
      .functionDeclaration name' function' parameters' body' =>
    name == name' && function.same function' && Parameter.sameAll parameters parameters'
      && Statement.sameAll body body'
  | .variableDeclaration target initializer, .variableDeclaration target' initializer' =>
    target.same target' && initializer.same initializer'
  | .variableReassignment target value, .variableReassignment target' value' =>
    target.same target' && value.same value'
  | .predictiveLoop iterator low high pattern body,
      .predictiveLoop iterator' low' high' pattern' body' =>
    iterator.same iterator' && low.same low' && high.same high' && pattern == pattern'
      && Statement.sameAll body body'
  | .comparison left right, .comparison left' right' => left.same left' && right.same right'
  | .print value, .print value' => value.same value'
  | .returnValue value, .returnValue value' => value.same value'
  | .yieldValue value, .yieldValue value' => value.same value'
  | .call invocation, .call invocation' => invocation.same invocation'
  | _, _ => false

def Statement.sameAll : List Statement → List Statement → Bool
  | [], [] => true
  | statement :: rest, statement' :: rest' =>
    Statement.same statement statement' && Statement.sameAll rest rest'
  | _, _ => false

end

def Program.same (first second : Program) : Bool :=
  Statement.sameAll first.statements second.statements

end Presage
