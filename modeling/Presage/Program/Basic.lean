import Presage.Ty

/-!
Analysed programs. Variables and functions have an identity of their own, and every use of one holds
the entity that it means, so that uses are told apart by identity and not by name. An unknown type
is `none`.
-/

set_option autoImplicit false
set_option relaxedAutoImplicit false

namespace Presage

/-- A declared variable; its type is that of the value it was given. -/
structure Variable where
  id : Nat
  name : String
  ty? : Option Ty
deriving Inhabited

mutual

inductive Expr where
  | call (invocation : Call)
  | binary (operator : String) (left right : Expr) (ty? : Option Ty)
  | boolean (value : Bool)
  | number (value : Int) (ty : Ty)
  | string (value : String) (ty : Ty)
  | reference (target : Variable)
  | functionReference (target : Func)

/-- A call of a function, or a construction of a struct. -/
structure Call where
  callee : Callee
  arguments : List Expr
  ty? : Option Ty

inductive Callee where
  | function (target : Func)
  | struct (target : StructType)

/-- A declared function. Its body belongs to its declaration. -/
structure Func where
  id : Nat
  name : String
  parameters : List Parameter
  returnType? : Option Ty

/-- A parameter; one without a default has to be passed. -/
structure Parameter where
  name : String
  default? : Option Expr

end

mutual

/-- The type of an expression as far as it is known. -/
def Expr.ty? : Expr → Option Ty
  | .call ⟨_, _, ty?⟩ => ty?
  | .binary _ _ _ ty? => ty?
  | .boolean _ => some .boolean
  | .number _ ty => some ty
  | .string _ ty => some ty
  | .reference target => target.ty?
  | .functionReference target => some (Func.ty target)

/-- The type of a function, with `any` for what is not known. -/
def Func.ty : Func → Ty
  | ⟨_, _, parameters, returnType?⟩ =>
    .function (Parameter.tys parameters) (returnType?.getD .any)

def Parameter.tys : List Parameter → List Ty
  | [] => []
  | parameter :: rest => (Parameter.ty? parameter).getD .any :: Parameter.tys rest

/-- The type of the default, if there is one and its type is known. -/
def Parameter.ty? : Parameter → Option Ty
  | ⟨_, none⟩ => none
  | ⟨_, some default⟩ => Expr.ty? default

end

def Parameter.isRequired (parameter : Parameter) : Bool := parameter.default?.isNone

/-- The parameters that have to be passed. -/
def Func.requiredCount (function : Func) : Nat := function.parameters.countP Parameter.isRequired

def Callee.name : Callee → String
  | function target => target.name
  | struct target => target.name

/-- What a name can be bound to. -/
inductive Entity where
  | var (target : Variable)
  | func (target : Func)
  | type (ty : Ty)

/-- Functions and struct types can be called. -/
def Entity.isCallable : Entity → Bool
  | func _ | type (.struct _) => true
  | _ => false

/-- Statements. A function declaration has a name and parameters of its own beside those of its
function. -/
inductive Statement where
  | functionDeclaration (name : String) (function : Func) (parameters : List Parameter)
      (body : List Statement)
  | variableDeclaration (target : Variable) (initializer : Expr)
  | variableReassignment (target : Variable) (value : Expr)
  | predictiveLoop (iterator : Variable) (low high : Expr) (pattern : String)
      (body : List Statement)
  | comparison (left right : Expr)
  | print (value : Expr)
  | returnValue (value : Expr)
  | yieldValue (value : Expr)
  | call (invocation : Call)

/-- A program, as its top-level statements. -/
structure Program where
  statements : List Statement

end Presage
