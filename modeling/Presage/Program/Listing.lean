import Presage.Program.Basic
import Presage.Text.Integer
import Presage.Text.Listing

/-!
Programs as listings. Entities are listed in full wherever they are used, without their identity,
and a function is listed without its body, which its declaration has.
-/

set_option autoImplicit false
set_option relaxedAutoImplicit false

namespace Presage

open Listing (atom record tuple list quoted option)

def StructType.listing (type : StructType) : Listing :=
  record "StructType" [("name", quoted type.name)]

mutual

def Ty.listing : Ty → Listing
  | .int => atom "Int"
  | .float => atom "Float"
  | .string => atom "String"
  | .boolean => atom "Bool"
  | .void => atom "Void"
  | .any => atom "Any"
  | .struct type => tuple "Struct" [type.listing]
  | .function parameters result =>
    record "Function" [("params", list (Ty.listings parameters)), ("ret", Ty.listing result)]
  | .array element => tuple "Array" [Ty.listing element]
  | .optional element => tuple "Optional" [Ty.listing element]

def Ty.listings : List Ty → List Listing
  | [] => []
  | type :: rest => Ty.listing type :: Ty.listings rest

end

def Ty.listing? (ty? : Option Ty) : Listing := option (ty?.map Ty.listing)

def Variable.listing (target : Variable) : Listing :=
  record "Variable" [("name", quoted target.name), ("ty", Ty.listing? target.ty?)]

mutual

def Expr.listing : Expr → Listing
  | .call invocation => tuple "Call" [Call.listing invocation]
  | .binary operator left right ty? =>
    tuple "Binary"
      [record "BinaryExpression"
        [("operator", quoted operator), ("left", Expr.listing left),
          ("right", Expr.listing right), ("ty", Ty.listing? ty?)]]
  | .boolean value => record "BooleanLiteral" [("value", atom (if value then "true" else "false"))]
  | .number value ty =>
    record "NumberLiteral" [("value", atom (Integer.decimal value)), ("ty", ty.listing)]
  | .string value ty => record "StringLiteral" [("value", quoted value), ("ty", ty.listing)]
  | .reference target => tuple "Variable" [target.listing]
  | .functionReference target => tuple "FunctionReference" [Func.listing target]

def Expr.listings : List Expr → List Listing
  | [] => []
  | value :: rest => Expr.listing value :: Expr.listings rest

def Call.listing : Call → Listing
  | ⟨callee, arguments, ty?⟩ =>
    record "CallExpression"
      [("callee", Callee.listing callee), ("arguments", list (Expr.listings arguments)),
        ("ty", Ty.listing? ty?)]

def Callee.listing : Callee → Listing
  | .function target => tuple "Function" [Func.listing target]
  | .struct target => tuple "Struct" [target.listing]

def Func.listing : Func → Listing
  | ⟨_, name, parameters, returnType?⟩ =>
    record "Function"
      [("name", quoted name), ("parameters", list (Parameter.listings parameters)),
        ("return_type", Ty.listing? returnType?),
        ("body", record "RefCell" [("value", atom "(Weak)")])]

def Parameter.listing : Parameter → Listing
  | ⟨name, none⟩ =>
    record "Parameter" [("param_name", quoted name), ("default_value", option none)]
  | ⟨name, some default⟩ =>
    record "Parameter"
      [("param_name", quoted name), ("default_value", option (some (Expr.listing default)))]

def Parameter.listings : List Parameter → List Listing
  | [] => []
  | parameter :: rest => Parameter.listing parameter :: Parameter.listings rest

end

mutual

def Statement.listing : Statement → Listing
  | .functionDeclaration name function parameters body =>
    tuple "FunctionDeclaration"
      [record "FunctionDeclaration"
        [("name", quoted name), ("parameters", list (Parameter.listings parameters)),
          ("body", list (Statement.listings body)), ("function", function.listing)]]
  | .variableDeclaration target initializer =>
    record "VariableDeclaration"
      [("variable", target.listing), ("initializer", initializer.listing)]
  | .variableReassignment target value =>
    record "VariableReassignment" [("variable", target.listing), ("value", value.listing)]
  | .predictiveLoop iterator low high pattern body =>
    tuple "PredictiveLoop"
      [record "PredictiveLoop"
        [("iterator", iterator.listing), ("low", low.listing), ("high", high.listing),
          ("pattern_type", quoted pattern), ("body", list (Statement.listings body))]]
  | .comparison left right =>
    record "ComparisonStatement" [("left", left.listing), ("right", right.listing)]
  | .print value => record "PrintStatement" [("expression", value.listing)]
  | .returnValue value => record "ReturnStatement" [("expression", value.listing)]
  | .yieldValue value => record "YieldStatement" [("expression", value.listing)]
  | .call invocation => tuple "Call" [invocation.listing]

def Statement.listings : List Statement → List Listing
  | [] => []
  | statement :: rest => Statement.listing statement :: Statement.listings rest

end

def Program.listing (program : Program) : Listing :=
  record "Program" [("statements", list (Statement.listings program.statements))]

end Presage
