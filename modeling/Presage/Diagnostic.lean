import Presage.Source.Excerpt

/-!
Diagnostics. A `Cause` says what is wrong, a `Diagnostic` also where, and `render` shows it with an
excerpt of the source.
-/

set_option autoImplicit false
set_option relaxedAutoImplicit false

namespace Presage

/-- What can be wrong with a program. -/
inductive Cause where
  | unrecognisedToken (token : String)
  | unexpectedToken (token : String)
  | unexpectedTokenDetailed (token message : String)
  | numberParse (token : String)
  | duplicateDeclaration (name : String)
  | undeclaredIdentifier (name : String)
  | expectedNumber
  | expectedBoolean
  | expectedInteger
  | expectedValue (name : String)
  | yieldOutsideLoop
  | returnOutsideFunction
  | notCallable
  | argumentCountMismatch (required passed : Nat)
  | assignabilityMismatch (source target : String)
  | operandTypeMismatch
  | invalidOperator (operator : String)
  | unexpectedNode (kind : String)
deriving DecidableEq

namespace Cause

def name : Cause → String
  | unrecognisedToken _ => "UnrecognisedToken"
  | unexpectedToken _ => "UnexpectedToken"
  | unexpectedTokenDetailed _ _ => "UnexpectedTokenDetailed"
  | numberParse _ => "NumberParseError"
  | duplicateDeclaration _ => "DuplicateDeclaration"
  | undeclaredIdentifier _ => "UndeclaredIdentifier"
  | expectedNumber => "ExpectedNumber"
  | expectedBoolean => "ExpectedBoolean"
  | expectedInteger => "ExpectedInteger"
  | expectedValue _ => "ExpectedValue"
  | yieldOutsideLoop => "YieldOutsideLoop"
  | returnOutsideFunction => "ReturnOutsideFunction"
  | notCallable => "NotCallable"
  | argumentCountMismatch _ _ => "ArgumentCountMismatch"
  | assignabilityMismatch _ _ => "AssignabilityMismatch"
  | operandTypeMismatch => "OperandTypeMismatch"
  | invalidOperator _ => "InvalidOperator"
  | unexpectedNode _ => "UnexpectedNode"

def message : Cause → String
  | unrecognisedToken token => "Unrecognised token " ++ token
  | unexpectedToken token => "Unexpected token " ++ token
  | unexpectedTokenDetailed token detail => "Unexpected token " ++ token ++ ", " ++ detail
  | numberParse token => "Invalid integer literal " ++ token
  | duplicateDeclaration name => "Identifier " ++ name ++ " already declared"
  | undeclaredIdentifier name => "Identifier " ++ name ++ " not declared"
  | expectedNumber => "Expected a number"
  | expectedBoolean => "Expected a boolean"
  | expectedInteger => "Expected an integer"
  | expectedValue name => "Expected a value but " ++ name ++ " is a type"
  | yieldOutsideLoop => "Yield can only appear in a loop"
  | returnOutsideFunction => "Return can only appear in a function"
  | notCallable => "Call of non-function or non-constructor"
  | argumentCountMismatch required passed =>
    required.repr ++ " argument(s) required but " ++ passed.repr ++ " passed"
  | assignabilityMismatch source target => "Cannot assign a " ++ source ++ " to a " ++ target
  | operandTypeMismatch => "Operands do not have the same type"
  | invalidOperator operator => "Invalid binary operator: " ++ operator
  | unexpectedNode kind => "Unexpected " ++ kind ++ " node"

end Cause

/-- A cause and the place it is reported at. -/
structure Diagnostic where
  cause : Cause
  position : Position
deriving DecidableEq

/-- The excerpt of the source around the diagnostic and then its message. -/
def Diagnostic.render (source : Source) (diagnostic : Diagnostic) : String :=
  source.excerpt diagnostic.position ++ diagnostic.cause.message

end Presage
