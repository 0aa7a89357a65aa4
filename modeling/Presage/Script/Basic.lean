/-!
Scripts: the part of JavaScript that programs are compiled to, with every name as it is written.
-/

set_option autoImplicit false
set_option relaxedAutoImplicit false

namespace Presage.Script

/-- An expression of a script. -/
inductive Term where
  | name (text : String)
  | number (value : Int)
  | boolean (value : Bool)
  | string (value : String)
  | binary (operator : String) (left right : Term)
  | call (callee : String) (arguments : List Term)
  | construct (callee : String) (arguments : List Term)

/-- A parameter of a function with its default. -/
structure Parameter where
  name : String
  default? : Option Term

/-- A statement of a script. -/
inductive Stmt where
  | declare (name : String) (value : Term)
  | assign (name : String) (value : Term)
  | log (value : Term)
  | logEqual (left right : Term)
  | returnValue (value : Term)
  | yieldValue (value : Term)
  | evaluate (value : Term)
  | function (generator : Bool) (name : String) (parameters : List Parameter) (body : List Stmt)
  | loop (pattern iterator : String) (low high : Term) (body : List Stmt)

end Presage.Script
