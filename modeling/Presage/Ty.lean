/-!
Types. Struct types are nominal: each has an identity, and two of one name are different. Other
types are structural. `equivalent` tells when two types are interchangeable, `assignable` when a
value of one may stand where the other is expected, and `describe` writes a type.
-/

set_option autoImplicit false
set_option relaxedAutoImplicit false

namespace Presage

/-- A struct type: the type with this identity, whatever its name. -/
structure StructType where
  id : Nat
  name : String
deriving DecidableEq, Inhabited

inductive Ty where
  | int
  | float
  | string
  | boolean
  | void
  | any
  | struct (type : StructType)
  | function (parameters : List Ty) (result : Ty)
  | array (element : Ty)
  | optional (element : Ty)
deriving Inhabited

namespace Ty

def isNumeric : Ty → Bool
  | int | float => true
  | _ => false

def isAny : Ty → Bool
  | any => true
  | _ => false

mutual

/-- The two types are interchangeable: struct types by identity, all others by their parts. -/
def equivalent : Ty → Ty → Bool
  | int, int => true
  | float, float => true
  | string, string => true
  | boolean, boolean => true
  | void, void => true
  | any, any => true
  | struct first, struct second => first.id == second.id
  | function parameters result, function parameters' result' =>
    equivalent result result' && equivalentAll parameters parameters'
  | array element, array element' => equivalent element element'
  | optional element, optional element' => equivalent element element'
  | _, _ => false

/-- Lists of one length with interchangeable types at every index. -/
def equivalentAll : List Ty → List Ty → Bool
  | [], [] => true
  | type :: rest, type' :: rest' => equivalent type type' && equivalentAll rest rest'
  | _, _ => false

end

/-- Which of two types is the given and which the expected one. -/
inductive Variance where
  | covariant
  | contravariant
deriving DecidableEq

namespace Variance

def flip : Variance → Variance
  | covariant => contravariant
  | contravariant => covariant

/-- The expected type of two: the second if they are in order, the first if they are exchanged. -/
def expected : Variance → Ty → Ty → Ty
  | covariant, _, second => second
  | contravariant, first, _ => first

end Variance

mutual

/-- A value of the given type may stand where the expected one is asked for. Everything may stand
for `any`. A function may stand for one whose result its own may stand for, and whose parameters
may each stand for its own; the exchange of roles in the parameters is the flip of the variance. -/
def fits (variance : Variance) (first second : Ty) : Bool :=
  (variance.expected first second).isAny || equivalent first second ||
    match first, second with
    | function parameters result, function parameters' result' =>
      fits variance result result' && fitsAll variance.flip parameters parameters'
    | _, _ => false

/-- Lists of one length whose types fit at every index. -/
def fitsAll (variance : Variance) : List Ty → List Ty → Bool
  | [], [] => true
  | type :: rest, type' :: rest' => fits variance type type' && fitsAll variance rest rest'
  | _, _ => false

end

/-- A value of type `source` may stand where one of type `target` is expected. -/
def assignable (source target : Ty) : Bool := fits .covariant source target

mutual

/-- A type in writing: `int`, `Point`, `(int, string)->boolean`, `[int]`, `string?`. -/
def describe : Ty → String
  | int => "int"
  | float => "float"
  | string => "string"
  | boolean => "boolean"
  | void => "void"
  | any => "any"
  | struct type => type.name
  | function parameters result =>
    "(" ++ ", ".intercalate (describeAll parameters) ++ ")->" ++ describe result
  | array element => "[" ++ describe element ++ "]"
  | optional element => describe element ++ "?"

def describeAll : List Ty → List String
  | [] => []
  | type :: rest => describe type :: describeAll rest

end

/-- Two types of which neither or both are known, and then interchangeable. -/
def equivalent? : Option Ty → Option Ty → Bool
  | none, none => true
  | some type, some type' => equivalent type type'
  | _, _ => false

end Ty

end Presage
