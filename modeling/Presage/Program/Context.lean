import Presage.Bindings
import Presage.Program.Basic

/-!
The scopes that are open at a point of a program. A name means what the innermost scope that binds
it says; the outermost scope binds the names of the types and is never left.
-/

set_option autoImplicit false
set_option relaxedAutoImplicit false

namespace Presage

/-- One scope: what its names mean, whether it is inside a loop, and the function it is inside. -/
structure Scope where
  locals : Bindings String Entity
  inLoop : Bool
  function? : Option Func

/-- The current scope and those around it, from the inside out. -/
structure Context where
  current : Scope
  outer : List Scope

namespace Context

/-- The types that have names from the start. -/
def standardTypes : List (String × Ty) :=
  [("int", .int), ("float", .float), ("boolean", .boolean), ("string", .string), ("void", .void),
    ("any", .any)]

/-- The outermost scope alone. -/
def root : Context :=
  ⟨⟨standardTypes.foldl (fun locals (name, ty) ↦ locals.insert name (.type ty)) .empty,
    false, none⟩, []⟩

/-- All open scopes, from the inside out. -/
def scopes (context : Context) : List Scope := context.current :: context.outer

/-- Binds a name in the current scope, whatever it meant there. -/
def bind (context : Context) (name : String) (entity : Entity) : Context :=
  { context with
    current := { context.current with locals := context.current.locals.insert name entity } }

/-- What a name means here. -/
def lookup? (context : Context) (name : String) : Option Entity :=
  context.scopes.findSome? fun scope ↦ scope.locals.get? name

/-- What the current scope says that a name means. -/
def lookupLocal? (context : Context) (name : String) : Option Entity :=
  context.current.locals.get? name

/-- Opens an empty scope. What is not given for it is as in the scope around it. -/
def enter (context : Context) (inLoop? : Option Bool) (function? : Option Func) : Context :=
  ⟨⟨.empty, inLoop?.getD context.current.inLoop, function? <|> context.current.function?⟩,
    context.scopes⟩

/-- Closes the current scope, unless it is the outermost. -/
def leave (context : Context) : Context :=
  match context.outer with
  | [] => context
  | scope :: outer => ⟨scope, outer⟩

/-- The scopes around the current one. -/
def depth (context : Context) : Nat := context.outer.length

end Context

end Presage
