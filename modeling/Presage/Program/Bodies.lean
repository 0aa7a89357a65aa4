import Presage.Bindings
import Presage.Program.Basic

/-!
The bodies of functions. A body belongs to the declaration it stands in, and the function has a
handle to it that does not keep it: once the declaration is gone, the handle leads nowhere. A
`Bodies` keeps the bodies that were made, the handles of the functions, and which of the bodies the
declarations still hold. A body is attached when its declaration is complete, so that the bodies of
the functions declared inside it come before it.
-/

set_option autoImplicit false
set_option relaxedAutoImplicit false

namespace Presage

/-- The bodies that declarations hold and the handles that functions have to them. -/
structure Bodies where
  /-- The bodies in the order they were made, with `none` for one that is gone. -/
  cells : List (Option (List Statement))
  /-- The cell that the handle of a function leads to, by the identity of the function. -/
  handles : Bindings Nat Nat
  /-- The cells that declarations hold, in the order the declarations were completed. -/
  held : List Nat

namespace Bodies

def empty : Bodies := ⟨[], .empty, []⟩

/-- Makes the body of a declaration and has the handle of its function lead there, wherever it led
before. -/
def attach (bodies : Bodies) (function : Func) (body : List Statement) : Bodies :=
  ⟨bodies.cells ++ [some body], bodies.handles.insert function.id bodies.cells.length,
    bodies.held ++ [bodies.cells.length]⟩

/-- Drops the oldest declarations, as many as `count`, and the bodies that they hold. -/
def release (bodies : Bodies) (count : Nat) : Bodies :=
  { bodies with
    cells := (bodies.held.take count).foldl (fun cells cell ↦ cells.set cell none) bodies.cells
    held := bodies.held.drop count }

/-- The body that the handle of a function leads to. -/
def body? (bodies : Bodies) (function : Func) : Option (List Statement) := do
  let cell ← bodies.handles.get? function.id
  (bodies.cells[cell]?).join

end Bodies

mutual

/-- The declarations of functions in a statement, at any depth. -/
def Statement.declarationCount : Statement → Nat
  | .functionDeclaration _ _ _ body => Statement.declarationCountAll body + 1
  | .predictiveLoop _ _ _ _ body => Statement.declarationCountAll body
  | _ => 0

def Statement.declarationCountAll : List Statement → Nat
  | [] => 0
  | statement :: rest =>
    Statement.declarationCount statement + Statement.declarationCountAll rest

end

end Presage
