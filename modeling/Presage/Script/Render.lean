import Presage.Script.Basic
import Presage.Script.Quote
import Presage.Text.Integer

/-!
Scripts in writing. A term is written on one line with every operation in parentheses. A statement
is one line, or a header, a body two spaces deeper and a closing brace. Blank lines stand between
the statements at the top.
-/

set_option autoImplicit false
set_option relaxedAutoImplicit false

namespace Presage.Script

mutual

def Term.render : Term → String
  | .name text => text
  | .number value => Integer.decimal value
  | .boolean value => if value then "true" else "false"
  | .string value => quote value
  | .binary operator left right =>
    "(" ++ Term.render left ++ " " ++ operator ++ " " ++ Term.render right ++ ")"
  | .call callee arguments => callee ++ "(" ++ ", ".intercalate (Term.renderAll arguments) ++ ")"
  | .construct callee arguments =>
    "new " ++ callee ++ "(" ++ ", ".intercalate (Term.renderAll arguments) ++ ")"

def Term.renderAll : List Term → List String
  | [] => []
  | value :: rest => Term.render value :: Term.renderAll rest

end

def Parameter.render (parameter : Parameter) : String :=
  match parameter.default? with
  | none => parameter.name
  | some default => parameter.name ++ " = " ++ default.render

/-- A line `depth` levels deep. -/
def indented (depth : Nat) (text : String) : String :=
  String.ofList (List.replicate (2 * depth) ' ') ++ text

mutual

/-- The lines of a statement that starts `depth` levels deep. -/
def Stmt.lines (depth : Nat) : Stmt → List String
  | .declare name value => [indented depth ("let " ++ name ++ " = " ++ value.render ++ ";")]
  | .assign name value => [indented depth (name ++ " = " ++ value.render ++ ";")]
  | .log value => [indented depth ("console.log(" ++ value.render ++ ");")]
  | .logEqual left right =>
    [indented depth ("console.log(" ++ left.render ++ " === " ++ right.render ++ ");")]
  | .returnValue value => [indented depth ("return " ++ value.render ++ ";")]
  | .yieldValue value => [indented depth ("yield " ++ value.render ++ ";")]
  | .evaluate value => [indented depth (value.render ++ ";")]
  | .function generator name parameters body =>
    indented depth
        ("function" ++ (if generator then "*" else "") ++ " " ++ name ++ "("
          ++ ", ".intercalate (parameters.map Parameter.render) ++ ") \x7b")
      :: Stmt.linesAll (depth + 1) body ++ [indented depth "\x7d"]
  | .loop pattern iterator low high body =>
    indented depth ("// predictive pattern: " ++ pattern)
      :: indented depth
        ("for (let " ++ iterator ++ " = " ++ low.render ++ "; " ++ iterator ++ " <= "
          ++ high.render ++ "; " ++ iterator ++ "++) \x7b")
      :: Stmt.linesAll (depth + 1) body ++ [indented depth "\x7d"]

def Stmt.linesAll (depth : Nat) : List Stmt → List String
  | [] => []
  | statement :: rest => Stmt.lines depth statement ++ Stmt.linesAll depth rest

end

/-- The text of a script: its statements with a blank line between them. -/
def render : List Stmt → String
  | [] => ""
  | statements =>
    "\n\n".intercalate (statements.map fun statement ↦ "\n".intercalate (statement.lines 0)) ++ "\n"

end Presage.Script
