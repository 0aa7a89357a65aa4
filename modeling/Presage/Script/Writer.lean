import Presage.Script.Emitter
import Presage.Script.Render

/-!
Writing a program as a script. A writer has the names of an emitter, the depth of the next line and
the lines written so far. It writes a statement line by line, one level deeper inside a block, and
the lines are taken after each statement at the top.
-/

set_option autoImplicit false
set_option relaxedAutoImplicit false

namespace Presage

/-- An emitter with the lines written so far and the depth of the next. -/
structure Writer where
  emitter : Emitter
  depth : Nat
  lines : List String

namespace Writer

def initial : Writer := ⟨.initial, 0, []⟩

/-- Goes on with the names of another emitter. -/
def withEmitter (writer : Writer) (emitter : Emitter) : Writer := { writer with emitter := emitter }

/-- Writes one line at the current depth. -/
def line (writer : Writer) (text : String) : Writer :=
  { writer with lines := writer.lines ++ [Script.indented writer.depth text] }

def indent (writer : Writer) : Writer := { writer with depth := writer.depth + 1 }

/-- One level back, unless the writer is at the top. -/
def dedent (writer : Writer) : Writer := { writer with depth := writer.depth - 1 }

/-- The lines written since they were last taken. -/
def take (writer : Writer) : String × Writer :=
  ("\n".intercalate writer.lines, { writer with lines := [] })

/-- How an expression is written with the current names. -/
def text (writer : Writer) (value : Expr) : String := (writer.emitter.term value).render

def parameterTexts (writer : Writer) (parameters : List Parameter) : List String :=
  parameters.map fun parameter ↦ (writer.emitter.parameter parameter).render

mutual

/-- Writes a statement. What stands in the line of a declaration is written with the names from
before it. -/
def statement (writer : Writer) : Statement → Writer
  | .functionDeclaration name _ parameters body =>
    let texts := writer.parameterTexts parameters
    let star := if Statement.anyYields body then "*" else ""
    let opened := (writer.withEmitter (writer.emitter.bind name)).line
      ("function" ++ star ++ " " ++ name ++ "(" ++ ", ".intercalate texts ++ ") \x7b")
    let entered := opened.withEmitter (opened.emitter.enterFunction parameters)
    let finished := (statements entered.indent body).dedent
    let closed := { finished.emitter.closeBlock with inFunction := writer.emitter.inFunction }
    (finished.withEmitter closed).line "\x7d"
  | .variableDeclaration target initializer =>
    let value := writer.text initializer
    let (name, declared) := writer.emitter.declare target
    (writer.withEmitter declared).line ("let " ++ name ++ " = " ++ value ++ ";")
  | .variableReassignment target newValue =>
    let value := writer.text newValue
    let (name, rebound) := writer.emitter.rebind target
    (writer.withEmitter rebound).line (name ++ " = " ++ value ++ ";")
  | .predictiveLoop iterator low high pattern body =>
    let lowText := writer.text low
    let highText := writer.text high
    let (name, declared) := writer.emitter.openBlock.declare iterator
    let opened := ((writer.withEmitter declared).line ("// predictive pattern: " ++ pattern)).line
      ("for (let " ++ name ++ " = " ++ lowText ++ "; " ++ name ++ " <= " ++ highText ++ "; "
        ++ name ++ "++) \x7b")
    let finished := (statements opened.indent body).dedent.line "\x7d"
    finished.withEmitter finished.emitter.closeBlock
  | .comparison left right =>
    writer.line ("console.log(" ++ writer.text left ++ " === " ++ writer.text right ++ ");")
  | .print value => writer.line ("console.log(" ++ writer.text value ++ ");")
  | .returnValue value => writer.line ("return " ++ writer.text value ++ ";")
  | .yieldValue value =>
    if writer.emitter.inFunction then writer.line ("yield " ++ writer.text value ++ ";")
    else writer.line ("console.log(" ++ writer.text value ++ ");")
  | .call invocation => writer.line ((writer.emitter.callTerm invocation).render ++ ";")

def statements (writer : Writer) : List Statement → Writer
  | [] => writer
  | first :: rest => statements (statement writer first) rest

end

/-- The texts of statements in turn, each taken when it has been written. -/
def chunks (writer : Writer) : List Statement → List String
  | [] => []
  | first :: rest =>
    let (text, next) := (writer.statement first).take
    text :: chunks next rest

end Writer

/-- The text of the script that a program is compiled to, with a blank line between the statements
at the top. -/
def Program.scriptText (program : Program) : String :=
  match Writer.initial.chunks program.statements with
  | [] => ""
  | texts => "\n\n".intercalate texts ++ "\n"

end Presage
