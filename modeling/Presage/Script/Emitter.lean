import Presage.Bindings
import Presage.Program.Basic
import Presage.Script.Basic

/-!
From a program to a script. An emitter keeps, for every open block of the script, the names that the
names of the program are written as there, and for every variable the name it is written as. A
variable that is declared takes a name that no open block uses; functions and parameters keep
theirs.
-/

set_option autoImplicit false
set_option relaxedAutoImplicit false

namespace Presage

/-- What is known while a script is emitted. -/
structure Emitter where
  /-- The names bound in the innermost open block, with how they are written. -/
  block : Bindings String String
  /-- The blocks around it, from the inside out. -/
  outer : List (Bindings String String)
  /-- How variables are written, by identity. -/
  names : Bindings Nat String
  inFunction : Bool

namespace Emitter

/-- Before anything is emitted. -/
def initial : Emitter := ⟨.empty, [], .empty, false⟩

def openBlock (emitter : Emitter) : Emitter :=
  { emitter with block := .empty, outer := emitter.block :: emitter.outer }

/-- Closes the innermost block, unless it is the only one. -/
def closeBlock (emitter : Emitter) : Emitter :=
  match emitter.outer with
  | [] => emitter
  | block :: outer => { emitter with block := block, outer := outer }

/-- The names written in the open blocks. -/
def visible (emitter : Emitter) : List String :=
  (emitter.block :: emitter.outer).flatMap Bindings.values

/-- Binds a name that is written as it is. -/
def bind (emitter : Emitter) (name : String) : Emitter :=
  { emitter with block := emitter.block.insert name name }

/-- The names a variable may take, in order: its own, then with a number from one on. -/
def candidate (name : String) : Nat → String
  | 0 => name
  | number + 1 => name ++ "_" ++ (number + 1).repr

/-- The first candidate that is not taken. Of one more candidates than there are names taken, one
is free. -/
def freshName (taken : List String) (name : String) : String :=
  let number? := (List.range (taken.length + 1)).find? fun number ↦
    !taken.contains (candidate name number)
  candidate name (number?.getD (taken.length + 1))

/-- Binds a variable in the innermost block under a name that no open block uses. -/
def declare (emitter : Emitter) (target : Variable) : String × Emitter :=
  let written := freshName emitter.visible target.name
  (written,
    { emitter with
      block := emitter.block.insert target.name written
      names := emitter.names.insert target.id written })

/-- Gives a variable the name that its name has in the innermost block, or declares it. -/
def rebind (emitter : Emitter) (target : Variable) : String × Emitter :=
  match emitter.block.get? target.name with
  | some written => (written, { emitter with names := emitter.names.insert target.id written })
  | none => emitter.declare target

/-- How a variable is written; one that was not declared keeps its own name. -/
def nameOf (emitter : Emitter) (target : Variable) : String :=
  (emitter.names.get? target.id).getD target.name

/-! ### Expressions -/

/-- How an operator is written in a script. -/
def scriptOperator (operator : String) : String :=
  if operator = "and" then "&&" else if operator = "or" then "||" else operator

mutual

def term (emitter : Emitter) : Expr → Script.Term
  | .call invocation => callTerm emitter invocation
  | .binary operator left right _ =>
    .binary (scriptOperator operator) (term emitter left) (term emitter right)
  | .boolean value => .boolean value
  | .number value _ => .number value
  | .string value _ => .string value
  | .reference target => .name (emitter.nameOf target)
  | .functionReference target => .name target.name

def terms (emitter : Emitter) : List Expr → List Script.Term
  | [] => []
  | value :: rest => term emitter value :: terms emitter rest

def callTerm (emitter : Emitter) : Call → Script.Term
  | ⟨.function target, arguments, _⟩ => .call target.name (terms emitter arguments)
  | ⟨.struct target, arguments, _⟩ => .construct target.name (terms emitter arguments)

end

def parameter (emitter : Emitter) (parameter : Parameter) : Script.Parameter :=
  ⟨parameter.name, parameter.default?.map (term emitter)⟩

/-! ### Statements -/

end Emitter

mutual

/-- The statement yields, itself or in a loop inside it; functions inside it do not count. -/
def Statement.yields : Statement → Bool
  | .yieldValue _ => true
  | .predictiveLoop _ _ _ _ body => Statement.anyYields body
  | _ => false

def Statement.anyYields : List Statement → Bool
  | [] => false
  | statement :: rest => Statement.yields statement || Statement.anyYields rest

end

namespace Emitter

/-- The block of a function's body, with its parameters. -/
def enterFunction (emitter : Emitter) (parameters : List Parameter) : Emitter :=
  { parameters.foldl (fun state parameter ↦ state.bind parameter.name) emitter.openBlock with
    inFunction := true }

mutual

/-- The script of a statement. A value is yielded inside a function and logged outside. -/
def statement (emitter : Emitter) : Statement → Script.Stmt × Emitter
  | .functionDeclaration name _ parameters body =>
    let bound := emitter.bind name
    let (lines, finished) := statements (bound.enterFunction parameters) body
    (.function (Statement.anyYields body) name (parameters.map emitter.parameter) lines,
      { finished.closeBlock with inFunction := emitter.inFunction })
  | .variableDeclaration target initializer =>
    let (name, declared) := emitter.declare target
    (.declare name (emitter.term initializer), declared)
  | .variableReassignment target value =>
    let (name, rebound) := emitter.rebind target
    (.assign name (emitter.term value), rebound)
  | .predictiveLoop iterator low high pattern body =>
    let (name, declared) := emitter.openBlock.declare iterator
    let (lines, finished) := statements declared body
    (.loop pattern name (emitter.term low) (emitter.term high) lines, finished.closeBlock)
  | .comparison left right => (.logEqual (emitter.term left) (emitter.term right), emitter)
  | .print value => (.log (emitter.term value), emitter)
  | .returnValue value => (.returnValue (emitter.term value), emitter)
  | .yieldValue value =>
    (if emitter.inFunction then .yieldValue (emitter.term value) else .log (emitter.term value),
      emitter)
  | .call invocation => (.evaluate (emitter.callTerm invocation), emitter)

def statements (emitter : Emitter) : List Statement → List Script.Stmt × Emitter
  | [] => ([], emitter)
  | first :: rest =>
    let (line, next) := statement emitter first
    let (lines, last) := statements next rest
    (line :: lines, last)

end

end Emitter

/-- The script of a program. -/
def Program.script (program : Program) : List Script.Stmt :=
  (Emitter.initial.statements program.statements).1

end Presage
