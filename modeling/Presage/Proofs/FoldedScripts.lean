import Mathlib.Data.List.Forall2
import Presage.Proofs.Lockstep
import Presage.Proofs.Writing

/-!
What folding changes in a script: the terms, and nothing else. The name that an emitter chooses for
a variable depends on everything that was bound before it, so a script and that of the folded
program are compared step by step. Every statement and its folded form are met in the same state
(`Emitter.visitsAll_foldAll`), as no choice of a name looks at an expression.

`Script.Stmt.bindings` lists what a statement binds or assigns, under the names in the script.
`Script.Stmt.layout` gives its lines with the terms still in their places, and
`Script.Stmt.lines_eq_map_layout` says that these are the lines as they are written. Two lines agree
when they have the same depth and the same fixed texts, and terms in the same places that come from
one expression, folded in the second line (`Script.Line.Agrees`). `Writer.chunks_eq_layout` ties the
layouts to the running writer, and `folding_keeps_names` is the result for all programs, whether
they come from a source or not.
-/

set_option autoImplicit false
set_option relaxedAutoImplicit false

namespace Presage

/-! ### Bindings and lines of a script -/

namespace Script

/-- Something that a script binds or assigns, under the name it has there. -/
inductive Binding where
  | declare (name : String)
  | assign (name : String)
  | iterator (name : String)
  | function (generator : Bool) (name : String)
  | parameter (name : String)
deriving DecidableEq

mutual

/-- What a statement binds and assigns, in the order of writing. -/
def Stmt.bindings : Stmt → List Binding
  | .declare name _ => [.declare name]
  | .assign name _ => [.assign name]
  | .function generator name parameters body =>
    .function generator name ::
      (parameters.map fun parameter ↦ .parameter parameter.name) ++ Stmt.bindingsAll body
  | .loop _ iterator _ _ body => .iterator iterator :: Stmt.bindingsAll body
  | _ => []

def Stmt.bindingsAll : List Stmt → List Binding
  | [] => []
  | statement :: rest => Stmt.bindings statement ++ Stmt.bindingsAll rest

end

/-- A stretch of a line: a text that is fixed, or the place of a term. -/
inductive Piece where
  | text (text : String)
  | place (term : Term)

/-- A line at its depth, as the pieces it is put together from. -/
structure Line where
  depth : Nat
  pieces : List Piece

def Piece.render : Piece → String
  | .text fixed => fixed
  | .place term => term.render

def Line.render (line : Line) : String :=
  indented line.depth (String.join (line.pieces.map Piece.render))

def Parameter.pieces (parameter : Parameter) : List Piece :=
  match parameter.default? with
  | none => [.text parameter.name]
  | some default => [.text (parameter.name ++ " = "), .place default]

mutual

/-- The lines of a statement that starts `depth` levels deep, with the terms in their places. -/
def Stmt.layout (depth : Nat) : Stmt → List Line
  | .declare name value => [⟨depth, [.text ("let " ++ name ++ " = "), .place value, .text ";"]⟩]
  | .assign name value => [⟨depth, [.text (name ++ " = "), .place value, .text ";"]⟩]
  | .log value => [⟨depth, [.text "console.log(", .place value, .text ");"]⟩]
  | .logEqual left right =>
    [⟨depth, [.text "console.log(", .place left, .text " === ", .place right, .text ");"]⟩]
  | .returnValue value => [⟨depth, [.text "return ", .place value, .text ";"]⟩]
  | .yieldValue value => [⟨depth, [.text "yield ", .place value, .text ";"]⟩]
  | .evaluate value => [⟨depth, [.place value, .text ";"]⟩]
  | .function generator name parameters body =>
    ⟨depth,
        .text ("function" ++ (if generator then "*" else "") ++ " " ++ name ++ "(") ::
          [Piece.text ", "].intercalate (parameters.map Parameter.pieces) ++ [.text ") \x7b"]⟩
      :: Stmt.layoutAll (depth + 1) body ++ [⟨depth, [.text "\x7d"]⟩]
  | .loop pattern iterator low high body =>
    ⟨depth, [.text ("// predictive pattern: " ++ pattern)]⟩
      :: ⟨depth,
          [.text ("for (let " ++ iterator ++ " = "), .place low, .text ("; " ++ iterator ++ " <= "),
            .place high, .text ("; " ++ iterator ++ "++) \x7b")]⟩
      :: Stmt.layoutAll (depth + 1) body ++ [⟨depth, [.text "\x7d"]⟩]

def Stmt.layoutAll (depth : Nat) : List Stmt → List Line
  | [] => []
  | statement :: rest => Stmt.layout depth statement ++ Stmt.layoutAll depth rest

end

/-! ### Lines as they are written -/

theorem Parameter.join_pieces (parameter : Parameter) :
    String.join (parameter.pieces.map Piece.render) = parameter.render := by
  unfold pieces render
  cases parameter.default? with
  | none => simp [Piece.render]
  | some default => simp [Piece.render]

/-- Lists of pieces with a text between them are written with that text between what they are. -/
theorem join_intercalate (separator : String) (groups : List (List Piece)) :
    String.join (([Piece.text separator].intercalate groups).map Piece.render) =
      separator.intercalate (groups.map fun group ↦ String.join (group.map Piece.render)) := by
  induction groups with
  | nil => rfl
  | cons group rest ih =>
    cases rest with
    | nil => simp
    | cons next rest =>
      rw [List.intercalate_cons_cons, List.map_append, List.map_append, String.join_append,
        String.join_append, ih]
      simp [Piece.render]

mutual

/-- The layout of a statement is written as its lines. -/
theorem Stmt.lines_eq_map_layout (depth : Nat) : ∀ statement : Stmt,
    statement.lines depth = (statement.layout depth).map Line.render
  | .declare _ _ | .assign _ _ | .log _ | .logEqual _ _ | .returnValue _ | .yieldValue _
  | .evaluate _ => by
    simp [lines, layout, Line.render, Piece.render, String.append_assoc]
  | .function generator name parameters body => by
    have hparameters : parameters.map Parameter.render = (parameters.map Parameter.pieces).map
        fun group ↦ String.join (group.map Piece.render) := by
      rw [List.map_map]
      exact List.map_congr_left fun parameter _ ↦ parameter.join_pieces.symm
    simp only [lines, layout, List.map_append, List.map_cons, List.map_nil,
      Stmt.linesAll_eq_map_layoutAll (depth + 1) body, hparameters, ← join_intercalate]
    simp [Line.render, Piece.render, String.append_assoc]
  | .loop pattern iterator low high body => by
    simp only [lines, layout, List.map_append, List.map_cons, List.map_nil,
      Stmt.linesAll_eq_map_layoutAll (depth + 1) body]
    simp [Line.render, Piece.render, String.append_assoc]

theorem Stmt.linesAll_eq_map_layoutAll (depth : Nat) : ∀ statements : List Stmt,
    linesAll depth statements = (layoutAll depth statements).map Line.render
  | [] => rfl
  | statement :: rest => by
    rw [linesAll, layoutAll, List.map_append, Stmt.lines_eq_map_layout depth statement,
      Stmt.linesAll_eq_map_layoutAll depth rest]

end

/-! ### Lines that agree -/

/-- The same text, or places of terms that come from one expression and from it folded. -/
inductive Piece.Agrees : Piece → Piece → Prop
  | text {fixed : String} : Agrees (.text fixed) (.text fixed)
  | place {emitter : Emitter} {value : Expr} :
      Agrees (.place (emitter.term value)) (.place (emitter.term value.fold))

/-- The lines have the same depth and are put together alike, from the same texts and from terms in
the same places. -/
structure Line.Agrees (first second : Line) : Prop where
  depth : first.depth = second.depth
  pieces : List.Forall₂ Piece.Agrees first.pieces second.pieces

theorem Piece.Agrees.intercalate {separator : Piece} (hseparator : separator.Agrees separator)
    {first second : List (List Piece)}
    (h : List.Forall₂ (List.Forall₂ Piece.Agrees) first second) :
    List.Forall₂ Piece.Agrees ([separator].intercalate first)
      ([separator].intercalate second) := by
  induction h with
  | nil => exact .nil
  | @cons group other groups others hgroup hgroups ih =>
    cases hgroups with
    | nil => simpa using hgroup
    | cons =>
      rw [List.intercalate_cons_cons, List.intercalate_cons_cons]
      exact List.rel_append (List.rel_append hgroup (.cons hseparator .nil)) ih

/-- The lines of two statements that start `depth` levels deep agree one by one. -/
def Stmt.Agrees (depth : Nat) (first second : Stmt) : Prop :=
  List.Forall₂ Line.Agrees (first.layout depth) (second.layout depth)

theorem Stmt.layoutAll_agrees {depth : Nat} {first second : List Stmt}
    (h : List.Forall₂ (Stmt.Agrees depth) first second) :
    List.Forall₂ Line.Agrees (layoutAll depth first) (layoutAll depth second) := by
  induction h with
  | nil => exact .nil
  | cons hfirst _ ih => exact List.rel_append hfirst ih

end Script

/-! ### Folded statements -/

mutual

/-- Folding keeps whether a statement yields. -/
theorem Statement.yields_fold : ∀ statement : Statement, statement.folded.yields = statement.yields
  | .predictiveLoop _ _ _ _ body => by
    simp only [Statement.folded, Statement.yields]
    exact Statement.anyYields_foldAll body
  | .functionDeclaration _ _ _ _ | .variableDeclaration _ _ | .variableReassignment _ _
  | .comparison _ _ | .print _ | .returnValue _ | .yieldValue _ | .call _ => rfl

theorem Statement.anyYields_foldAll : ∀ statements : List Statement,
    Statement.anyYields (Statement.foldedAll statements) = Statement.anyYields statements
  | [] => rfl
  | statement :: rest => by
    rw [Statement.foldedAll, Statement.anyYields, Statement.anyYields,
      Statement.yields_fold statement, Statement.anyYields_foldAll rest]

end

namespace Emitter

open Script (Piece Line)

mutual

/-- A statement and its folded form bind the same names, met in the same state. -/
theorem bindings_fold (emitter : Emitter) : ∀ statement : Statement,
    (emitter.statement statement.folded).1.bindings = (emitter.statement statement).1.bindings
  | .functionDeclaration name function parameters body => by
    simp only [Statement.folded, statement, Script.Stmt.bindings, Statement.anyYields_foldAll,
      enterFunction_congr _ (Parameter.map_name_fold parameters), bindingsAll_foldAll _ body,
      List.map_map]
    rfl
  | .predictiveLoop iterator _ _ _ body => by
    simp only [Statement.folded, statement, Script.Stmt.bindings, bindingsAll_foldAll _ body]
  | .yieldValue _ => by
    simp only [Statement.folded, statement]
    split <;> rfl
  | .variableDeclaration _ _ | .variableReassignment _ _ | .comparison _ _ | .print _
  | .returnValue _ | .call _ => rfl

theorem bindingsAll_foldAll (emitter : Emitter) : ∀ statements : List Statement,
    Script.Stmt.bindingsAll (emitter.statements (Statement.foldedAll statements)).1 =
      Script.Stmt.bindingsAll (emitter.statements statements).1
  | [] => rfl
  | first :: rest => by
    simp only [Statement.foldedAll, statements, Script.Stmt.bindingsAll, state_fold emitter first,
      bindings_fold emitter first, bindingsAll_foldAll _ rest]

end

/-- Parameters are written under their names, each with its default or the folded one. -/
theorem pieces_fold (emitter : Emitter) (parameters : List Parameter) :
    List.Forall₂ (List.Forall₂ Piece.Agrees)
      ((parameters.map emitter.parameter).map Script.Parameter.pieces)
      (((parameters.map Parameter.fold).map emitter.parameter).map Script.Parameter.pieces) := by
  induction parameters with
  | nil => exact .nil
  | cons parameter rest ih =>
    refine .cons ?_ ih
    obtain ⟨name, default?⟩ := parameter
    cases default? with
    | none => exact .cons .text .nil
    | some default => exact .cons .text (.cons .place .nil)

/-- The line with one term between two texts. -/
theorem agrees_around (emitter : Emitter) (depth : Nat) (before after : String) (value : Expr) :
    Line.Agrees ⟨depth, [.text before, .place (emitter.term value), .text after]⟩
      ⟨depth, [.text before, .place (emitter.term value.fold), .text after]⟩ :=
  ⟨rfl, .cons .text (.cons .place (.cons .text .nil))⟩

mutual

/-- The lines of a statement and of its folded form agree, met in the same state. -/
theorem agrees_fold (emitter : Emitter) (depth : Nat) : ∀ statement : Statement,
    Script.Stmt.Agrees depth (emitter.statement statement).1 (emitter.statement statement.folded).1
  | .functionDeclaration name function parameters body => by
    have hcomma : (Piece.text ", ").Agrees (.text ", ") := .text
    have hparameters := hcomma.intercalate (pieces_fold emitter parameters)
    have hbody := Script.Stmt.layoutAll_agrees (agree_foldAll
      ((emitter.bind name).enterFunction parameters) (depth + 1) body)
    simp only [Script.Stmt.Agrees, Statement.folded, statement, Script.Stmt.layout,
      Statement.anyYields_foldAll, enterFunction_congr _ (Parameter.map_name_fold parameters)]
    refine .cons ⟨rfl, .cons .text (List.rel_append hparameters (.cons .text .nil))⟩ ?_
    exact List.rel_append hbody (.cons ⟨rfl, .cons .text .nil⟩ .nil)
  | .predictiveLoop iterator low high pattern body => by
    have hbody := Script.Stmt.layoutAll_agrees
      (agree_foldAll (emitter.openBlock.declare iterator).2 (depth + 1) body)
    simp only [Script.Stmt.Agrees, Statement.folded, statement, Script.Stmt.layout]
    refine .cons ⟨rfl, .cons .text .nil⟩ (.cons ⟨rfl, ?_⟩ ?_)
    · exact .cons .text (.cons .place (.cons .text (.cons .place (.cons .text .nil))))
    · exact List.rel_append hbody (.cons ⟨rfl, .cons .text .nil⟩ .nil)
  | .variableDeclaration _ value | .variableReassignment _ value | .print value
  | .returnValue value => .cons (agrees_around emitter depth _ _ value) .nil
  | .yieldValue value => by
    simp only [Statement.folded, statement]
    split <;> exact .cons (agrees_around emitter depth _ _ value) .nil
  | .comparison _ _ =>
    .cons ⟨rfl, .cons .text (.cons .place (.cons .text (.cons .place (.cons .text .nil))))⟩ .nil
  | .call invocation => by
    have hplace := @Piece.Agrees.place emitter (.call invocation)
    exact .cons ⟨rfl, .cons hplace (.cons .text .nil)⟩ .nil

theorem agree_foldAll (emitter : Emitter) (depth : Nat) : ∀ statements : List Statement,
    List.Forall₂ (Script.Stmt.Agrees depth) (emitter.statements statements).1
      (emitter.statements (Statement.foldedAll statements)).1
  | [] => .nil
  | first :: rest => by
    simp only [Statement.foldedAll, statements, state_fold emitter first]
    exact .cons (agrees_fold emitter depth first) (agree_foldAll _ depth rest)

end

end Emitter

/-- The texts that a writer takes are the lines of the layouts. -/
theorem Writer.chunks_eq_layout (program : Program) :
    Writer.initial.chunks program.statements =
      program.script.map fun statement ↦
        "\n".intercalate ((statement.layout 0).map Script.Line.render) := by
  rw [Writer.chunks_eq _ rfl]
  exact List.map_congr_left fun statement _ ↦
    congrArg _ (Script.Stmt.lines_eq_map_layout 0 statement)

/-- Folding a program changes nothing in its script but the terms, whatever bodies its functions
have. The emitter meets the folded statements in the states in which it meets the statements; it
declares, assigns and iterates under the same names in the same order, and writes the same
functions, with a star or without, and the same parameters; and its lines are as many, as deep and
put together alike, with the term of a folded expression where the other script has that of the
expression. These are the lines that the writer writes, of every program. -/
theorem folding_keeps_names (program : Program) (bodies : Bodies) :
    Emitter.initial.visitsAll (program.fold bodies).1.statements =
        (Emitter.initial.visitsAll program.statements).map
          (Prod.map id fun statement ↦ (statement.fold true bodies).1) ∧
      Script.Stmt.bindingsAll (program.fold bodies).1.script =
        Script.Stmt.bindingsAll program.script ∧
      List.Forall₂ (Script.Stmt.Agrees 0) program.script (program.fold bodies).1.script ∧
      ∀ written : Program, Writer.initial.chunks written.statements =
        written.script.map fun statement ↦
          "\n".intercalate ((statement.layout 0).map Script.Line.render) := by
  simp only [Program.fold_fst, Statement.fold_fst]
  exact ⟨Emitter.visitsAll_foldAll .initial program.statements,
    Emitter.bindingsAll_foldAll .initial program.statements,
    Emitter.agree_foldAll .initial 0 program.statements, Writer.chunks_eq_layout⟩

end Presage
