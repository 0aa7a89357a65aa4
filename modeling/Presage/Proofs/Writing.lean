import Presage.Compile

/-!
What a writer writes. A statement that is written adds its lines to those of the writer, at the
depth of the writer, and leaves the depth as it was (`Writer.statement_eq`): every `indent` has its
`dedent`, and no line is written above the top. The lines are those that the emitted statement has
by itself, so that the text of a program is that of its script (`Program.scriptText_eq`).
-/

set_option autoImplicit false
set_option relaxedAutoImplicit false

namespace Presage

namespace Writer

/-- Writing a statement or statements adds lines at the depth of the writer. -/
def wrote (writer : Writer) (emitter : Emitter) (lines : List String) : Writer :=
  ⟨emitter, writer.depth, writer.lines ++ lines⟩

/-- Lines written one level deeper are lines of the writer, which is then back at its depth. -/
theorem dedent_wrote_indent (writer : Writer) (emitter : Emitter) (lines : List String) :
    (writer.indent.wrote emitter lines).dedent = writer.wrote emitter lines := rfl

mutual

theorem statement_eq (writer : Writer) : ∀ statement : Statement,
    writer.statement statement =
      writer.wrote (writer.emitter.statement statement).2
        ((writer.emitter.statement statement).1.lines writer.depth)
  | .functionDeclaration name function parameters body => by
    simp only [statement, statements_eq _ body, dedent_wrote_indent, Emitter.statement,
      Script.Stmt.lines]
    simp only [wrote, withEmitter, line, indent, parameterTexts, List.append_assoc, List.map_map]
    rfl
  | .predictiveLoop iterator low high pattern body => by
    simp only [statement, statements_eq _ body, dedent_wrote_indent, Emitter.statement,
      Script.Stmt.lines]
    simp only [wrote, withEmitter, line, indent, List.append_assoc]
    rfl
  | .yieldValue value => by
    simp only [statement, Emitter.statement]
    cases writer.emitter.inFunction <;> rfl
  | .variableDeclaration _ _ => rfl
  | .variableReassignment _ _ => rfl
  | .comparison _ _ => rfl
  | .print _ => rfl
  | .returnValue _ => rfl
  | .call _ => rfl

theorem statements_eq (writer : Writer) : ∀ statements : List Statement,
    writer.statements statements =
      writer.wrote (writer.emitter.statements statements).2
        (Script.Stmt.linesAll writer.depth (writer.emitter.statements statements).1)
  | [] => by
    simp only [statements, wrote, Emitter.statements, Script.Stmt.linesAll, List.append_nil]
  | first :: rest => by
    simp only [statements, statement_eq writer first, statements_eq _ rest, wrote,
      Emitter.statements, Script.Stmt.linesAll, List.append_assoc]

end

/-- The texts that are taken are those of the emitted statements. -/
theorem chunks_eq (writer : Writer) (hlines : writer.lines = []) (statements : List Statement) :
    writer.chunks statements =
      (writer.emitter.statements statements).1.map fun statement ↦
        "\n".intercalate (statement.lines writer.depth) := by
  induction statements generalizing writer with
  | nil => rfl
  | cons first rest ih =>
    simp only [chunks, take, statement_eq, wrote, hlines, List.nil_append, Emitter.statements,
      List.map_cons]
    rw [ih _ rfl]

end Writer

/-- The text of a program is its script in writing. -/
theorem Program.scriptText_eq (program : Program) :
    program.scriptText = Script.render program.script := by
  unfold scriptText
  rw [Writer.chunks_eq _ rfl]
  show _ = Script.render (Writer.initial.emitter.statements program.statements).1
  cases (Writer.initial.emitter.statements program.statements).1 <;> rfl

/-- A source is compiled to the script of its program in writing. -/
theorem Source.exists_of_compile {source : Source} {folded : Bool} {text : String}
    (h : source.compile folded = .ok text) :
    ∃ program, source.program folded = .ok program ∧ text = Script.render program.script := by
  unfold Source.compile at h
  cases hprogram : source.program folded with
  | error cause =>
    rw [hprogram] at h
    cases h
  | ok program =>
    rw [hprogram] at h
    exact ⟨program, rfl, (Except.ok.inj h).symm.trans program.scriptText_eq⟩

end Presage
