import Mathlib.Data.List.Forall2
import Mathlib.Logic.Function.Iterate
import Presage.Proofs.ReadingInStep
import Presage.Proofs.Spans

/-!
Reading ends and makes progress. The result, `reading_progresses`, is about every place of every
stream of tokens.

No recursion of the readers reaches its bound (`Parse.RecursionEnds`): unfolded more often than
tokens are ahead, each of them reads what the reader does, with anything at all below. A run that
starts at a place ends at one that is not before it and not behind the end, with a result or not,
and a statement or an expression passes a token (`Parse.ReadsOn`). So what is looked at is always a
token of the stream (`TokenStream.InRange`).

All of it is what reading in step says of a stream and itself, where trees that are alike are equal
(`Node.Alike.eq`).
-/

set_option autoImplicit false
set_option relaxedAutoImplicit false

namespace Presage

/-! ### Reading one stream twice -/

theorem TokenStream.SameSpan.eq {stream : TokenStream} {span span' : Span}
    (h : stream.SameSpan stream span span') : span = span' := by
  obtain ⟨start, stop, -, hspan, hspan'⟩ := h
  exact Option.some.inj (hspan.symm.trans hspan')

theorem TokenStream.SameToken.eq {stream : TokenStream} {span span' : Span}
    (h : stream.SameToken stream span span') : span = span' := by
  obtain ⟨index, token, token', htoken, htoken', rfl, rfl⟩ := h
  rw [Option.some.inj (htoken.symm.trans htoken')]

/-- Trees that are alike in one stream are equal. -/
theorem Node.Alike.eq {stream : TokenStream} {node node' : Node}
    (h : Alike stream stream node node') : node = node' := by
  induction node using children_induction generalizing node' with
  | step node ih =>
    have hall : ∀ {nodes nodes' : List Node}, (∀ child ∈ nodes, child ∈ node.children) →
        List.Forall₂ (Alike stream stream) nodes nodes' → nodes = nodes' := by
      intro nodes nodes' hmem hnodes
      induction hnodes with
      | nil => rfl
      | cons hfirst _ ihrest =>
        obtain ⟨hchild, hrest⟩ := List.forall_mem_cons.mp hmem
        rw [ih _ hchild hfirst, ihrest hrest]
    cases h with
    | leaf hspan => rw [hspan.eq]
    | program hstatements => rw [hall (fun _ h ↦ by simp [children, h]) hstatements]
    | call hspan hcallee harguments =>
      rw [hspan.eq, ih _ (by simp [children]) hcallee,
        hall (fun _ h ↦ by simp [children, h]) harguments]
    | functionDefinition hspan hname hparameters hbody =>
      rw [hspan.eq, ih _ (by simp [children]) hname,
        hall (fun _ h ↦ by simp [children, h]) hparameters,
        hall (fun _ h ↦ by simp [children, h]) hbody]
    | predictiveLoop hspan hiterator hlow hhigh hpattern hbody =>
      rw [hspan.eq, ih _ (by simp [children]) hiterator, ih _ (by simp [children]) hlow,
        ih _ (by simp [children]) hhigh, ih _ (by simp [children]) hpattern,
        hall (fun _ h ↦ by simp [children, h]) hbody]
    | binary hspan hleft hoperator hright =>
      rw [hspan.eq, ih _ (by simp [children]) hleft, ih _ (by simp [children]) hoperator,
        ih _ (by simp [children]) hright]
    | parenthesized hspan hvalue | required hspan hvalue | print hspan hvalue
    | returnValue hspan hvalue | yieldValue hspan hvalue =>
      rw [hspan.eq, ih _ (by simp [children]) hvalue]
    | keywordArgument hspan hleft hright | optional hspan hleft hright
    | variableDeclaration hspan hleft hright | variableReassignment hspan hleft hright
    | comparison hspan hleft hright =>
      rw [hspan.eq, ih _ (by simp [children]) hleft, ih _ (by simp [children]) hright]

theorem TokenStream.SameOffside.refl (stream : TokenStream) : stream.SameOffside stream where
  length := rfl
  kind _ := rfl
  value _ := rfl
  inside _ _ _ _ _ := Iff.rfl

/-! ### Places and runs -/

/-- What is seen at a place are tokens of the stream, and passing a token leads to the next place
unless it is that of the end. -/
structure TokenStream.InRange (stream : TokenStream) (index : Nat) : Prop where
  current : stream.toList[index]? = some (stream.place index).current
  passedEnd : index = 0 ∧ (stream.place index).passedEnd = (stream.place index).position ∨
    ∃ token, stream.toList[index - 1]? = some token ∧
      (stream.place index).passedEnd = token.span.stop
  advance : Parse.advance (stream.place index) =
    .ok (stream.place index).current (stream.place (min (index + 1) stream.tokens.length))

namespace Parse

variable {α β : Type}

/-- How a run ends that was started at the place `index`: at a place from `least` on if it gives a
result, and otherwise at one from `index` on, with the token there to blame. The end of the stream
is not passed. -/
inductive Moves (stream : TokenStream) (index least : Nat) :
    EStateM.Result Diagnostic Cursor α → Prop
  | ok {last : Nat} {value : α} (hleast : least ≤ last) (hlast : last ≤ stream.tokens.length) :
      Moves stream index least (.ok value (stream.place last))
  | error {last : Nat} {cause : Cause} (hle : index ≤ last) (hlast : last ≤ stream.tokens.length) :
      Moves stream index least (.error ⟨cause, (stream.place last).position⟩ (stream.place last))

/-- From the place on, readers do not go back and do not pass the end. Those of statements and
expressions, and of the forms of both, pass a token. -/
structure ReadsOn (stream : TokenStream) (index : Nat) : Prop where
  anyExpression (least : BindingPower) :
    Moves stream index (index + 1) (expression .standard least (stream.place index))
  anyOperand {form : OperandForm}
    (hform : Grammar.standard.operand (stream.place index).current.kind = some form) :
    Moves stream index (index + 1) (operand (expression .standard) form (stream.place index))
  anyExtension (left : Node) {power : BindingPower} {form : ExtensionForm}
    (hform : Grammar.standard.extension (stream.place index).current.kind = some (power, form)) :
    Moves stream index (index + 1)
      (extension (expression .standard) power left form (stream.place index))
  anyArgument :
    Moves stream index (index + 1) (argument (expression .standard) (stream.place index))
  anyArguments :
    Moves stream index index (closedItems (argument (expression .standard)) (stream.place index))
  anyParameter : Moves stream index (index + 1) (parameter .standard (stream.place index))
  anyParameters :
    Moves stream index index (closedItems (parameter .standard) (stream.place index))
  anyStatement : Moves stream index (index + 1) (statement .standard (stream.place index))
  anyStatementForm {form : StatementForm}
    (hform : Grammar.standard.statement (stream.place index).current.kind = some form) :
    Moves stream index (index + 1)
      (statementForm .standard (statement .standard) form (stream.place index))
  anySimpleStatement :
    Moves stream index (index + 1) (simpleStatement .standard (stream.place index))
  anyBlock (continues : Cursor → Bool) :
    Moves stream index index (repeatWhile continues (statement .standard) (stream.place index))

/-- At the place no recursion of the readers reaches a bound. What is inside of expressions and
statements is read as these are; and unfolded more often than tokens are ahead, every recursion
reads the same, whatever `bottom` reads in place of further unfoldings. -/
structure RecursionEnds (stream : TokenStream) (index : Nat) : Prop where
  expressionsInside (least : BindingPower) :
    expressionLevel .standard (expression .standard) least (stream.place index) =
      expression .standard least (stream.place index)
  statementsInside :
    statementLevel .standard (statement .standard) (stream.place index) =
      statement .standard (stream.place index)
  nestedExpressions (least : BindingPower) (bottom : BindingPower → Parse Node) {depth : Nat}
    (hdepth : stream.tokens.length - index < depth) :
    (expressionLevel .standard)^[depth] bottom least (stream.place index) =
      expression .standard least (stream.place index)
  extensions (least : BindingPower) (bottom : Node → Parse Node) {form : OperandForm} {steps : Nat}
    (hform : Grammar.standard.operand (stream.place index).current.kind = some form)
    (hsteps : stream.tokens.length - index < steps) :
    (operand (expression .standard) form >>=
        (extendRound .standard (expression .standard) least)^[steps] bottom) (stream.place index) =
      expression .standard least (stream.place index)
  arguments (bottom : Parse (List Node)) {steps : Nat}
    (hsteps : stream.tokens.length - index < steps) :
    (itemsRound (argument (expression .standard)))^[steps] bottom (stream.place index) =
      itemsAtMost (argument (expression .standard)) (stream.place index).budget (stream.place index)
  parameters (bottom : Parse (List Node)) {steps : Nat}
    (hsteps : stream.tokens.length - index < steps) :
    (itemsRound (parameter .standard))^[steps] bottom (stream.place index) =
      itemsAtMost (parameter .standard) (stream.place index).budget (stream.place index)
  nestedStatements (bottom : Parse Node) {depth : Nat}
    (hdepth : stream.tokens.length - index < depth) :
    (statementLevel .standard)^[depth] bottom (stream.place index) =
      statement .standard (stream.place index)
  block (continues : Cursor → Bool) (bottom : Parse (List Node)) {steps : Nat}
    (hsteps : stream.tokens.length - index < steps) :
    (whileRound continues (statement .standard))^[steps] bottom (stream.place index) =
      repeatWhile continues (statement .standard) (stream.place index)

/-! ### From two readings of one stream -/

variable {stream : TokenStream} {index : Nat} {related : Nat → α → α → Prop}
  {run run' : EStateM.Result Diagnostic Cursor α}

theorem InStep.moves (h : InStep stream stream related index run run') {least : Nat}
    (hleast : ∀ {last : Nat} {value value' : α}, index ≤ last → related last value value' →
      least ≤ last) : Moves stream index least run := by
  cases h with
  | ok hle hlast hvalue => exact .ok (hleast hle hvalue) hlast
  | error hle hlast => exact .error hle hlast

theorem InStep.eq (h : InStep stream stream related index run run')
    (hrelated : ∀ {last : Nat} {value value' : α}, related last value value' → value = value') :
    run = run' := by
  cases h with
  | ok _ _ hvalue => rw [hrelated hvalue]
  | error => rfl

theorem AllAlike.eq {last : Nat} {nodes nodes' : List Node}
    (h : AllAlike stream stream last nodes nodes') : nodes = nodes' := by
  rw [← List.forall₂_eq_eq_eq]
  exact List.Forall₂.imp (fun _ _ halike ↦ Node.Alike.eq halike) h

/-- A tree that was read passed a token. -/
theorem Together.passes {reader : Parse Node}
    (h : Together stream stream (Read stream stream index) index reader reader) :
    Moves stream index (index + 1) (reader (stream.place index)) :=
  InStep.moves h fun _ hread ↦ hread.lt

theorem Together.stays {reader : Parse (List Node)}
    (h : Together stream stream (AllAlike stream stream) index reader reader) :
    Moves stream index index (reader (stream.place index)) :=
  InStep.moves h fun hle _ ↦ hle

theorem Together.trees_eq {reader reader' : Parse Node}
    (h : Together stream stream (Read stream stream index) index reader reader') :
    reader (stream.place index) = reader' (stream.place index) :=
  InStep.eq h fun hread ↦ hread.alike.eq

theorem Together.lists_eq {reader reader' : Parse (List Node)}
    (h : Together stream stream (AllAlike stream stream) index reader reader') :
    reader (stream.place index) = reader' (stream.place index) :=
  InStep.eq h AllAlike.eq

section Results

variable (stream) in
theorem expressions_from (start : Nat) (least : BindingPower) :
    TogetherFrom stream stream start (expression .standard least) (expression .standard least) :=
  (together_expression (.refl stream) least).mono (Nat.zero_le start)

variable (hindex : index ≤ stream.tokens.length)

include hindex

/-- An extension passes a token, whatever it extends. -/
theorem moves_extension (left : Node) {power : BindingPower} {form : ExtensionForm}
    (hform : Grammar.standard.extension (stream.place index).current.kind = some (power, form)) :
    Moves stream index (index + 1)
      (extension (expression .standard) power left form (stream.place index)) := by
  have hsame := TokenStream.SameOffside.refl stream
  have hlt := stream.lt_of_form rfl hindex hform
  have hinner := expressions_from stream (index + 1)
  suffices h : Together stream stream (fun last _ _ ↦ index + 1 ≤ last) index
      (extension (expression .standard) power left form)
      (extension (expression .standard) power left form) from InStep.moves h fun _ hless ↦ hless
  cases form with
  | binary =>
    refine Together.advance hsame hlt ?_
    refine Together.bind (hinner power _ (Nat.le_refl _) hlt) fun hle hlast _ ↦ ?_
    exact Together.pure hlast hle
  | call =>
    show Together _ _ _ _ (call (expression .standard) left) (call (expression .standard) left)
    unfold call
    by_cases hcallee : (!left.isIdentifier) = true
    · simp only [if_pos hcallee]
      exact Together.unexpectedBecause_bind hsame hindex _
    · simp only [if_neg hcallee]
      refine Together.advance hsame hlt ?_
      refine Together.bind (together_closedItems hsame (together_argument hsame hinner)
        (Nat.le_refl _) hlt) fun hle hlast _ ↦ ?_
      exact InStep.ok (Nat.le_refl _) hlast hle

theorem readsOn : ReadsOn stream index := by
  have hsame := TokenStream.SameOffside.refl stream
  have hinner := expressions_from stream (index + 1)
  have hargument := together_argument hsame (together_expression hsame)
  have hparameter := together_parameter hsame
  have hstatement := together_statement hsame
  constructor
  case anyExpression =>
    exact fun least ↦ (together_expression hsame least index (Nat.zero_le _) hindex).passes
  case anyOperand => exact fun hform ↦ (together_operand hsame hform hinner hindex).passes
  case anyExtension => exact fun left _ _ hform ↦ moves_extension hindex left hform
  case anyArgument => exact (hargument index (Nat.zero_le _) hindex).passes
  case anyArguments => exact (together_closedItems hsame hargument (Nat.zero_le _) hindex).stays
  case anyParameter => exact (hparameter index (Nat.zero_le _) hindex).passes
  case anyParameters => exact (together_closedItems hsame hparameter (Nat.zero_le _) hindex).stays
  case anyStatement => exact (hstatement index (Nat.zero_le _) hindex).passes
  case anyStatementForm =>
    exact fun hform ↦ (together_statementForm hsame hform (hstatement.mono (Nat.zero_le _))
      hindex).passes
  case anySimpleStatement => exact (together_simpleStatement hsame hindex).passes
  case anyBlock =>
    exact fun continues ↦ (together_repeatWhile hsame (hstatement.mono (Nat.zero_le _))
      (fun _ _ _ ↦ rfl) hindex).stays

/-- Expressions inside others are read as they are by themselves. -/
theorem expressionLevel_expression (least : BindingPower) :
    expressionLevel .standard (expression .standard) least (stream.place index) =
      expression .standard least (stream.place index) := by
  have hsame := TokenStream.SameOffside.refl stream
  have hinner : ∀ power, TogetherFrom stream stream (index + 1) (expression .standard power)
      ((expressionLevel .standard)^[stream.tokens.length - index] (fun _ ↦ unexpected) power) := by
    intro power place hplace hend
    show InStep stream stream _ place (expression .standard power (stream.place place)) _
    rw [expression_place]
    exact together_expressionLevels hsame power hend (by omega) (by omega)
  rw [expression_place, Function.iterate_succ_apply']
  exact (together_expressionLevel hsame hinner hindex).trees_eq

/-- Statements inside others are read as they are by themselves. -/
theorem statementLevel_statement :
    statementLevel .standard (statement .standard) (stream.place index) =
      statement .standard (stream.place index) := by
  have hsame := TokenStream.SameOffside.refl stream
  have hinner : TogetherFrom stream stream (index + 1) (statement .standard)
      ((statementLevel .standard)^[stream.tokens.length - index] unexpected) := by
    intro place hplace hend
    show InStep stream stream _ place (statement .standard (stream.place place)) _
    rw [statement_place]
    exact together_statementLevels hsame hend (by omega) (by omega)
  rw [statement_place, Function.iterate_succ_apply']
  exact (together_statementLevel hsame hinner hindex).trees_eq

/-- An expression is an operand and the extensions of it, however far these are unfolded. -/
theorem operand_bind_extendRound (least : BindingPower) (bottom : Node → Parse Node)
    {form : OperandForm} {steps : Nat}
    (hform : Grammar.standard.operand (stream.place index).current.kind = some form)
    (hsteps : stream.tokens.length - index < steps) :
    (operand (expression .standard) form >>=
        (extendRound .standard (expression .standard) least)^[steps] bottom) (stream.place index) =
      expression .standard least (stream.place index) := by
  have hsame := TokenStream.SameOffside.refl stream
  have hinner := expressions_from stream (index + 1)
  have hextended : Together stream stream (Read stream stream index) index
      (operand (expression .standard) form >>=
        (extendRound .standard (expression .standard) least)^[steps] bottom)
      (operand (expression .standard) form >>= fun left ↦ get >>= fun cursor ↦
        extendAtMost .standard (expression .standard) least cursor.budget left) := by
    refine Together.bind (together_operand hsame hform hinner hindex)
      fun {last left _} hle hlast hleft ↦ ?_
    show InStep stream stream _ last _ (extendAtMost .standard (expression .standard) least
      (stream.place last).budget _ (stream.place last))
    rw [extendAtMost_eq_iterate, TokenStream.budget_place]
    exact together_extendRounds hsame hinner hleft hlast (by omega) (Nat.lt_succ_self _)
  have hlevel : expressionLevel .standard (expression .standard) least (stream.place index) =
      (operand (expression .standard) form >>= fun left ↦ get >>= fun cursor ↦
        extendAtMost .standard (expression .standard) least cursor.budget left)
          (stream.place index) := by
    unfold expressionLevel
    rw [kind_bind, hform]
  rw [hextended.trees_eq, ← hlevel, expressionLevel_expression hindex]

theorem recursionEnds : RecursionEnds stream index := by
  have hsame := TokenStream.SameOffside.refl stream
  have hargument := together_argument hsame (together_expression hsame)
  have hparameter := together_parameter hsame
  have hstatement := together_statement hsame
  constructor
  case expressionsInside => exact expressionLevel_expression hindex
  case statementsInside => exact statementLevel_statement hindex
  case nestedExpressions =>
    intro least bottom depth hdepth
    rw [expression_place]
    exact (together_expressionLevels hsame least hindex hdepth (Nat.lt_succ_self _)).trees_eq
  case extensions => exact operand_bind_extendRound hindex
  case arguments =>
    intro bottom steps hsteps
    rw [itemsAtMost_eq_iterate, TokenStream.budget_place]
    exact (together_itemsRounds hsame hargument (Nat.zero_le _) hindex hsteps
      (Nat.lt_succ_self _)).lists_eq
  case parameters =>
    intro bottom steps hsteps
    rw [itemsAtMost_eq_iterate, TokenStream.budget_place]
    exact (together_itemsRounds hsame hparameter (Nat.zero_le _) hindex hsteps
      (Nat.lt_succ_self _)).lists_eq
  case nestedStatements =>
    intro bottom depth hdepth
    rw [statement_place]
    exact (together_statementLevels hsame hindex hdepth (Nat.lt_succ_self _)).trees_eq
  case block =>
    intro continues bottom steps hsteps
    rw [repeatWhile_place]
    exact (together_whileRounds hstatement (fun _ _ _ ↦ rfl) (Nat.zero_le _) hindex hsteps
      (Nat.lt_succ_self _)).lists_eq

end Results

end Parse

namespace TokenStream

theorem inRange {stream : TokenStream} {index : Nat} (hindex : index ≤ stream.tokens.length) :
    stream.InRange index := by
  refine ⟨stream.toList_getElem? hindex, ?_, ?_⟩
  · cases index with
    | zero => exact Or.inl ⟨rfl, rfl⟩
    | succ before =>
      exact Or.inr ⟨_, stream.toList_getElem? (Nat.le_of_lt hindex), stream.passedEnd_place hindex⟩
  · show EStateM.Result.ok _ (stream.place index).next = _
    rcases Nat.lt_or_eq_of_le hindex with hlt | rfl
    · rw [stream.next_place hlt, Nat.min_eq_left hlt]
    · rw [stream.next_place_length, Nat.min_eq_right (Nat.le_succ _)]

end TokenStream

/-! ### The result -/

/-- Reading ends, makes progress and stays within the stream. -/
theorem reading_progresses (stream : TokenStream) :
    (∀ index ≤ stream.tokens.length,
      stream.InRange index ∧ Parse.RecursionEnds stream index ∧ Parse.ReadsOn stream index) ∧
    Parse.Moves stream 0 0 (Parse.statements .standard (.start stream)) := by
  refine ⟨fun index hindex ↦ ⟨TokenStream.inRange hindex, Parse.recursionEnds hindex,
    Parse.readsOn hindex⟩, ?_⟩
  exact (Parse.together_statements (.refl stream)).stays

/-- A loop that nothing closes is read up to the end, and not beyond. -/
theorem reading_progresses_unclosed :
    ∃ stream,
      TokenStream.ofSource (.ofText "" "for i in predictive_range(0, f(1 + 2), p) \x7b print i") =
        .ok stream ∧
      (∃ cause, Node.ofTokens stream = .error ⟨cause, stream.eof.span.start⟩) ∧
      (∀ index ≤ stream.tokens.length,
        stream.InRange index ∧ Parse.RecursionEnds stream index ∧ Parse.ReadsOn stream index) ∧
      Parse.Moves stream 0 0 (Parse.statements .standard (.start stream)) := by
  obtain ⟨stream, hstream, hfailed⟩ : ∃ stream,
      TokenStream.ofSource (.ofText "" "for i in predictive_range(0, f(1 + 2), p) \x7b print i") =
        .ok stream ∧
      (Node.ofTokens stream).map (fun _ ↦ ()) =
        .error ⟨.unexpectedTokenDetailed "EOF" "expected a statement", stream.eof.span.start⟩ :=
    exists_of_any (by decide +kernel)
  exact ⟨stream, hstream, ⟨_, of_map_eq_error hfailed⟩, reading_progresses stream⟩

end Presage
