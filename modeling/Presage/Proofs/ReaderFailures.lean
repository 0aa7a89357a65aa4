import Presage.Node.Statement

/-!
Where readers fail. A reader `Reports` to a stream when, from any place in it, it either stops at a
place in it or fails at the start of one of its tokens, the token that marks the end included, with
a cause that a text has before it is a tree. Readers are put together from parts that do, so all of
them do, for any grammar: the results are `Parse.reports_expression`, `Parse.reports_statement` and
`Node.syntactic_of_ofTokens`.
-/

set_option autoImplicit false
set_option relaxedAutoImplicit false

namespace Presage

/-- Causes that no text should lead to: trees and operators that are not of the language. -/
def Cause.isInternal : Cause → Bool
  | .invalidOperator _ | .unexpectedNode _ => true
  | _ => false

/-- Causes that a text has before it is a tree. -/
def Cause.isSyntactic : Cause → Bool
  | .unrecognisedToken _ | .unexpectedToken _ => true
  | .unexpectedTokenDetailed _ _ | .numberParse _ => true
  | _ => false

theorem Cause.isInternal_of_isSyntactic {cause : Cause} (h : cause.isSyntactic = true) :
    cause.isInternal = false := by
  cases cause with
  | invalidOperator | unexpectedNode => cases h
  | _ => rfl

/-- A token of the stream, or the mark of its end, starts at the position. -/
def TokenStream.StartsAt (stream : TokenStream) (position : Position) : Prop :=
  ∃ token ∈ stream.toList, token.span.start = position

/-! ### Places in a stream -/

/-- The cursor stands in the stream. -/
structure Cursor.Within (stream : TokenStream) (cursor : Cursor) : Prop where
  ahead : ∀ token ∈ cursor.ahead, token ∈ stream.tokens
  eof : cursor.eof = stream.eof

namespace Cursor.Within

variable {stream : TokenStream} {cursor : Cursor}

theorem start (stream : TokenStream) : (Cursor.start stream).Within stream :=
  ⟨fun _ h ↦ h, rfl⟩

theorem next (h : cursor.Within stream) : cursor.next.Within stream := by
  unfold Cursor.next
  split
  · exact h
  · next token rest hahead =>
    refine ⟨fun other hother ↦ h.ahead other ?_, h.eof⟩
    rw [hahead]
    exact List.mem_cons_of_mem token hother

theorem current_mem (h : cursor.Within stream) : cursor.current ∈ stream.toList := by
  unfold Cursor.current
  cases hahead : cursor.ahead with
  | nil =>
    refine List.mem_append_right _ ?_
    rw [← h.eof]
    exact List.mem_singleton_self _
  | cons token rest =>
    refine List.mem_append_left _ (h.ahead token ?_)
    rw [hahead]
    exact List.mem_cons_self

end Cursor.Within

namespace Parse

variable {stream : TokenStream} {α β : Type}

/-- From a place in the stream, the reader stops at a place in it or fails at one of its tokens. -/
def Reports (stream : TokenStream) (reader : Parse α) : Prop :=
  ∀ cursor : Cursor, cursor.Within stream →
    match reader cursor with
    | .ok _ last => last.Within stream
    | .error diagnostic _ =>
      diagnostic.cause.isSyntactic = true ∧ stream.StartsAt diagnostic.position

namespace Reports

theorem pure (value : α) : Reports stream (Pure.pure value : Parse α) := fun _ h ↦ h

theorem bind {first : Parse α} {second : α → Parse β} (hfirst : Reports stream first)
    (hsecond : ∀ value, Reports stream (second value)) : Reports stream (first >>= second) := by
  intro cursor hcursor
  have hresult := hfirst cursor hcursor
  show match EStateM.bind first second cursor with
    | .ok _ last => last.Within stream
    | .error diagnostic _ =>
      diagnostic.cause.isSyntactic = true ∧ stream.StartsAt diagnostic.position
  unfold EStateM.bind
  cases hread : first cursor with
  | ok value last =>
    rw [hread] at hresult
    exact hsecond value last hresult
  | error diagnostic last =>
    rw [hread] at hresult
    exact hresult

/-- What is read from the current token may depend on it being one of the stream. -/
theorem bind_current {second : Token → Parse β}
    (hsecond : ∀ token ∈ stream.toList, Reports stream (second token)) :
    Reports stream (Parse.current >>= second) :=
  fun cursor hcursor ↦ hsecond cursor.current hcursor.current_mem cursor hcursor

theorem get : Reports stream (MonadState.get : Parse Cursor) := fun _ h ↦ h

theorem kind : Reports stream Parse.kind := fun _ h ↦ h

theorem spanFrom (start : Position) : Reports stream (Parse.spanFrom start) := fun _ h ↦ h

theorem advance : Reports stream Parse.advance := fun _ h ↦ h.next

theorem throw {diagnostic : Diagnostic} (hcause : diagnostic.cause.isSyntactic = true)
    (hposition : stream.StartsAt diagnostic.position) :
    Reports stream (throw diagnostic : Parse α) :=
  fun _ _ ↦ ⟨hcause, hposition⟩

theorem unexpected : Reports stream (Parse.unexpected : Parse α) :=
  fun _ h ↦ ⟨rfl, _, h.current_mem, rfl⟩

theorem unexpectedBecause (message : String) :
    Reports stream (Parse.unexpectedBecause message : Parse α) :=
  fun _ h ↦ ⟨rfl, _, h.current_mem, rfl⟩

theorem ite {condition : Prop} [Decidable condition] {first second : Parse α}
    (hfirst : Reports stream first) (hsecond : Reports stream second) :
    Reports stream (if condition then first else second) := by
  split
  · exact hfirst
  · exact hsecond

/-- A check that may fail before the rest is read. -/
theorem guard {condition : Prop} [Decidable condition] {failure : Parse Unit}
    {rest : Unit → Parse α} (hfailure : Reports stream failure)
    (hrest : ∀ result, Reports stream (rest result)) :
    Reports stream (if condition then failure >>= rest else rest ()) :=
  .ite (.bind hfailure hrest) (hrest ())

end Reports

/-! ### Repetitions -/

theorem reports_expectOr {otherwise : Parse Token} (h : Reports stream otherwise)
    (expected : TokenKind) : Reports stream (expectOr otherwise expected) :=
  .bind .kind fun _ ↦ .ite .advance h

theorem reports_expect (expected : TokenKind) : Reports stream (expect expected) :=
  reports_expectOr .unexpected expected

theorem reports_expectIdentifier (message : String) :
    Reports stream (expectIdentifier message) :=
  .bind (reports_expectOr (.unexpectedBecause message) .identifier) fun _ ↦ .pure _

theorem reports_whileAtMost (continues : Cursor → Bool) {item : Parse α}
    (h : Reports stream item) (steps : Nat) :
    Reports stream (whileAtMost continues item steps) := by
  induction steps with
  | zero => exact .unexpected
  | succ steps ih =>
    refine .bind .get fun _ ↦ .ite ?_ (.pure _)
    exact .bind h fun _ ↦ .bind ih fun _ ↦ .pure _

theorem reports_repeatWhile (continues : Cursor → Bool) {item : Parse α}
    (h : Reports stream item) : Reports stream (repeatWhile continues item) :=
  fun cursor ↦ reports_whileAtMost continues h cursor.budget cursor

theorem reports_itemsAtMost {item : Parse α} (h : Reports stream item) (steps : Nat) :
    Reports stream (itemsAtMost item steps) := by
  induction steps with
  | zero => exact .unexpected
  | succ steps ih =>
    refine .bind .kind fun _ ↦ .ite (.pure _) ?_
    refine .bind h fun _ ↦ .bind .kind fun _ ↦ .ite ?_ (.pure _)
    exact .bind .advance fun _ ↦ .bind ih fun _ ↦ .pure _

theorem reports_closedItems {item : Parse α} (h : Reports stream item) :
    Reports stream (closedItems item) :=
  .bind .get fun cursor ↦ .bind (reports_itemsAtMost h cursor.budget) fun _ ↦
    .bind (reports_expect .closeParen) fun _ ↦ .pure _

/-! ### Expressions -/

theorem reports_primary : Reports stream primary := by
  refine .bind_current fun token htoken ↦ ?_
  split
  · refine .guard (.throw rfl ⟨token, htoken, rfl⟩) fun _ ↦ ?_
    exact .bind .advance fun _ ↦ .pure _
  · exact .bind .advance fun _ ↦ .pure _
  · exact .bind .advance fun _ ↦ .pure _
  · exact .bind .advance fun _ ↦ .pure _
  · exact .bind .advance fun _ ↦ .pure _
  · exact .unexpected

section Expressions

variable {inner : BindingPower → Parse Node} (h : ∀ power, Reports stream (inner power))

include h

theorem reports_operand (form : OperandForm) : Reports stream (operand inner form) := by
  cases form with
  | primary => exact reports_primary
  | grouping =>
    refine .bind .advance fun opening ↦ .bind (h .default) fun _ ↦ ?_
    refine .bind (reports_expect .closeParen) fun _ ↦ ?_
    exact .bind (.spanFrom opening.span.start) fun _ ↦ .pure _

theorem reports_argument : Reports stream (argument inner) := by
  refine .bind (h .default) fun expression ↦ .bind .kind fun _ ↦ .ite ?_ (.pure _)
  exact .bind .advance fun _ ↦ .bind (h .default) fun _ ↦
    .bind (.spanFrom expression.span.start) fun _ ↦ .pure _

theorem reports_extension (power : BindingPower) (left : Node) (form : ExtensionForm) :
    Reports stream (extension inner power left form) := by
  cases form with
  | binary => exact .bind .advance fun _ ↦ .bind (h power) fun _ ↦ .pure _
  | call =>
    refine .guard (.unexpectedBecause _) fun _ ↦ .bind .advance fun _ ↦ ?_
    exact .bind (reports_closedItems (reports_argument h)) fun _ ↦
      .bind (.spanFrom left.span.start) fun _ ↦ .pure _

theorem reports_extendAtMost (grammar : Grammar) (least : BindingPower) (steps : Nat)
    (left : Node) : Reports stream (extendAtMost grammar inner least steps left) := by
  induction steps generalizing left with
  | zero => exact .unexpected
  | succ steps ih =>
    refine .bind .kind fun kind ↦ ?_
    split
    · exact .pure _
    · next power form _ =>
      exact .ite (.bind (reports_extension h power left form) ih) (.pure _)

end Expressions

theorem reports_expressionWithin (grammar : Grammar) (depth : Nat) (least : BindingPower) :
    Reports stream (expressionWithin grammar depth least) := by
  induction depth generalizing least with
  | zero => exact .unexpected
  | succ depth ih =>
    refine .bind .kind fun kind ↦ ?_
    split
    · exact .unexpected
    · next form _ =>
      exact .bind (reports_operand ih form) fun left ↦ .bind .get fun cursor ↦
        reports_extendAtMost ih grammar least cursor.budget left

theorem reports_expression (grammar : Grammar) (least : BindingPower) :
    Reports stream (expression grammar least) :=
  fun cursor ↦ reports_expressionWithin grammar cursor.budget least cursor

/-! ### Statements -/

theorem reports_parameter (grammar : Grammar) : Reports stream (parameter grammar) := by
  refine .bind (reports_expectIdentifier _) fun name ↦ .bind .kind fun _ ↦ .ite ?_ ?_
  · exact .bind .advance fun _ ↦ .bind (reports_expression grammar .default) fun _ ↦
      .bind (.spanFrom name.span.start) fun _ ↦ .pure _
  · exact .bind (.spanFrom name.span.start) fun _ ↦ .pure _

theorem reports_wordAndExpression (grammar : Grammar) (build : Span → Node → Node) :
    Reports stream (wordAndExpression grammar build) :=
  .bind .advance fun opening ↦ .bind (reports_expression grammar .default) fun _ ↦
    .bind (.spanFrom opening.span.start) fun _ ↦ .pure _

section Statements

variable (grammar : Grammar) {inner : Parse Node} (h : Reports stream inner)

include h

theorem reports_functionDefinition : Reports stream (functionDefinition grammar inner) := by
  refine .bind .advance fun defineToken ↦ .bind (reports_expectIdentifier _) fun _ ↦ ?_
  refine .bind (reports_expect .openParen) fun _ ↦ ?_
  refine .bind (reports_closedItems (reports_parameter grammar)) fun _ ↦ ?_
  refine .bind (reports_expect .kwThen) fun _ ↦ .bind (reports_repeatWhile _ h) fun _ ↦ ?_
  refine .guard (.unexpectedBecause _) fun _ ↦ ?_
  exact .bind (.spanFrom defineToken.span.start) fun _ ↦ .pure _

theorem reports_predictiveLoop : Reports stream (predictiveLoop grammar inner) := by
  have hbound : Reports stream (expression grammar .default) := reports_expression grammar .default
  refine .bind .advance fun opening ↦ .bind (reports_expectIdentifier _) fun _ ↦ ?_
  refine .bind (reports_expect .kwIn) fun _ ↦ .bind (reports_expect .kwPredictiveRange) fun _ ↦ ?_
  refine .bind (reports_expect .openParen) fun _ ↦ .bind hbound fun _ ↦ ?_
  refine .bind (reports_expect .comma) fun _ ↦ .bind hbound fun _ ↦ ?_
  refine .bind (reports_expect .comma) fun _ ↦ .bind (reports_expectIdentifier _) fun _ ↦ ?_
  refine .bind (reports_expect .closeParen) fun _ ↦ .bind (reports_expect .openCurly) fun _ ↦ ?_
  refine .bind (reports_repeatWhile _ h) fun _ ↦ .bind (reports_expect .closeCurly) fun _ ↦ ?_
  exact .bind (.spanFrom opening.span.start) fun _ ↦ .pure _

theorem reports_statementForm (form : StatementForm) :
    Reports stream (statementForm grammar inner form) := by
  have hvalue : Reports stream (expression grammar .default) := reports_expression grammar .default
  cases form with
  | variableDeclaration =>
    refine .bind .advance fun opening ↦ .bind (reports_expectIdentifier _) fun _ ↦ ?_
    exact .bind (reports_expect .assignment) fun _ ↦ .bind hvalue fun _ ↦
      .bind (.spanFrom opening.span.start) fun _ ↦ .pure _
  | functionDefinition => exact reports_functionDefinition grammar h
  | predictiveLoop => exact reports_predictiveLoop grammar h
  | comparison =>
    refine .bind .advance fun opening ↦ .bind hvalue fun _ ↦ .bind (reports_expect .kwTo) fun _ ↦ ?_
    exact .bind hvalue fun _ ↦ .bind (.spanFrom opening.span.start) fun _ ↦ .pure _
  | print => exact reports_wordAndExpression grammar .printStatement
  | returnValue => exact reports_wordAndExpression grammar .returnStatement
  | yieldValue => exact reports_wordAndExpression grammar .yieldStatement

end Statements

theorem reports_simpleStatement (grammar : Grammar) : Reports stream (simpleStatement grammar) := by
  refine .bind .kind fun _ ↦ .guard (.unexpectedBecause _) fun _ ↦ ?_
  refine .bind (reports_expression grammar .default) fun first ↦ ?_
  split
  · refine .bind .kind fun _ ↦ .ite ?_ (.unexpectedBecause _)
    exact .bind .advance fun _ ↦ .bind (reports_expression grammar .default) fun _ ↦
      .bind (.spanFrom _) fun _ ↦ .pure _
  · exact .pure _
  · exact .unexpectedBecause _

theorem reports_statementWithin (grammar : Grammar) (depth : Nat) :
    Reports stream (statementWithin grammar depth) := by
  induction depth with
  | zero => exact .unexpected
  | succ depth ih =>
    refine .bind .kind fun kind ↦ ?_
    split
    · next form _ => exact reports_statementForm grammar ih form
    · exact reports_simpleStatement grammar

theorem reports_statement (grammar : Grammar) : Reports stream (statement grammar) :=
  fun cursor ↦ reports_statementWithin grammar cursor.budget cursor

end Parse

/-- A stream that is not read as a program fails at the start of one of its tokens, with a cause
that a text has before it is a tree. -/
theorem Node.syntactic_of_ofTokens {stream : TokenStream} {diagnostic : Diagnostic}
    (h : Node.ofTokens stream = .error diagnostic) :
    diagnostic.cause.isSyntactic = true ∧ stream.StartsAt diagnostic.position := by
  have hreports := Parse.reports_repeatWhile Cursor.hasTokens (Parse.reports_statement .standard)
    (Cursor.start stream) (.start stream)
  unfold ofTokens Parse.statements at h
  cases hread : Parse.repeatWhile Cursor.hasTokens (Parse.statement .standard)
      (Cursor.start stream) with
  | ok statements last =>
    rw [hread] at h
    cases h
  | error found last =>
    rw [hread] at h hreports
    obtain rfl := Except.error.inj h
    exact hreports

/-- A stream that is not read as a program is reported at the start of one of its tokens. -/
theorem Node.reported_of_ofTokens {stream : TokenStream} {diagnostic : Diagnostic}
    (h : Node.ofTokens stream = .error diagnostic) :
    diagnostic.cause.isInternal = false ∧ stream.StartsAt diagnostic.position :=
  (syntactic_of_ofTokens h).imp_left Cause.isInternal_of_isSyntactic

end Presage
