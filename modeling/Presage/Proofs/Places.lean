import Mathlib.Logic.Function.Iterate
import Presage.Node.Statement

/-!
Places in a token stream, by index. `TokenStream.place` is the cursor behind the first tokens of a
stream; what it shows is the token at its index, and what it has passed is the token before.

The readers that repeat or nest are defined with a bound. Here each of them is written as one round
that is unfolded in itself: `whileRound`, `itemsRound` and `extendRound` for the repetitions,
`expressionLevel` and `statementLevel` for expressions and statements inside others. A round is
given what to read in place of a further unfolding, so that it can be asked whether this is ever
reached.
-/

set_option autoImplicit false
set_option relaxedAutoImplicit false

namespace Presage

/-! ### Places -/

namespace TokenStream

variable (stream : TokenStream) {index : Nat}

/-- The place behind the first `index` tokens of a stream. -/
def place (index : Nat) : Cursor :=
  ⟨(stream.tokens.take index).getLast?, stream.tokens.drop index, stream.eof,
    fun token htoken ↦ stream.tokens_ne_eof token (List.mem_of_mem_drop htoken), stream.eof_kind⟩

theorem start_eq_place : Cursor.start stream = stream.place 0 := rfl

theorem current_place (index : Nat) :
    (stream.place index).current = stream.tokens[index]?.getD stream.eof := by
  rw [← List.head?_drop]
  rfl

/-- The token at the index of a place is the current one. -/
theorem toList_getElem? (h : index ≤ stream.tokens.length) :
    stream.toList[index]? = some (stream.place index).current := by
  rw [current_place]
  unfold toList
  rcases Nat.lt_or_eq_of_le h with hlt | rfl
  · rw [List.getElem?_append_left hlt, List.getElem?_eq_getElem hlt]
    rfl
  · rw [List.getElem?_concat_length, List.getElem?_eq_none (Nat.le_refl _)]
    rfl

theorem tokens_getElem? (h : index < stream.tokens.length) :
    stream.tokens[index]? = some (stream.place index).current := by
  rw [current_place, List.getElem?_eq_getElem h]
  rfl

theorem next_place (h : index < stream.tokens.length) :
    (stream.place index).next = stream.place (index + 1) := by
  have hpassed : (stream.tokens.take (index + 1)).getLast? = some stream.tokens[index] := by
    rw [List.getLast?_take, if_neg (Nat.succ_ne_zero index), Nat.add_sub_cancel,
      List.getElem?_eq_getElem h, Option.some_or]
  have hahead : (stream.place index).ahead =
      stream.tokens[index] :: stream.tokens.drop (index + 1) :=
    List.drop_eq_getElem_cons h
  ext1
  · exact (Cursor.passed?_next hahead).trans hpassed.symm
  · rw [Cursor.ahead_next, hahead]
    rfl
  · exact Cursor.eof_next _

/-- The end of the stream is not passed. -/
theorem next_place_length :
    (stream.place stream.tokens.length).next = stream.place stream.tokens.length := by
  exact Cursor.next_of_nil List.drop_length

/-- What was passed last is the token before. -/
theorem passedEnd_place (h : index < stream.tokens.length) :
    (stream.place (index + 1)).passedEnd = (stream.place index).current.span.stop := by
  rw [← next_place stream h, current_place, List.getElem?_eq_getElem h]
  unfold Cursor.passedEnd
  rw [Cursor.passed?_next (List.drop_eq_getElem_cons h)]
  rfl

theorem hasTokens_place :
    (stream.place index).hasTokens = true ↔ index < stream.tokens.length := by
  unfold Cursor.hasTokens place
  rw [Bool.not_eq_true', List.isEmpty_eq_false_iff, ne_eq, List.drop_eq_nil_iff, Nat.not_le]

theorem budget_place (index : Nat) :
    (stream.place index).budget = stream.tokens.length - index + 1 := by
  unfold Cursor.budget place
  rw [List.length_drop]

/-- At the end of a stream the current token is the one that marks the end. -/
theorem lt_of_kind_ne (h : index ≤ stream.tokens.length)
    (hkind : (stream.place index).current.kind ≠ .eof) : index < stream.tokens.length := by
  refine Nat.lt_of_le_of_ne h ?_
  rintro rfl
  rw [current_place, List.getElem?_eq_none (Nat.le_refl _)] at hkind
  exact hkind stream.eof_kind

theorem lt_of_kind {kind : TokenKind} (h : index ≤ stream.tokens.length)
    (hkind : (stream.place index).current.kind = kind) (hne : kind ≠ .eof) :
    index < stream.tokens.length :=
  stream.lt_of_kind_ne h (hkind ▸ hne)

/-- A token that a form starts with is not the mark of the end. -/
theorem lt_of_form {α : Type} {forms : TokenKind → Option α} {form : α}
    (hforms : forms .eof = none) (h : index ≤ stream.tokens.length)
    (hform : forms (stream.place index).current.kind = some form) :
    index < stream.tokens.length := by
  refine stream.lt_of_kind_ne h fun hkind ↦ ?_
  rw [hkind, hforms] at hform
  cases hform

end TokenStream

/-! ### Rounds -/

namespace Parse

variable {α : Type}

/-- One round of a repetition while a condition holds; `again` reads the rest. -/
def whileRound (continues : Cursor → Bool) (item : Parse α) (again : Parse (List α)) :
    Parse (List α) := do
  if continues (← get) then
    let first ← item
    let rest ← again
    return first :: rest
  else return []

/-- One round of a list of items; `again` reads those after a comma. -/
def itemsRound (item : Parse α) (again : Parse (List α)) : Parse (List α) := do
  if (← kind) = .closeParen then return []
  let first ← item
  if (← kind) = .comma then
    let _ ← advance
    let rest ← again
    return first :: rest
  else return [first]

/-- One round of extensions; `again` extends what is longer by one. -/
def extendRound (grammar : Grammar) (inner : BindingPower → Parse Node) (least : BindingPower)
    (again : Node → Parse Node) (left : Node) : Parse Node := do
  match grammar.extension (← kind) with
  | none => return left
  | some (power, form) =>
    if least.rank < power.rank then
      let longer ← extension inner power left form
      again longer
    else return left

/-- One level of expressions; `inner` reads the expressions inside. -/
def expressionLevel (grammar : Grammar) (inner : BindingPower → Parse Node) (least : BindingPower) :
    Parse Node := do
  match grammar.operand (← kind) with
  | none => unexpected
  | some form =>
    let left ← operand inner form
    extendAtMost grammar inner least (← get).budget left

/-- One level of statements; `inner` reads the statements inside. -/
def statementLevel (grammar : Grammar) (inner : Parse Node) : Parse Node := do
  match grammar.statement (← kind) with
  | some form => statementForm grammar inner form
  | none => simpleStatement grammar

/-- What is defined by unfolding a round up to a bound is the round iterated. -/
theorem eq_iterate {β : Type} (unfolded : Nat → β) {round : β → β} {bottom : β}
    (hzero : unfolded 0 = bottom) (hsucc : ∀ steps, unfolded (steps + 1) = round (unfolded steps))
    (steps : Nat) : unfolded steps = round^[steps] bottom := by
  induction steps with
  | zero => exact hzero
  | succ steps ih => rw [hsucc, ih, Function.iterate_succ_apply']

theorem whileAtMost_eq_iterate (continues : Cursor → Bool) (item : Parse α) (steps : Nat) :
    whileAtMost continues item steps = (whileRound continues item)^[steps] unexpected :=
  eq_iterate (whileAtMost continues item) rfl (fun _ ↦ rfl) steps

theorem itemsAtMost_eq_iterate (item : Parse α) (steps : Nat) :
    itemsAtMost item steps = (itemsRound item)^[steps] unexpected :=
  eq_iterate (itemsAtMost item) rfl (fun _ ↦ rfl) steps

theorem extendAtMost_eq_iterate (grammar : Grammar) (inner : BindingPower → Parse Node)
    (least : BindingPower) (steps : Nat) :
    extendAtMost grammar inner least steps =
      (extendRound grammar inner least)^[steps] fun _ ↦ unexpected :=
  eq_iterate (extendAtMost grammar inner least) rfl (fun _ ↦ rfl) steps

theorem expressionWithin_eq_iterate (grammar : Grammar) (depth : Nat) :
    expressionWithin grammar depth = (expressionLevel grammar)^[depth] fun _ ↦ unexpected :=
  eq_iterate (expressionWithin grammar) rfl (fun _ ↦ rfl) depth

theorem statementWithin_eq_iterate (grammar : Grammar) (depth : Nat) :
    statementWithin grammar depth = (statementLevel grammar)^[depth] unexpected :=
  eq_iterate (statementWithin grammar) rfl (fun _ ↦ rfl) depth

section Places

variable (stream : TokenStream) (index : Nat)

theorem repeatWhile_place (continues : Cursor → Bool) (item : Parse α) :
    repeatWhile continues item (stream.place index) =
      (whileRound continues item)^[stream.tokens.length - index + 1] unexpected
        (stream.place index) := by
  unfold repeatWhile
  rw [whileAtMost_eq_iterate, TokenStream.budget_place]

theorem expression_place (grammar : Grammar) (least : BindingPower) :
    expression grammar least (stream.place index) =
      (expressionLevel grammar)^[stream.tokens.length - index + 1] (fun _ ↦ unexpected) least
        (stream.place index) := by
  unfold expression
  rw [expressionWithin_eq_iterate, TokenStream.budget_place]

theorem statement_place (grammar : Grammar) :
    statement grammar (stream.place index) =
      (statementLevel grammar)^[stream.tokens.length - index + 1] unexpected
        (stream.place index) := by
  unfold statement
  rw [statementWithin_eq_iterate, TokenStream.budget_place]

end Places

end Parse

end Presage
