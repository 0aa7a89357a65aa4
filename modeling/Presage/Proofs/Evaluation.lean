import Mathlib.Data.Rat.Cast.Order
import Mathlib.Tactic.FieldSimp
import Mathlib.Tactic.Push
import Presage.Proofs.Folding
import Presage.Proofs.Uses

/-!
The meaning of expressions in exact arithmetic, and that folding keeps it.

A `Value` is a rational number, a string, a boolean, or something else that an evaluation brings
along. An `Interpretation` says what evaluation leaves open: the values of variables and functions,
what a call gives for its callee and the values of its arguments, the quotient by zero, and every
operation that is neither arithmetic on numbers, nor the joining of strings, nor the logic of
booleans. `evaluate` fixes the rest.

Each operator has its own reason to fold. A sum, difference or product is folded when 64 bits hold
it, and a quotient only without a remainder (`value_of_foldIntegers`); `operate_of_foldBinary` says
that a folded literal is what the operation gives. As folding goes from the inside out,
`evaluate_fold` is an induction on the expression. `Statement.Matches` compares statements slot by
slot, and `matches_fold` says that folding changes nothing but the expressions in the slots.
-/

set_option autoImplicit false
set_option relaxedAutoImplicit false

namespace Presage

universe u

/-- What an expression evaluates to, with `other` for what the language has no literal for. -/
inductive Value (α : Type u) where
  | number (value : ℚ)
  | string (value : String)
  | boolean (value : Bool)
  | other (value : α)

/-- What an evaluation leaves open. -/
structure Interpretation (α : Type u) where
  reference : Variable → Value α
  functionReference : Func → Value α
  call : Callee → List (Value α) → Value α
  quotientByZero : ℚ → Value α
  operation : String → Value α → Value α → Value α

namespace Interpretation

variable {α : Type u} (interpretation : Interpretation α)

/-- Arithmetic on numbers is that of the rationals. -/
def arithmetic (operator : String) (left right : ℚ) : Value α :=
  if operator = "+" then .number (left + right)
  else if operator = "-" then .number (left - right)
  else if operator = "*" then .number (left * right)
  else if operator = "/" then
    if right = 0 then interpretation.quotientByZero left else .number (left / right)
  else interpretation.operation operator (.number left) (.number right)

/-- Strings are joined by `+`. -/
def joining (operator : String) (left right : String) : Value α :=
  if operator = "+" then .string (left ++ right)
  else interpretation.operation operator (.string left) (.string right)

/-- Booleans are combined by `and` and `or`. -/
def logic (operator : String) (left right : Bool) : Value α :=
  if operator = "and" then .boolean (left && right)
  else if operator = "or" then .boolean (left || right)
  else interpretation.operation operator (.boolean left) (.boolean right)

/-- The value of an operation on two values. -/
def operate (operator : String) : Value α → Value α → Value α
  | .number left, .number right => interpretation.arithmetic operator left right
  | .string left, .string right => interpretation.joining operator left right
  | .boolean left, .boolean right => interpretation.logic operator left right
  | left, right => interpretation.operation operator left right

mutual

/-- The value of an expression. A literal has the value it writes, whatever its type. -/
def evaluate : Expr → Value α
  | .call invocation => evaluateCall invocation
  | .binary operator left right _ =>
    interpretation.operate operator (evaluate left) (evaluate right)
  | .boolean value => .boolean value
  | .number value _ => .number value
  | .string value _ => .string value
  | .reference target => interpretation.reference target
  | .functionReference target => interpretation.functionReference target

def evaluateAll : List Expr → List (Value α)
  | [] => []
  | value :: rest => evaluate value :: evaluateAll rest

def evaluateCall : Call → Value α
  | ⟨callee, arguments, _⟩ => interpretation.call callee (evaluateAll arguments)

end

/-! ### One operation -/

/-- An integer that fits is left as it is. -/
theorem eq_of_fit? {value fitted : Int} (h : Integer.fit? value = some fitted) :
    fitted = value := by
  unfold Integer.fit? at h
  split at h
  · exact (Option.some.inj h).symm
  · cases h

/-- A quotient of integers without a remainder is the rational quotient. Assumes: a divisor other
than zero that leaves no remainder. -/
theorem cast_div_of_mod_eq_zero {left right : Int} (hright : right ≠ 0)
    (hmod : left % right = 0) : ((left / right : Int) : ℚ) = (left : ℚ) / right := by
  obtain ⟨quotient, rfl⟩ := Int.dvd_of_emod_eq_zero hmod
  have hcast : (right : ℚ) ≠ 0 := by exact_mod_cast hright
  rw [Int.mul_ediv_cancel_left quotient hright]
  push_cast
  field_simp

/-- Folded integer arithmetic is exact: the integer that folding gives is the rational that the
operation gives. -/
theorem value_of_foldIntegers {operator : String} {left right value : Int}
    (h : foldIntegers operator left right = some value) :
    interpretation.arithmetic operator left right = .number value := by
  unfold foldIntegers at h
  unfold arithmetic
  split at h
  · next hplus =>
    rw [eq_of_fit? h, if_pos hplus]
    push_cast
    rfl
  · next hplus =>
    rw [if_neg hplus]
    split at h
    · next hminus =>
      rw [eq_of_fit? h, if_pos hminus]
      push_cast
      rfl
    · next hminus =>
      rw [if_neg hminus]
      split at h
      · next htimes =>
        rw [eq_of_fit? h, if_pos htimes]
        push_cast
        rfl
      · next htimes =>
        rw [if_neg htimes]
        split at h
        · next hover =>
          obtain ⟨hoperator, hright, hmod⟩ := hover
          have hcast : (right : ℚ) ≠ 0 := by exact_mod_cast hright
          rw [eq_of_fit? h, if_pos hoperator, if_neg hcast, cast_div_of_mod_eq_zero hright hmod]
        · cases h

theorem value_of_foldBooleans {operator : String} {left right value : Bool}
    (h : foldBooleans operator left right = some value) :
    interpretation.logic operator left right = .boolean value := by
  unfold foldBooleans at h
  unfold logic
  split at h
  · next hand => rw [if_pos hand, Option.some.inj h]
  · next hand =>
    rw [if_neg hand]
    split at h
    · next hor => rw [if_pos hor, Option.some.inj h]
    · cases h

/-- A literal that folding makes of two literals has the value of the operation on them. -/
theorem operate_of_foldBinary {operator : String} {left right folded : Expr}
    (h : foldBinary operator left right = some folded) :
    interpretation.operate operator (interpretation.evaluate left)
        (interpretation.evaluate right) =
      interpretation.evaluate folded := by
  unfold foldBinary at h
  split at h
  · obtain ⟨value, hvalue, rfl⟩ := Option.map_eq_some_iff.mp h
    simp only [evaluate, operate]
    exact interpretation.value_of_foldIntegers hvalue
  · split at h
    · next hplus =>
      obtain rfl := Option.some.inj h
      simp only [evaluate, operate, joining]
      rw [if_pos hplus]
    · cases h
  · obtain ⟨value, hvalue, rfl⟩ := Option.map_eq_some_iff.mp h
    simp only [evaluate, operate]
    exact interpretation.value_of_foldBooleans hvalue
  · cases h

/-! ### Whole expressions -/

mutual

/-- Folding keeps the value of an expression. The operands are folded first, so the induction
hypotheses speak of the operands that the operation is folded on. -/
theorem evaluate_fold : ∀ value : Expr,
    interpretation.evaluate value.fold = interpretation.evaluate value
  | .call invocation => by
    simp only [Expr.fold, evaluate]
    exact evaluateCall_fold invocation
  | .binary operator left right ty? => by
    have hleft := evaluate_fold left
    have hright := evaluate_fold right
    simp only [Expr.fold]
    cases hfold : foldBinary operator left.fold right.fold with
    | none =>
      simp only [Option.getD_none, evaluate]
      rw [hleft, hright]
    | some folded =>
      simp only [Option.getD_some, evaluate]
      rw [← interpretation.operate_of_foldBinary hfold, hleft, hright]
  | .boolean _ => rfl
  | .number _ _ => rfl
  | .string _ _ => rfl
  | .reference _ => rfl
  | .functionReference _ => rfl

theorem evaluateAll_foldAll : ∀ values : List Expr,
    interpretation.evaluateAll (Expr.foldAll values) = interpretation.evaluateAll values
  | [] => rfl
  | value :: rest => by
    simp only [Expr.foldAll, evaluateAll]
    rw [evaluate_fold value, evaluateAll_foldAll rest]

theorem evaluateCall_fold : ∀ invocation : Call,
    interpretation.evaluateCall invocation.fold = interpretation.evaluateCall invocation
  | ⟨callee, arguments, _⟩ => by
    simp only [Call.fold, evaluateCall]
    rw [evaluateAll_foldAll arguments]

end

end Interpretation

/-! ### Whole programs -/

/-- Parameters of one name, both with a default or both without, with related defaults. -/
structure Parameter.Matches (related : Expr → Expr → Prop) (first second : Parameter) : Prop where
  name : first.name = second.name
  default? : Option.Rel related first.default? second.default?

/-- Calls of one callee and of one type, with related arguments. -/
structure Call.Matches (related : Expr → Expr → Prop) (first second : Call) : Prop where
  callee : first.callee = second.callee
  arguments : List.Forall₂ related first.arguments second.arguments
  ty? : first.ty? = second.ty?

/-- Statements of one form with the same declared name, entities, callee and pattern, whose
expressions are related slot by slot. -/
inductive Statement.Matches (related : Expr → Expr → Prop) : Statement → Statement → Prop
  | functionDeclaration {name : String} {function : Func}
      {parameters parameters' : List Parameter} {body body' : List Statement}
      (hparameters : List.Forall₂ (Parameter.Matches related) parameters parameters')
      (hbody : List.Forall₂ (Statement.Matches related) body body') :
      Statement.Matches related (.functionDeclaration name function parameters body)
        (.functionDeclaration name function parameters' body')
  | variableDeclaration {target : Variable} {initializer initializer' : Expr}
      (hinitializer : related initializer initializer') :
      Statement.Matches related (.variableDeclaration target initializer)
        (.variableDeclaration target initializer')
  | variableReassignment {target : Variable} {value value' : Expr}
      (hvalue : related value value') :
      Statement.Matches related (.variableReassignment target value)
        (.variableReassignment target value')
  | predictiveLoop {iterator : Variable} {low low' high high' : Expr} {pattern : String}
      {body body' : List Statement} (hlow : related low low') (hhigh : related high high')
      (hbody : List.Forall₂ (Statement.Matches related) body body') :
      Statement.Matches related (.predictiveLoop iterator low high pattern body)
        (.predictiveLoop iterator low' high' pattern body')
  | comparison {left left' right right' : Expr} (hleft : related left left')
      (hright : related right right') :
      Statement.Matches related (.comparison left right) (.comparison left' right')
  | print {value value' : Expr} (hvalue : related value value') :
      Statement.Matches related (.print value) (.print value')
  | returnValue {value value' : Expr} (hvalue : related value value') :
      Statement.Matches related (.returnValue value) (.returnValue value')
  | yieldValue {value value' : Expr} (hvalue : related value value') :
      Statement.Matches related (.yieldValue value) (.yieldValue value')
  | call {invocation invocation' : Call}
      (hinvocation : Call.Matches related invocation invocation') :
      Statement.Matches related (.call invocation) (.call invocation')

/-- The expressions of a slot before and after folding: the second is the first one folded. -/
def Expr.Folded (before after : Expr) : Prop := after = before.fold

theorem Expr.forall₂_folded_foldAll (values : List Expr) :
    List.Forall₂ Expr.Folded values (Expr.foldAll values) := by
  induction values with
  | nil => exact .nil
  | cons value rest ih => exact .cons rfl ih

theorem Call.matches_fold (invocation : Call) :
    Call.Matches Expr.Folded invocation invocation.fold := by
  obtain ⟨callee, arguments, ty?⟩ := invocation
  exact ⟨rfl, Expr.forall₂_folded_foldAll arguments, rfl⟩

theorem Parameter.matches_fold (parameter : Parameter) :
    Parameter.Matches Expr.Folded parameter parameter.fold := by
  refine ⟨rfl, ?_⟩
  obtain ⟨name, default?⟩ := parameter
  cases default? with
  | none => exact .none
  | some default => exact .some rfl

theorem Parameter.forall₂_matches_fold (parameters : List Parameter) :
    List.Forall₂ (Parameter.Matches Expr.Folded) parameters (parameters.map Parameter.fold) := by
  induction parameters with
  | nil => exact .nil
  | cons parameter rest ih => exact .cons parameter.matches_fold ih

mutual

/-- Folding a statement keeps its form, its declared name, its entities, its callee and its
pattern, and folds the expression in every slot, at every depth. -/
theorem Statement.matches_fold : ∀ statement : Statement,
    Statement.Matches Expr.Folded statement statement.folded
  | .functionDeclaration _ _ parameters body =>
    .functionDeclaration (Parameter.forall₂_matches_fold parameters)
      (Statement.forall₂_matches_foldAll body)
  | .variableDeclaration _ _ => .variableDeclaration rfl
  | .variableReassignment _ _ => .variableReassignment rfl
  | .predictiveLoop _ _ _ _ body =>
    .predictiveLoop rfl rfl (Statement.forall₂_matches_foldAll body)
  | .comparison _ _ => .comparison rfl rfl
  | .print _ => .print rfl
  | .returnValue _ => .returnValue rfl
  | .yieldValue _ => .yieldValue rfl
  | .call invocation => .call invocation.matches_fold

theorem Statement.forall₂_matches_foldAll : ∀ statements : List Statement,
    List.Forall₂ (Statement.Matches Expr.Folded) statements (Statement.foldedAll statements)
  | [] => .nil
  | statement :: rest =>
    .cons (Statement.matches_fold statement) (Statement.forall₂_matches_foldAll rest)

end

theorem Program.forall₂_matches_fold (program : Program) (bodies : Bodies) :
    List.Forall₂ (Statement.Matches Expr.Folded) program.statements
      (program.fold bodies).1.statements := by
  rw [Program.fold_fst]
  exact Statement.forall₂_matches_foldAll program.statements

/-- Folding preserves meaning in exact arithmetic. Whatever bodies its functions have, a folded
program has the statements of the program in their order, with the same forms, declared names,
entities, callees and patterns, and the folded expression in every slot; a folded expression uses
the same entities and callees in the same order; and under every interpretation it has the value of
the expression. -/
theorem fold_preserves_meaning {α : Type u} (interpretation : Interpretation α) :
    (∀ (program : Program) (bodies : Bodies),
        List.Forall₂ (Statement.Matches Expr.Folded) program.statements
          (program.fold bodies).1.statements) ∧
      (∀ value : Expr, value.fold.uses = value.uses) ∧
      ∀ value : Expr, interpretation.evaluate value.fold = interpretation.evaluate value :=
  ⟨Program.forall₂_matches_fold, Expr.uses_fold, interpretation.evaluate_fold⟩

end Presage
