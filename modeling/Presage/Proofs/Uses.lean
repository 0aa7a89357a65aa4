import Presage.Program.Fold
import Presage.Script.Emitter

/-!
The entities that an expression uses, and the names that a term uses, both in the order of writing.
A use holds its entity, so two expressions with the same uses mean the same entities by identity.

Folding replaces operations on literals only, and literals use nothing: `uses_fold` says that an
expression and its folded form have the same uses, in the same order. `names_term` says that the
names in an emitted term are the uses of the expression, each as the emitter writes it.
-/

set_option autoImplicit false
set_option relaxedAutoImplicit false

namespace Presage

/-- One use of an entity in an expression: of a variable, of a function as a value, of a function as
the callee of a call, or of a struct type as the callee of a construction. -/
inductive Use where
  | reference (target : Variable)
  | functionReference (target : Func)
  | call (target : Func)
  | construct (target : StructType)

def Callee.use : Callee → Use
  | .function target => .call target
  | .struct target => .construct target

mutual

/-- The uses in an expression, from left to right, with a callee before its arguments. -/
def Expr.uses : Expr → List Use
  | .call invocation => Call.uses invocation
  | .binary _ left right _ => Expr.uses left ++ Expr.uses right
  | .reference target => [.reference target]
  | .functionReference target => [.functionReference target]
  | .boolean _ | .number _ _ | .string _ _ => []

def Expr.usesAll : List Expr → List Use
  | [] => []
  | value :: rest => Expr.uses value ++ Expr.usesAll rest

def Call.uses : Call → List Use
  | ⟨callee, arguments, _⟩ => callee.use :: Expr.usesAll arguments

end

theorem Expr.mem_usesAll_iff {values : List Expr} {use : Use} :
    use ∈ Expr.usesAll values ↔ ∃ value ∈ values, use ∈ value.uses := by
  induction values with
  | nil => simp only [Expr.usesAll, List.not_mem_nil, false_and, exists_false]
  | cons value rest ih =>
    simp only [Expr.usesAll, List.mem_append, ih, List.mem_cons, or_and_right, exists_or,
      exists_eq_left]

/-- The uses of a call are its callee and those of its arguments. -/
theorem Call.mem_uses_iff {invocation : Call} {use : Use} :
    use ∈ invocation.uses ↔
      use = invocation.callee.use ∨ ∃ value ∈ invocation.arguments, use ∈ value.uses := by
  obtain ⟨callee, arguments, ty?⟩ := invocation
  rw [Call.uses, List.mem_cons, Expr.mem_usesAll_iff]

/-! ### Uses and folding -/

/-- A literal that folding makes comes from operands that use nothing, and uses nothing itself. -/
theorem uses_of_foldBinary {operator : String} {left right folded : Expr}
    (h : foldBinary operator left right = some folded) :
    folded.uses = left.uses ++ right.uses := by
  unfold foldBinary at h
  split at h
  · obtain ⟨value, -, rfl⟩ := Option.map_eq_some_iff.mp h
    simp only [Expr.uses, List.append_nil]
  · split at h
    · obtain rfl := Option.some.inj h
      simp only [Expr.uses, List.append_nil]
    · cases h
  · obtain ⟨value, -, rfl⟩ := Option.map_eq_some_iff.mp h
    simp only [Expr.uses, List.append_nil]
  · cases h

mutual

/-- Folding keeps the uses of an expression and their order. -/
theorem Expr.uses_fold : ∀ value : Expr, value.fold.uses = value.uses
  | .call invocation => by
    simp only [Expr.fold, Expr.uses]
    exact Call.uses_fold invocation
  | .binary operator left right ty? => by
    have hleft := Expr.uses_fold left
    have hright := Expr.uses_fold right
    simp only [Expr.fold]
    cases hfold : foldBinary operator left.fold right.fold with
    | none =>
      simp only [Option.getD_none, Expr.uses]
      rw [hleft, hright]
    | some folded =>
      simp only [Option.getD_some, Expr.uses]
      rw [uses_of_foldBinary hfold, hleft, hright]
  | .boolean _ => rfl
  | .number _ _ => rfl
  | .string _ _ => rfl
  | .reference _ => rfl
  | .functionReference _ => rfl

theorem Expr.usesAll_foldAll : ∀ values : List Expr,
    Expr.usesAll (Expr.foldAll values) = Expr.usesAll values
  | [] => rfl
  | value :: rest => by
    simp only [Expr.foldAll, Expr.usesAll]
    rw [Expr.uses_fold value, Expr.usesAll_foldAll rest]

theorem Call.uses_fold : ∀ invocation : Call, invocation.fold.uses = invocation.uses
  | ⟨callee, arguments, _⟩ => by
    simp only [Call.fold, Call.uses]
    rw [Expr.usesAll_foldAll arguments]

end

/-! ### Uses and emission -/

mutual

/-- The names in a term, from left to right, with a callee before its arguments. -/
def Script.Term.names : Script.Term → List String
  | .name text => [text]
  | .binary _ left right => Script.Term.names left ++ Script.Term.names right
  | .call callee arguments | .construct callee arguments =>
    callee :: Script.Term.namesAll arguments
  | .number _ | .boolean _ | .string _ => []

def Script.Term.namesAll : List Script.Term → List String
  | [] => []
  | value :: rest => Script.Term.names value ++ Script.Term.namesAll rest

end

/-- How the entity of a use is written. -/
def Emitter.useName (emitter : Emitter) : Use → String
  | .reference target => emitter.nameOf target
  | .functionReference target | .call target => target.name
  | .construct target => target.name

mutual

/-- The names in an emitted term are the uses of its expression as the emitter writes them. -/
theorem Emitter.names_term (emitter : Emitter) :
    ∀ value : Expr, (emitter.term value).names = value.uses.map emitter.useName
  | .call invocation => by
    simp only [Emitter.term, Expr.uses]
    exact Emitter.names_callTerm emitter invocation
  | .binary operator left right ty? => by
    simp only [Emitter.term, Script.Term.names, Expr.uses, List.map_append]
    rw [Emitter.names_term emitter left, Emitter.names_term emitter right]
  | .boolean _ => rfl
  | .number _ _ => rfl
  | .string _ _ => rfl
  | .reference _ => rfl
  | .functionReference _ => rfl

theorem Emitter.namesAll_terms (emitter : Emitter) :
    ∀ values : List Expr,
      Script.Term.namesAll (emitter.terms values) = (Expr.usesAll values).map emitter.useName
  | [] => rfl
  | value :: rest => by
    simp only [Emitter.terms, Script.Term.namesAll, Expr.usesAll, List.map_append]
    rw [Emitter.names_term emitter value, Emitter.namesAll_terms emitter rest]

theorem Emitter.names_callTerm (emitter : Emitter) :
    ∀ invocation : Call,
      (emitter.callTerm invocation).names = invocation.uses.map emitter.useName
  | ⟨.function target, arguments, _⟩ => by
    simp only [Emitter.callTerm, Script.Term.names, Call.uses, List.map_cons]
    rw [Emitter.namesAll_terms emitter arguments]
    rfl
  | ⟨.struct target, arguments, _⟩ => by
    simp only [Emitter.callTerm, Script.Term.names, Call.uses, List.map_cons]
    rw [Emitter.namesAll_terms emitter arguments]
    rfl

end

end Presage
