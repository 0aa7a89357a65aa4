import Presage.Program.Same
import Presage.Proofs.Assignability
import Presage.Proofs.Folding

/-!
Folding reaches a normal form in one pass. `Foldable` says which operations on two literals folding
replaces, without computing anything: `isSome_foldBinary_iff` ties it to the fold. A program is
normal when no operation in any of its slots is of that kind, at any depth.

One pass is enough because it goes from the inside out. The operands of an operation are folded
before the operation is looked at, so what is left of it is not foldable (`Expr.normal_fold`), and
where nothing is foldable nothing is changed (`Expr.fold_eq_self`). `Statement.slots_fold` carries
this from expressions to programs: folding a program folds every slot and does nothing else.
Programs are also compared by `Program.same`, where identities do not count. A folded operation is
a literal, which is not the same as the operation by that measure either (`Expr.fold_eq_of_same`).
-/

set_option autoImplicit false
set_option relaxedAutoImplicit false

namespace Presage

/-! ### Foldable operations -/

/-- The integer is one of 64 bits. -/
def Integer.Fits (value : Int) : Prop := least ≤ value ∧ value ≤ greatest

/-- The operations on two literals that folding replaces: arithmetic with a result of 64 bits, a
quotient only where there is no remainder, the joining of strings, and the logic of booleans. -/
inductive Foldable : String → Expr → Expr → Prop
  | sum {left right : Int} {leftTy rightTy : Ty} (hfits : Integer.Fits (left + right)) :
      Foldable "+" (.number left leftTy) (.number right rightTy)
  | difference {left right : Int} {leftTy rightTy : Ty} (hfits : Integer.Fits (left - right)) :
      Foldable "-" (.number left leftTy) (.number right rightTy)
  | product {left right : Int} {leftTy rightTy : Ty} (hfits : Integer.Fits (left * right)) :
      Foldable "*" (.number left leftTy) (.number right rightTy)
  | quotient {quotient right : Int} {leftTy rightTy : Ty} (hright : right ≠ 0)
      (hfits : Integer.Fits quotient) :
      Foldable "/" (.number (quotient * right) leftTy) (.number right rightTy)
  | joining {left right : String} {leftTy rightTy : Ty} :
      Foldable "+" (.string left leftTy) (.string right rightTy)
  | conjunction {left right : Bool} : Foldable "and" (.boolean left) (.boolean right)
  | disjunction {left right : Bool} : Foldable "or" (.boolean left) (.boolean right)

theorem Integer.isSome_fit?_iff {value : Int} : (fit? value).isSome = true ↔ Fits value := by
  unfold fit? Fits
  split
  · next h => exact iff_of_true rfl h
  · next h => exact iff_of_false Bool.false_ne_true h

theorem foldable_of_foldIntegers {operator : String} {left right : Int} (leftTy rightTy : Ty)
    (h : (foldIntegers operator left right).isSome = true) :
    Foldable operator (.number left leftTy) (.number right rightTy) := by
  unfold foldIntegers at h
  split at h
  · next hplus =>
    subst hplus
    exact .sum (Integer.isSome_fit?_iff.mp h)
  · split at h
    · next hminus =>
      subst hminus
      exact .difference (Integer.isSome_fit?_iff.mp h)
    · split at h
      · next htimes =>
        subst htimes
        exact .product (Integer.isSome_fit?_iff.mp h)
      · split at h
        · next hover =>
          obtain ⟨rfl, hright, hmod⟩ := hover
          rw [← Int.ediv_mul_cancel (Int.dvd_of_emod_eq_zero hmod)]
          exact .quotient hright (Integer.isSome_fit?_iff.mp h)
        · cases h

/-- Folding accepts two literals exactly if the operation on them is foldable. -/
theorem isSome_foldBinary_iff {operator : String} {left right : Expr} :
    (foldBinary operator left right).isSome = true ↔ Foldable operator left right := by
  constructor
  · intro h
    unfold foldBinary at h
    split at h
    · rw [Option.isSome_map] at h
      exact foldable_of_foldIntegers _ _ h
    · split at h
      · next hplus =>
        subst hplus
        exact .joining
      · cases h
    · rw [Option.isSome_map] at h
      unfold foldBooleans at h
      split at h
      · next hand =>
        subst hand
        exact .conjunction
      · split at h
        · next hor =>
          subst hor
          exact .disjunction
        · cases h
    · cases h
  · intro h
    cases h with
    | sum hfits => exact (Option.isSome_map).trans (Integer.isSome_fit?_iff.mpr hfits)
    | difference hfits => exact (Option.isSome_map).trans (Integer.isSome_fit?_iff.mpr hfits)
    | product hfits => exact (Option.isSome_map).trans (Integer.isSome_fit?_iff.mpr hfits)
    | quotient hright hfits =>
      have hfolds := Integer.isSome_fit?_iff.mpr hfits
      simp [foldBinary, foldIntegers, hright, hfolds]
    | joining => rfl
    | conjunction => rfl
    | disjunction => rfl

/-! ### Normal expressions -/

/-- The second expression is the first one or stands inside of it, as an operand or an argument. -/
inductive Expr.Contains : Expr → Expr → Prop
  | self {value : Expr} : Expr.Contains value value
  | argument {invocation : Call} {value part : Expr} (hvalue : value ∈ invocation.arguments)
      (hpart : Expr.Contains value part) : Expr.Contains (.call invocation) part
  | left {operator : String} {left right part : Expr} {ty? : Option Ty}
      (hpart : Expr.Contains left part) : Expr.Contains (.binary operator left right ty?) part
  | right {operator : String} {left right part : Expr} {ty? : Option Ty}
      (hpart : Expr.Contains right part) : Expr.Contains (.binary operator left right ty?) part

/-- No operation in the expression, at any depth, is foldable. -/
def Expr.Normal (value : Expr) : Prop :=
  ∀ operator left right ty?, value.Contains (.binary operator left right ty?) →
    ¬ Foldable operator left right

namespace Expr

/-- Literals and references have no parts. -/
def isLeaf : Expr → Bool
  | call _ | binary _ _ _ _ => false
  | _ => true

theorem normal_of_isLeaf {value : Expr} (h : value.isLeaf = true) : value.Normal := by
  intro operator left right ty? hcontains
  cases hcontains <;> cases h

theorem normal_call_iff {invocation : Call} :
    (call invocation).Normal ↔ ∀ value ∈ invocation.arguments, value.Normal := by
  constructor
  · intro h value hvalue operator left right ty? hcontains
    exact h operator left right ty? (.argument hvalue hcontains)
  · intro h operator left right ty? hcontains
    cases hcontains with
    | argument hvalue hpart => exact h _ hvalue operator left right ty? hpart

theorem normal_binary_iff {operator : String} {left right : Expr} {ty? : Option Ty} :
    (binary operator left right ty?).Normal ↔
      ¬ Foldable operator left right ∧ left.Normal ∧ right.Normal := by
  constructor
  · intro h
    refine ⟨h _ _ _ _ .self, ?_, ?_⟩
    · intro operator left right ty? hcontains
      exact h operator left right ty? (.left hcontains)
    · intro operator left right ty? hcontains
      exact h operator left right ty? (.right hcontains)
  · rintro ⟨hself, hleft, hright⟩ operator left right ty? hcontains
    cases hcontains with
    | self => exact hself
    | left hpart => exact hleft _ _ _ _ hpart
    | right hpart => exact hright _ _ _ _ hpart

end Expr

/-- Folding takes two literals and makes a literal of them. -/
theorem isLeaf_of_foldBinary {operator : String} {left right folded : Expr}
    (h : foldBinary operator left right = some folded) :
    left.isLeaf = true ∧ right.isLeaf = true ∧ folded.isLeaf = true := by
  unfold foldBinary at h
  split at h
  · obtain ⟨value, -, rfl⟩ := Option.map_eq_some_iff.mp h
    exact ⟨rfl, rfl, rfl⟩
  · split at h
    · obtain rfl := Option.some.inj h
      exact ⟨rfl, rfl, rfl⟩
    · cases h
  · obtain ⟨value, -, rfl⟩ := Option.map_eq_some_iff.mp h
    exact ⟨rfl, rfl, rfl⟩
  · cases h

theorem foldBinary_eq_none_iff {operator : String} {left right : Expr} :
    foldBinary operator left right = none ↔ ¬ Foldable operator left right := by
  rw [← isSome_foldBinary_iff, Bool.not_eq_true, Option.isSome_eq_false_iff,
    Option.isNone_iff_eq_none]

mutual

/-- A folded expression is normal. The operands are folded before the operation is, so an operation
that is left has normal operands and is not foldable itself. -/
theorem Expr.normal_fold : ∀ value : Expr, value.fold.Normal
  | .call ⟨callee, arguments, ty?⟩ => by
    simp only [Expr.fold, Call.fold]
    exact Expr.normal_call_iff.mpr (Expr.normal_foldAll arguments)
  | .binary operator left right ty? => by
    have hleft := Expr.normal_fold left
    have hright := Expr.normal_fold right
    simp only [Expr.fold]
    cases hfold : foldBinary operator left.fold right.fold with
    | none => exact Expr.normal_binary_iff.mpr ⟨foldBinary_eq_none_iff.mp hfold, hleft, hright⟩
    | some folded => exact Expr.normal_of_isLeaf (isLeaf_of_foldBinary hfold).2.2
  | .boolean _ => Expr.normal_of_isLeaf rfl
  | .number _ _ => Expr.normal_of_isLeaf rfl
  | .string _ _ => Expr.normal_of_isLeaf rfl
  | .reference _ => Expr.normal_of_isLeaf rfl
  | .functionReference _ => Expr.normal_of_isLeaf rfl

theorem Expr.normal_foldAll : ∀ values : List Expr, ∀ value ∈ Expr.foldAll values, value.Normal
  | [] => nofun
  | value :: rest =>
    List.forall_mem_cons.mpr ⟨Expr.normal_fold value, Expr.normal_foldAll rest⟩

end

mutual

/-- Folding leaves a normal expression as it is. -/
theorem Expr.fold_eq_self : ∀ value : Expr, value.Normal → value.fold = value
  | .call ⟨callee, arguments, ty?⟩, h => by
    have harguments := Expr.foldAll_eq_self arguments (Expr.normal_call_iff.mp h)
    simp only [Expr.fold, Call.fold, harguments]
  | .binary operator left right ty?, h => by
    obtain ⟨hself, hleft, hright⟩ := Expr.normal_binary_iff.mp h
    simp only [Expr.fold, Expr.fold_eq_self left hleft, Expr.fold_eq_self right hright,
      foldBinary_eq_none_iff.mpr hself, Option.getD_none]
  | .boolean _, _ => rfl
  | .number _ _, _ => rfl
  | .string _ _, _ => rfl
  | .reference _, _ => rfl
  | .functionReference _, _ => rfl

theorem Expr.foldAll_eq_self : ∀ values : List Expr, (∀ value ∈ values, value.Normal) →
    Expr.foldAll values = values
  | [], _ => rfl
  | value :: rest, h => by
    obtain ⟨hvalue, hrest⟩ := List.forall_mem_cons.mp h
    rw [Expr.foldAll, Expr.fold_eq_self value hvalue, Expr.foldAll_eq_self rest hrest]

end

/-! ### Slots -/

mutual

/-- The arguments of the calls in an expression, each before the arguments inside of it. -/
def Expr.arguments : Expr → List Expr
  | .call ⟨_, arguments, _⟩ => Expr.slotsAll arguments
  | .binary _ left right _ => Expr.arguments left ++ Expr.arguments right
  | .boolean _ | .number _ _ | .string _ _ | .reference _ | .functionReference _ => []

/-- The expressions, each before the arguments of the calls in it. -/
def Expr.slotsAll : List Expr → List Expr
  | [] => []
  | value :: rest => value :: (Expr.arguments value ++ Expr.slotsAll rest)

end

mutual

/-- The slots of a statement that hold expressions: initializers, values, bounds, operands of
comparisons, the defaults of a declaration's parameters and arguments, also in its body. -/
def Statement.slots : Statement → List Expr
  | .functionDeclaration _ _ parameters body =>
    Expr.slotsAll (parameters.filterMap Parameter.default?) ++ Statement.slotsAll body
  | .variableDeclaration _ value | .variableReassignment _ value | .print value
  | .returnValue value | .yieldValue value => Expr.slotsAll [value]
  | .predictiveLoop _ low high _ body => Expr.slotsAll [low, high] ++ Statement.slotsAll body
  | .comparison left right => Expr.slotsAll [left, right]
  | .call ⟨_, arguments, _⟩ => Expr.slotsAll arguments

def Statement.slotsAll : List Statement → List Expr
  | [] => []
  | statement :: rest => Statement.slots statement ++ Statement.slotsAll rest

end

def Program.slots (program : Program) : List Expr := Statement.slotsAll program.statements

theorem Expr.arguments_of_isLeaf {value : Expr} (h : value.isLeaf = true) :
    value.arguments = [] := by
  cases value with
  | call _ => cases h
  | binary _ _ _ _ => cases h
  | _ => rfl

mutual

theorem Expr.arguments_fold : ∀ value : Expr, value.fold.arguments = value.arguments.map Expr.fold
  | .call ⟨_, arguments, _⟩ => by
    simp only [Expr.fold, Call.fold, Expr.arguments]
    exact Expr.slotsAll_foldAll arguments
  | .binary operator left right ty? => by
    have hleft := Expr.arguments_fold left
    have hright := Expr.arguments_fold right
    simp only [Expr.fold, Expr.arguments, List.map_append, ← hleft, ← hright]
    cases hfold : foldBinary operator left.fold right.fold with
    | none => simp only [Option.getD_none, Expr.arguments]
    | some folded =>
      -- No argument is lost with the operation, as its operands are literals.
      obtain ⟨hleft, hright, hfolded⟩ := isLeaf_of_foldBinary hfold
      rw [Option.getD_some, Expr.arguments_of_isLeaf hleft, Expr.arguments_of_isLeaf hright,
        Expr.arguments_of_isLeaf hfolded, List.append_nil]
  | .boolean _ => rfl
  | .number _ _ => rfl
  | .string _ _ => rfl
  | .reference _ => rfl
  | .functionReference _ => rfl

theorem Expr.slotsAll_foldAll : ∀ values : List Expr,
    Expr.slotsAll (Expr.foldAll values) = (Expr.slotsAll values).map Expr.fold
  | [] => rfl
  | value :: rest => by
    simp only [Expr.foldAll, Expr.slotsAll, List.map_cons, List.map_append]
    rw [Expr.arguments_fold value, Expr.slotsAll_foldAll rest]

end

/-- The defaults of folded parameters are the folded defaults. -/
theorem Parameter.filterMap_default?_fold (parameters : List Parameter) :
    (parameters.map Parameter.fold).filterMap Parameter.default? =
      Expr.foldAll (parameters.filterMap Parameter.default?) := by
  rw [Expr.foldAll_eq_map, List.filterMap_map, List.map_filterMap]
  rfl

mutual

/-- Folding a statement folds its slots, each at its place. -/
theorem Statement.slots_fold : ∀ statement : Statement,
    statement.folded.slots = statement.slots.map Expr.fold
  | .functionDeclaration _ _ parameters body => by
    simp only [Statement.folded, Statement.slots, List.map_append]
    rw [Parameter.filterMap_default?_fold, Expr.slotsAll_foldAll, Statement.slotsAll_foldAll body]
  | .predictiveLoop _ low high _ body => by
    simp only [Statement.folded, Statement.slots, List.map_append]
    rw [← Expr.slotsAll_foldAll, Statement.slotsAll_foldAll body]
    rfl
  | .variableDeclaration _ value => Expr.slotsAll_foldAll [value]
  | .variableReassignment _ value => Expr.slotsAll_foldAll [value]
  | .comparison left right => Expr.slotsAll_foldAll [left, right]
  | .print value => Expr.slotsAll_foldAll [value]
  | .returnValue value => Expr.slotsAll_foldAll [value]
  | .yieldValue value => Expr.slotsAll_foldAll [value]
  | .call ⟨_, arguments, _⟩ => Expr.slotsAll_foldAll arguments

theorem Statement.slotsAll_foldAll : ∀ statements : List Statement,
    Statement.slotsAll (Statement.foldedAll statements) =
      (Statement.slotsAll statements).map Expr.fold
  | [] => rfl
  | statement :: rest => by
    simp only [Statement.foldedAll, Statement.slotsAll, List.map_append]
    rw [Statement.slots_fold statement, Statement.slotsAll_foldAll rest]

end

/-! ### Normal programs -/

/-- No operation in any slot of the program is foldable. -/
def Program.Normal (program : Program) : Prop := ∀ slot ∈ program.slots, slot.Normal

theorem Program.normal_fold (program : Program) : program.folded.Normal := by
  intro slot hslot
  unfold Program.slots at hslot
  rw [Program.folded, Statement.slotsAll_foldAll] at hslot
  obtain ⟨value, -, rfl⟩ := List.mem_map.mp hslot
  exact value.normal_fold

theorem Expr.mem_slotsAll_of_mem {values : List Expr} {value : Expr} (h : value ∈ values) :
    value ∈ Expr.slotsAll values := by
  induction values with
  | nil => cases h
  | cons first rest ih =>
    rcases List.mem_cons.mp h with rfl | hrest
    · exact List.mem_cons_self
    · exact List.mem_cons_of_mem _ (List.mem_append_right _ (ih hrest))

/-- Parameters with normal defaults are folded to themselves. -/
theorem Parameter.map_fold_eq_self {parameters : List Parameter}
    (h : ∀ slot ∈ Expr.slotsAll (parameters.filterMap Parameter.default?), slot.Normal) :
    parameters.map Parameter.fold = parameters := by
  have hfold : ∀ parameter ∈ parameters, parameter.fold = parameter := by
    rintro ⟨name, default?⟩ hparameter
    cases default? with
    | none => rfl
    | some default =>
      have hdefault : default ∈ parameters.filterMap Parameter.default? :=
        List.mem_filterMap.mpr ⟨_, hparameter, rfl⟩
      simp only [Parameter.fold, Option.map_some,
        default.fold_eq_self (h default (Expr.mem_slotsAll_of_mem hdefault))]
  exact (List.map_congr_left hfold).trans (List.map_id parameters)

mutual

/-- Folding leaves a statement with normal slots as it is. -/
theorem Statement.fold_eq_self : ∀ statement : Statement,
    (∀ slot ∈ statement.slots, slot.Normal) → statement.folded = statement
  | .functionDeclaration name function parameters body, h => by
    obtain ⟨hparameters, hbody⟩ := List.forall_mem_append.mp h
    simp only [Statement.folded, Parameter.map_fold_eq_self hparameters,
      Statement.foldAll_eq_self body hbody]
  | .predictiveLoop iterator low high pattern body, h => by
    obtain ⟨hbounds, hbody⟩ := List.forall_mem_append.mp h
    have hlow := hbounds low (Expr.mem_slotsAll_of_mem List.mem_cons_self)
    have hhigh :=
      hbounds high (Expr.mem_slotsAll_of_mem (List.mem_cons_of_mem _ List.mem_cons_self))
    simp only [Statement.folded, low.fold_eq_self hlow, high.fold_eq_self hhigh,
      Statement.foldAll_eq_self body hbody]
  | .variableDeclaration _ value, h => by
    simp only [Statement.folded, value.fold_eq_self (h value List.mem_cons_self)]
  | .variableReassignment _ value, h => by
    simp only [Statement.folded, value.fold_eq_self (h value List.mem_cons_self)]
  | .comparison left right, h => by
    have hleft := h left (Expr.mem_slotsAll_of_mem List.mem_cons_self)
    have hright := h right (Expr.mem_slotsAll_of_mem (List.mem_cons_of_mem _ List.mem_cons_self))
    simp only [Statement.folded, left.fold_eq_self hleft, right.fold_eq_self hright]
  | .print value, h => by
    simp only [Statement.folded, value.fold_eq_self (h value List.mem_cons_self)]
  | .returnValue value, h => by
    simp only [Statement.folded, value.fold_eq_self (h value List.mem_cons_self)]
  | .yieldValue value, h => by
    simp only [Statement.folded, value.fold_eq_self (h value List.mem_cons_self)]
  | .call ⟨_, arguments, _⟩, h => by
    have harguments := Expr.foldAll_eq_self arguments fun value hvalue ↦
      h value (Expr.mem_slotsAll_of_mem hvalue)
    simp only [Statement.folded, Call.fold, harguments]

theorem Statement.foldAll_eq_self : ∀ statements : List Statement,
    (∀ slot ∈ Statement.slotsAll statements, slot.Normal) →
      Statement.foldedAll statements = statements
  | [], _ => rfl
  | statement :: rest, h => by
    obtain ⟨hfirst, hrest⟩ := List.forall_mem_append.mp h
    rw [Statement.foldedAll, Statement.fold_eq_self statement hfirst,
      Statement.foldAll_eq_self rest hrest]

end

/-! ### Programs that say the same -/

theorem Ty.equivalent?_refl (ty? : Option Ty) : Ty.equivalent? ty? ty? = true := by
  cases ty? with
  | none => rfl
  | some ty => exact ty.equivalent_refl

theorem Variable.same_refl (target : Variable) : target.same target = true := by
  simp only [Variable.same, beq_self_eq_true, Ty.equivalent?_refl, Bool.and_self]

mutual

theorem Expr.same_refl : ∀ value : Expr, value.same value = true
  | .call invocation => by rw [Expr.same, Call.same_refl invocation]
  | .binary _ left right _ => by
    simp only [Expr.same, beq_self_eq_true, Expr.same_refl left, Expr.same_refl right,
      Ty.equivalent?_refl, Bool.and_self]
  | .boolean _ => by simp only [Expr.same, beq_self_eq_true]
  | .number _ _ => by
    simp only [Expr.same, beq_self_eq_true, Ty.equivalent_refl, Bool.and_self]
  | .string _ _ => by
    simp only [Expr.same, beq_self_eq_true, Ty.equivalent_refl, Bool.and_self]
  | .reference target => by rw [Expr.same, target.same_refl]
  | .functionReference target => by rw [Expr.same, Func.same_refl target]

theorem Expr.sameAll_refl : ∀ values : List Expr, Expr.sameAll values values = true
  | [] => by rw [Expr.sameAll]
  | value :: rest => by
    simp only [Expr.sameAll, Expr.same_refl value, Expr.sameAll_refl rest, Bool.and_self]

theorem Call.same_refl : ∀ invocation : Call, invocation.same invocation = true
  | ⟨callee, arguments, _⟩ => by
    simp only [Call.same, Callee.same_refl callee, Expr.sameAll_refl arguments,
      Ty.equivalent?_refl, Bool.and_self]

theorem Callee.same_refl : ∀ callee : Callee, callee.same callee = true
  | .function target => by rw [Callee.same, Func.same_refl target]
  | .struct _ => by simp only [Callee.same, beq_self_eq_true]

theorem Func.same_refl : ∀ function : Func, function.same function = true
  | ⟨_, _, parameters, _⟩ => by
    simp only [Func.same, beq_self_eq_true, Parameter.sameAll_refl parameters,
      Ty.equivalent?_refl, Bool.and_self]

theorem Parameter.same_refl : ∀ parameter : Parameter, parameter.same parameter = true
  | ⟨_, none⟩ => by simp only [Parameter.same, beq_self_eq_true]
  | ⟨_, some default⟩ => by
    simp only [Parameter.same, beq_self_eq_true, Expr.same_refl default, Bool.and_self]

theorem Parameter.sameAll_refl : ∀ parameters : List Parameter,
    Parameter.sameAll parameters parameters = true
  | [] => by rw [Parameter.sameAll]
  | parameter :: rest => by
    simp only [Parameter.sameAll, Parameter.same_refl parameter, Parameter.sameAll_refl rest,
      Bool.and_self]

end

mutual

theorem Statement.same_refl : ∀ statement : Statement, statement.same statement = true
  | .functionDeclaration name function parameters body => by
    simp only [Statement.same, beq_self_eq_true, function.same_refl, Parameter.sameAll_refl,
      Statement.sameAll_refl body, Bool.and_self]
  | .predictiveLoop iterator low high _ body => by
    simp only [Statement.same, iterator.same_refl, low.same_refl, high.same_refl,
      beq_self_eq_true, Statement.sameAll_refl body, Bool.and_self]
  | .variableDeclaration target value => by
    simp only [Statement.same, target.same_refl, value.same_refl, Bool.and_self]
  | .variableReassignment target value => by
    simp only [Statement.same, target.same_refl, value.same_refl, Bool.and_self]
  | .comparison left right => by
    simp only [Statement.same, left.same_refl, right.same_refl, Bool.and_self]
  | .print value => value.same_refl
  | .returnValue value => value.same_refl
  | .yieldValue value => value.same_refl
  | .call invocation => invocation.same_refl

theorem Statement.sameAll_refl : ∀ statements : List Statement,
    Statement.sameAll statements statements = true
  | [] => rfl
  | statement :: rest => by
    simp only [Statement.sameAll, Statement.same_refl statement, Statement.sameAll_refl rest,
      Bool.and_self]

end

theorem Expr.not_same_binary_of_isLeaf {value : Expr} (h : value.isLeaf = true)
    (operator : String) (left right : Expr) (ty? : Option Ty) :
    value.same (.binary operator left right ty?) = false := by
  cases value with
  | call _ => cases h
  | binary _ _ _ _ => cases h
  | _ => simp only [Expr.same]

mutual

/-- An expression that folding changes is not the same as before: a folded operation is a literal,
and a literal is not the same as an operation. -/
theorem Expr.fold_eq_of_same : ∀ value : Expr, value.fold.same value = true → value.fold = value
  | .call ⟨callee, arguments, ty?⟩, h => by
    simp only [Expr.fold, Call.fold, Expr.same, Call.same, Bool.and_eq_true] at h
    simp only [Expr.fold, Call.fold, Expr.foldAll_eq_of_same arguments h.1.2]
  | .binary operator left right ty?, h => by
    simp only [Expr.fold] at h ⊢
    cases hfold : foldBinary operator left.fold right.fold with
    | none =>
      rw [hfold, Option.getD_none] at h
      simp only [Expr.same, Bool.and_eq_true] at h
      rw [Option.getD_none, Expr.fold_eq_of_same left h.1.1.2, Expr.fold_eq_of_same right h.1.2]
    | some folded =>
      have hleaf := (isLeaf_of_foldBinary hfold).2.2
      rw [hfold, Option.getD_some, Expr.not_same_binary_of_isLeaf hleaf] at h
      cases h
  | .boolean _, _ => rfl
  | .number _ _, _ => rfl
  | .string _ _, _ => rfl
  | .reference _, _ => rfl
  | .functionReference _, _ => rfl

theorem Expr.foldAll_eq_of_same : ∀ values : List Expr,
    Expr.sameAll (Expr.foldAll values) values = true → Expr.foldAll values = values
  | [], _ => rfl
  | value :: rest, h => by
    simp only [Expr.foldAll, Expr.sameAll, Bool.and_eq_true] at h
    rw [Expr.foldAll, Expr.fold_eq_of_same value h.1, Expr.foldAll_eq_of_same rest h.2]

end

theorem Parameter.map_fold_eq_of_same {parameters : List Parameter}
    (h : Parameter.sameAll (parameters.map Parameter.fold) parameters = true) :
    parameters.map Parameter.fold = parameters := by
  induction parameters with
  | nil => rfl
  | cons parameter rest ih =>
    simp only [List.map_cons, Parameter.sameAll, Bool.and_eq_true] at h
    have hparameter : parameter.fold = parameter := by
      obtain ⟨name, default?⟩ := parameter
      cases default? with
      | none => rfl
      | some default =>
        simp only [Parameter.fold, Option.map_some, Parameter.same, Bool.and_eq_true] at h
        simp only [Parameter.fold, Option.map_some, default.fold_eq_of_same h.1.2]
    rw [List.map_cons, hparameter, ih h.2]

mutual

theorem Statement.fold_eq_of_same : ∀ statement : Statement,
    statement.folded.same statement = true → statement.folded = statement
  | .functionDeclaration name function parameters body, h => by
    simp only [Statement.folded, Statement.same, Bool.and_eq_true] at h
    simp only [Statement.folded, Parameter.map_fold_eq_of_same h.1.2,
      Statement.foldAll_eq_of_same body h.2]
  | .predictiveLoop iterator low high pattern body, h => by
    simp only [Statement.folded, Statement.same, Bool.and_eq_true] at h
    simp only [Statement.folded, low.fold_eq_of_same h.1.1.1.2, high.fold_eq_of_same h.1.1.2,
      Statement.foldAll_eq_of_same body h.2]
  | .variableDeclaration target value, h => by
    simp only [Statement.folded, Statement.same, Bool.and_eq_true] at h
    simp only [Statement.folded, value.fold_eq_of_same h.2]
  | .variableReassignment target value, h => by
    simp only [Statement.folded, Statement.same, Bool.and_eq_true] at h
    simp only [Statement.folded, value.fold_eq_of_same h.2]
  | .comparison left right, h => by
    simp only [Statement.folded, Statement.same, Bool.and_eq_true] at h
    simp only [Statement.folded, left.fold_eq_of_same h.1, right.fold_eq_of_same h.2]
  | .print value, h => congrArg Statement.print (value.fold_eq_of_same h)
  | .returnValue value, h => congrArg Statement.returnValue (value.fold_eq_of_same h)
  | .yieldValue value, h => congrArg Statement.yieldValue (value.fold_eq_of_same h)
  | .call invocation, h => by
    have hcall : (Expr.call invocation).fold.same (.call invocation) = true := by
      simp only [Expr.fold, Expr.same]
      exact h
    exact congrArg Statement.call (Expr.call.inj ((Expr.call invocation).fold_eq_of_same hcall))

theorem Statement.foldAll_eq_of_same : ∀ statements : List Statement,
    Statement.sameAll (Statement.foldedAll statements) statements = true →
      Statement.foldedAll statements = statements
  | [], _ => rfl
  | statement :: rest, h => by
    simp only [Statement.foldedAll, Statement.sameAll, Bool.and_eq_true] at h
    rw [Statement.foldedAll, Statement.fold_eq_of_same statement h.1,
      Statement.foldAll_eq_of_same rest h.2]

end

/-- A program is folded to itself exactly if it is normal. -/
theorem Program.fold_eq_self_iff {program : Program} :
    program.folded = program ↔ program.Normal := by
  constructor
  · intro h
    rw [← h]
    exact program.normal_fold
  · intro h
    exact congrArg Program.mk (Statement.foldAll_eq_self program.statements h)

theorem Program.fold_eq_of_same {program : Program} (h : program.folded.same program = true) :
    program.folded = program :=
  congrArg Program.mk (Statement.foldAll_eq_of_same program.statements h)

/-- One pass of folding reaches a normal form, whatever bodies the functions have. The literals that
folding accepts are those of the foldable operations; a folded program has no foldable operation in
any slot, and folding it again leaves it as it is; and folding leaves a program as it is, or makes
one that says the same, exactly if the program has no foldable operation. -/
theorem fold_reaches_normal_form (program : Program) (bodies : Bodies) :
    (∀ operator left right,
        (foldBinary operator left right).isSome = true ↔ Foldable operator left right) ∧
      (program.fold bodies).1.Normal ∧
      (∀ later, ((program.fold bodies).1.fold later).1 = (program.fold bodies).1) ∧
      ((program.fold bodies).1 = program ↔ program.Normal) ∧
      ((program.fold bodies).1.same program = true ↔ program.Normal) := by
  simp only [Program.fold_fst]
  refine ⟨fun _ _ _ ↦ isSome_foldBinary_iff, program.normal_fold,
    fun _ ↦ Program.fold_eq_self_iff.mpr program.normal_fold, Program.fold_eq_self_iff, ?_⟩
  constructor
  · intro hsame
    exact Program.fold_eq_self_iff.mp (Program.fold_eq_of_same hsame)
  · intro hnormal
    rw [Program.fold_eq_self_iff.mpr hnormal]
    exact Statement.sameAll_refl program.statements

end Presage
