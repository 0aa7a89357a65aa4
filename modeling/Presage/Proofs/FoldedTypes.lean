import Mathlib.Data.List.Forall2
import Presage.Proofs.NormalForms
import Presage.Proofs.Typing

/-!
Folding keeps types. The literal that an operation is folded to gets its type from what the operands
are, and not from the operation. That the two agree is due to the analysis: in a well-typed
expression numbers are integers, so arithmetic on them has the type of integers, a sum of strings
that of strings, and the logic of booleans that of booleans (`WellTyped.of_foldBinary`). Without it
the type could change: nothing keeps an expression from carrying any other type.

`Expr.wellTyped_fold` goes through whole expressions. Statements stay well typed too, except that
the parameters of a declaration are folded and those of its function are not, so that they agree
only in what `Parameter.Agrees` says; `Statement.TypesAgree` is the judgement for folded statements.
`folding_keeps_types` is the result for the programs of sources.
-/

set_option autoImplicit false
set_option relaxedAutoImplicit false

namespace Presage

/-! ### Folded expressions -/

/-- Arithmetic of two integers is an integer. -/
theorem OperatorTyped.ty?_of_integers {operator : String} {ty? : Option Ty}
    (h : OperatorTyped operator (some .int) (some .int) ty?)
    (hoperator : operator ∈ ["+", "-", "*", "/"]) : ty? = some .int := by
  refine (h.arithmetic hoperator ?_ .int rfl .int rfl).2.2
  rintro ⟨-, hstring⟩
  rcases hstring with hstring | hstring <;> cases hstring

/-- A literal that folding makes of well-typed operands is well typed, and has the type of the
operation. -/
theorem Expr.WellTyped.of_foldBinary {operator : String} {left right folded : Expr}
    {ty? : Option Ty} (hleft : left.WellTyped) (hright : right.WellTyped)
    (hty : OperatorTyped operator left.ty? right.ty? ty?)
    (h : foldBinary operator left right = some folded) :
    folded.WellTyped ∧ folded.ty? = ty? := by
  have hfoldable : Foldable operator left right := isSome_foldBinary_iff.mp (h ▸ rfl)
  cases hfoldable with
  | sum | difference | product | quotient =>
    cases hleft
    cases hright
    obtain ⟨value, -, rfl⟩ := Option.map_eq_some_iff.mp h
    exact ⟨.number, (hty.ty?_of_integers (by decide)).symm⟩
  | joining =>
    cases hleft
    obtain rfl := Option.some.inj h
    exact ⟨.string, (hty.concatenation rfl (Or.inl rfl)).symm⟩
  | conjunction | disjunction =>
    obtain rfl := Option.some.inj h
    exact ⟨.boolean, (hty.logical (by decide)).2.2.symm⟩

mutual

/-- Folding keeps an expression well typed, and keeps its type. -/
theorem Expr.wellTyped_fold : ∀ value : Expr, value.WellTyped →
    value.fold.WellTyped ∧ value.fold.ty? = value.ty?
  | .call ⟨callee, arguments, ty?⟩, h => by
    have hlength : (Expr.foldAll arguments).length = arguments.length := by
      rw [Expr.foldAll_eq_map, List.length_map]
    cases h with
    | call htarget hcount harguments =>
      have hfolded := Expr.wellTyped_foldAll arguments harguments
      exact ⟨.call htarget (hlength.trans hcount) hfolded, rfl⟩
    | construct harguments =>
      exact ⟨.construct (Expr.wellTyped_foldAll arguments harguments), rfl⟩
  | .binary operator left right ty?, h => by
    cases h with
    | binary hleft hright hty =>
      obtain ⟨hleft, hleftTy⟩ := Expr.wellTyped_fold left hleft
      obtain ⟨hright, hrightTy⟩ := Expr.wellTyped_fold right hright
      rw [← hleftTy, ← hrightTy] at hty
      simp only [Expr.fold]
      cases hfold : foldBinary operator left.fold right.fold with
      | none => exact ⟨.binary hleft hright hty, rfl⟩
      | some folded => exact hleft.of_foldBinary hright hty hfold
  | .boolean _, h => ⟨h, rfl⟩
  | .number _ _, h => ⟨h, rfl⟩
  | .string _ _, h => ⟨h, rfl⟩
  | .reference _, h => ⟨h, rfl⟩
  | .functionReference _, h => ⟨h, rfl⟩

theorem Expr.wellTyped_foldAll : ∀ values : List Expr, (∀ value ∈ values, value.WellTyped) →
    ∀ value ∈ Expr.foldAll values, value.WellTyped
  | [], _ => List.forall_mem_nil _
  | value :: rest, h => by
    obtain ⟨hvalue, hrest⟩ := List.forall_mem_cons.mp h
    exact List.forall_mem_cons.mpr
      ⟨(Expr.wellTyped_fold value hvalue).1, Expr.wellTyped_foldAll rest hrest⟩

end

theorem Expr.WellTyped.fold {value : Expr} (h : value.WellTyped) : value.fold.WellTyped :=
  (value.wellTyped_fold h).1

theorem Expr.WellTyped.ty?_fold {value : Expr} (h : value.WellTyped) :
    value.fold.ty? = value.ty? :=
  (value.wellTyped_fold h).2

/-! ### Slots of well-typed statements -/

mutual

theorem Expr.wellTyped_arguments : ∀ value : Expr, value.WellTyped →
    ∀ slot ∈ value.arguments, slot.WellTyped
  | .call ⟨_, arguments, _⟩, h => by
    cases h with
    | call _ _ harguments => exact Expr.wellTyped_slotsAll arguments harguments
    | construct harguments => exact Expr.wellTyped_slotsAll arguments harguments
  | .binary _ left right _, h => by
    cases h with
    | binary hleft hright _ =>
      exact List.forall_mem_append.mpr
        ⟨Expr.wellTyped_arguments left hleft, Expr.wellTyped_arguments right hright⟩
  | .boolean _, _ => List.forall_mem_nil _
  | .number _ _, _ => List.forall_mem_nil _
  | .string _ _, _ => List.forall_mem_nil _
  | .reference _, _ => List.forall_mem_nil _
  | .functionReference _, _ => List.forall_mem_nil _

theorem Expr.wellTyped_slotsAll : ∀ values : List Expr, (∀ value ∈ values, value.WellTyped) →
    ∀ slot ∈ Expr.slotsAll values, slot.WellTyped
  | [], _ => List.forall_mem_nil _
  | value :: rest, h => by
    obtain ⟨hvalue, hrest⟩ := List.forall_mem_cons.mp h
    exact List.forall_mem_cons.mpr ⟨hvalue, List.forall_mem_append.mpr
      ⟨Expr.wellTyped_arguments value hvalue, Expr.wellTyped_slotsAll rest hrest⟩⟩

end

theorem Func.WellTyped.defaults {function : Func} (h : function.WellTyped) :
    ∀ default ∈ function.parameters.filterMap Parameter.default?, default.WellTyped := by
  intro default hdefault
  obtain ⟨parameter, hparameter, hsome⟩ := List.mem_filterMap.mp hdefault
  cases h with
  | intro hdefaults => exact hdefaults parameter hparameter default hsome

mutual

/-- Every slot of a well-typed statement is well typed. -/
theorem Statement.wellTyped_slots : ∀ statement : Statement, statement.WellTyped →
    ∀ slot ∈ statement.slots, slot.WellTyped
  | .functionDeclaration _ _ _ body, h => by
    cases h with
    | functionDeclaration hfunction hparameters hbody =>
      subst hparameters
      exact List.forall_mem_append.mpr ⟨Expr.wellTyped_slotsAll _ hfunction.defaults,
        Statement.wellTyped_slotsOfAll body hbody⟩
  | .predictiveLoop _ _ _ _ body, h => by
    cases h with
    | predictiveLoop hlow hhigh _ _ _ hbody =>
      refine List.forall_mem_append.mpr ⟨Expr.wellTyped_slotsAll _ ?_,
        Statement.wellTyped_slotsOfAll body hbody⟩
      exact List.forall_mem_cons.mpr ⟨hlow, List.forall_mem_singleton.mpr hhigh⟩
  | .variableDeclaration _ _, .variableDeclaration hvalue _ =>
    Expr.wellTyped_slotsAll _ (List.forall_mem_singleton.mpr hvalue)
  | .variableReassignment _ _, .variableReassignment hvalue _ =>
    Expr.wellTyped_slotsAll _ (List.forall_mem_singleton.mpr hvalue)
  | .comparison _ _, .comparison hleft hright _ =>
    Expr.wellTyped_slotsAll _
      (List.forall_mem_cons.mpr ⟨hleft, List.forall_mem_singleton.mpr hright⟩)
  | .print _, .print hvalue => Expr.wellTyped_slotsAll _ (List.forall_mem_singleton.mpr hvalue)
  | .returnValue _, .returnValue hvalue =>
    Expr.wellTyped_slotsAll _ (List.forall_mem_singleton.mpr hvalue)
  | .yieldValue _, .yieldValue hvalue =>
    Expr.wellTyped_slotsAll _ (List.forall_mem_singleton.mpr hvalue)
  | .call ⟨callee, arguments, ty?⟩, .call hcall =>
    Expr.wellTyped_arguments (.call ⟨callee, arguments, ty?⟩) hcall

theorem Statement.wellTyped_slotsOfAll : ∀ statements : List Statement,
    (∀ statement ∈ statements, statement.WellTyped) →
      ∀ slot ∈ Statement.slotsAll statements, slot.WellTyped
  | [], _ => List.forall_mem_nil _
  | statement :: rest, h => by
    obtain ⟨hstatement, hrest⟩ := List.forall_mem_cons.mp h
    exact List.forall_mem_append.mpr ⟨Statement.wellTyped_slots statement hstatement,
      Statement.wellTyped_slotsOfAll rest hrest⟩

end

/-! ### Folded statements -/

/-- The parameters have the same name and type, and both have to be passed or neither has. -/
structure Parameter.Agrees (first second : Parameter) : Prop where
  name : first.name = second.name
  isRequired : first.isRequired = second.isRequired
  ty? : first.ty? = second.ty?

/-- The types in a statement, and in those inside of it, are those that its parts give. The defaults
of a declaration may be other expressions than those of its function, of the same types. -/
inductive Statement.TypesAgree : Statement → Prop
  | functionDeclaration {name : String} {function : Func} {parameters : List Parameter}
      {body : List Statement} (hfunction : function.WellTyped)
      (hdefaults : ∀ default ∈ parameters.filterMap Parameter.default?, default.WellTyped)
      (hparameters : List.Forall₂ Parameter.Agrees parameters function.parameters)
      (hbody : ∀ statement ∈ body, Statement.TypesAgree statement) :
      Statement.TypesAgree (.functionDeclaration name function parameters body)
  | variableDeclaration {target : Variable} {initializer : Expr}
      (hinitializer : initializer.WellTyped) (hty : target.ty? = initializer.ty?) :
      Statement.TypesAgree (.variableDeclaration target initializer)
  | variableReassignment {target : Variable} {value : Expr} (hvalue : value.WellTyped)
      (hty : target.ty? = value.ty?) : Statement.TypesAgree (.variableReassignment target value)
  | predictiveLoop {iterator : Variable} {low high : Expr} {pattern : String}
      {body : List Statement} (hlow : low.WellTyped) (hhigh : high.WellTyped)
      (hlowTy : low.ty? = some .int) (hhighTy : high.ty? = some .int)
      (hiterator : iterator.ty? = some .int)
      (hbody : ∀ statement ∈ body, Statement.TypesAgree statement) :
      Statement.TypesAgree (.predictiveLoop iterator low high pattern body)
  | comparison {left right : Expr} (hleft : left.WellTyped) (hright : right.WellTyped)
      (htys : ∀ leftTy ∈ left.ty?, ∀ rightTy ∈ right.ty?, leftTy.equivalent rightTy) :
      Statement.TypesAgree (.comparison left right)
  | print {value : Expr} (hvalue : value.WellTyped) : Statement.TypesAgree (.print value)
  | returnValue {value : Expr} (hvalue : value.WellTyped) :
      Statement.TypesAgree (.returnValue value)
  | yieldValue {value : Expr} (hvalue : value.WellTyped) : Statement.TypesAgree (.yieldValue value)
  | call {invocation : Call} (hcall : (Expr.call invocation).WellTyped) :
      Statement.TypesAgree (.call invocation)

/-- A folded parameter agrees with the parameter. -/
theorem Parameter.agrees_fold {parameter : Parameter}
    (h : ∀ default ∈ parameter.default?, default.WellTyped) : parameter.fold.Agrees parameter := by
  obtain ⟨name, default?⟩ := parameter
  cases default? with
  | none => exact ⟨rfl, rfl, rfl⟩
  | some default => exact ⟨rfl, rfl, (h default rfl).ty?_fold⟩

theorem Func.WellTyped.agrees_fold {function : Func} (h : function.WellTyped) :
    List.Forall₂ Parameter.Agrees (function.parameters.map Parameter.fold)
      function.parameters := by
  cases h with
  | intro hdefaults =>
    refine List.forall₂_map_left_iff.mpr (List.forall₂_same.mpr fun parameter hparameter ↦ ?_)
    exact Parameter.agrees_fold (hdefaults parameter hparameter)

mutual

/-- Folding a well-typed statement keeps the types in it in agreement. -/
theorem Statement.typesAgree_fold : ∀ statement : Statement, statement.WellTyped →
    statement.folded.TypesAgree
  | .functionDeclaration _ _ _ body, h => by
    cases h with
    | functionDeclaration hfunction hparameters hbody =>
      subst hparameters
      refine .functionDeclaration hfunction ?_ hfunction.agrees_fold
        (Statement.typesAgree_foldAll body hbody)
      rw [Parameter.filterMap_default?_fold]
      exact Expr.wellTyped_foldAll _ hfunction.defaults
  | .predictiveLoop _ _ _ _ body, h => by
    cases h with
    | predictiveLoop hlow hhigh hlowTy hhighTy hiterator hbody =>
      exact .predictiveLoop hlow.fold hhigh.fold (hlow.ty?_fold.trans hlowTy)
        (hhigh.ty?_fold.trans hhighTy) hiterator (Statement.typesAgree_foldAll body hbody)
  | .variableDeclaration _ _, .variableDeclaration hvalue hty =>
    .variableDeclaration hvalue.fold (hty.trans hvalue.ty?_fold.symm)
  | .variableReassignment _ _, .variableReassignment hvalue hty =>
    .variableReassignment hvalue.fold (hty.trans hvalue.ty?_fold.symm)
  | .comparison _ _, .comparison hleft hright htys => by
    refine .comparison hleft.fold hright.fold ?_
    rw [hleft.ty?_fold, hright.ty?_fold]
    exact htys
  | .print _, .print hvalue => .print hvalue.fold
  | .returnValue _, .returnValue hvalue => .returnValue hvalue.fold
  | .yieldValue _, .yieldValue hvalue => .yieldValue hvalue.fold
  | .call _, .call hcall => .call hcall.fold

theorem Statement.typesAgree_foldAll : ∀ statements : List Statement,
    (∀ statement ∈ statements, statement.WellTyped) →
      ∀ statement ∈ Statement.foldedAll statements, statement.TypesAgree
  | [], _ => List.forall_mem_nil _
  | statement :: rest, h => by
    obtain ⟨hstatement, hrest⟩ := List.forall_mem_cons.mp h
    exact List.forall_mem_cons.mpr ⟨Statement.typesAgree_fold statement hstatement,
      Statement.typesAgree_foldAll rest hrest⟩

end

/-! ### Programs of sources -/

theorem Source.wellTyped_of_program {source : Source} {program : Program}
    (h : source.program false = .ok program) :
    ∀ statement ∈ program.statements, statement.WellTyped := by
  obtain ⟨span, nodes, results, last, -, hresults, hstatements⟩ := Source.exists_of_program h
  rw [hstatements]
  exact Analysis.wellTyped_of_sequence (Analysis.hereditary_wellTyped.statements nodes hresults)
    (Frame.each_root fun _ _ ↦ trivial)

/-- Folding the program of a source folds every slot to an expression of the same type. So the types
in the folded program agree: variables have the type of their value, bounds are integers, compared
operands have equivalent types if both are known, calls pass as many arguments as have to be passed,
and the parameters of a declaration agree with those of its function. -/
theorem folding_keeps_types {source : Source} {program : Program}
    (h : source.program false = .ok program) :
    List.Forall₂ (fun before after ↦ after = before.fold ∧ after.ty? = before.ty?) program.slots
        program.folded.slots ∧
      ∀ statement ∈ program.folded.statements, statement.TypesAgree := by
  have htyped := Source.wellTyped_of_program h
  have hfold : program.folded.slots = program.slots.map Expr.fold :=
    Statement.slotsAll_foldAll program.statements
  refine ⟨?_, Statement.typesAgree_foldAll program.statements htyped⟩
  rw [hfold]
  refine List.forall₂_map_right_iff.mpr (List.forall₂_same.mpr fun slot hslot ↦ ⟨rfl, ?_⟩)
  exact (Statement.wellTyped_slotsOfAll program.statements htyped slot hslot).ty?_fold

/-- The theorem at a source with a default, bounds, operands and an argument that are folded, and a
quotient in the argument that is not. -/
theorem folding_keeps_types_nested :
    ∃ source, source = Source.ofText ""
        ("define g(a, b = 1 + 2) then\n" ++
          "  for i in predictive_range(0 + 1, 2 * 5, prime) \x7b\n    yield a + i\n  \x7d\n" ++
          "compare \"n\" + \"m\" to \"n\"\nlet c = g(7 / 2 + (3 - 1))") ∧
      ∃ program, source.program false = .ok program ∧ program.slots.length = 8 ∧
        List.Forall₂ (fun before after ↦ after = before.fold ∧ after.ty? = before.ty?)
            program.slots program.folded.slots ∧
          ∀ statement ∈ program.folded.statements, statement.TypesAgree := by
  refine ⟨_, rfl, (exists_of_any ?_).imp fun program h ↦ ⟨h.1, h.2, folding_keeps_types h.1⟩⟩
  decide +kernel

end Presage
