import Presage.Proofs.Scoping

/-!
Well-typed programs. Types are not checked against annotations: they are read back from values and
from the entities that uses hold, and a type that is not known is `none`. `Expr.WellTyped` and
`Statement.WellTyped` say, for every node of a program, what the types it carries have to do with
those of its parts. The defaults of a function are part of every use of it.

An accepted expression is well typed when every function in its context is
(`Accepted.wellTyped`), and a function that is declared has well-typed defaults because they were
accepted before it was bound. So the well-typed functions of a context stay so along an analysis
(`hereditary_wellTyped`), and `program_wellTyped` says that the program of a source is well typed.
-/

set_option autoImplicit false
set_option relaxedAutoImplicit false

namespace Presage

/-! ### The judgement -/

/-- The type of a binary expression is the one its operator gives for the types of its operands. A
sum with a string is a string. Any other arithmetic of known operands takes integers and floats and
is an integer, and of an unknown operand is unknown. `and` and `or` take and give booleans. -/
structure OperatorTyped (operator : String) (left? right? ty? : Option Ty) : Prop where
  known : operator ∈ ["+", "-", "*", "/", "and", "or"]
  concatenation : operator = "+" → left? = some .string ∨ right? = some .string →
    ty? = some .string
  arithmetic : operator ∈ ["+", "-", "*", "/"] →
    ¬ (operator = "+" ∧ (left? = some .string ∨ right? = some .string)) →
    ∀ left ∈ left?, ∀ right ∈ right?,
      (left = .int ∨ left = .float) ∧ (right = .int ∨ right = .float) ∧ ty? = some .int
  unknown : operator ∈ ["+", "-", "*", "/"] →
    ¬ (operator = "+" ∧ (left? = some .string ∨ right? = some .string)) →
    left? = none ∨ right? = none → ty? = none
  logical : operator ∈ ["and", "or"] →
    left? = some .boolean ∧ right? = some .boolean ∧ ty? = some .boolean

mutual

/-- The types in an expression are those that its parts give. -/
inductive Expr.WellTyped : Expr → Prop
  | call {target : Func} {arguments : List Expr} (htarget : Func.WellTyped target)
      (hcount : arguments.length = target.requiredCount)
      (harguments : ∀ value ∈ arguments, Expr.WellTyped value) :
      Expr.WellTyped (.call ⟨.function target, arguments, target.returnType?⟩)
  | construct {target : StructType} {arguments : List Expr}
      (harguments : ∀ value ∈ arguments, Expr.WellTyped value) :
      Expr.WellTyped (.call ⟨.struct target, arguments, some (.struct target)⟩)
  | binary {operator : String} {left right : Expr} {ty? : Option Ty}
      (hleft : Expr.WellTyped left) (hright : Expr.WellTyped right)
      (hty : OperatorTyped operator left.ty? right.ty? ty?) :
      Expr.WellTyped (.binary operator left right ty?)
  | boolean {value : Bool} : Expr.WellTyped (.boolean value)
  | number {value : Int} : Expr.WellTyped (.number value .int)
  | string {value : String} : Expr.WellTyped (.string value .string)
  | reference {target : Variable} : Expr.WellTyped (.reference target)
  | functionReference {target : Func} (htarget : Func.WellTyped target) :
      Expr.WellTyped (.functionReference target)

/-- The defaults of a function are well typed. -/
inductive Func.WellTyped : Func → Prop
  | intro {target : Func}
      (hdefaults : ∀ parameter ∈ target.parameters, ∀ default ∈ parameter.default?,
        Expr.WellTyped default) :
      Func.WellTyped target

end

/-- The types in a statement, and in those inside of it, are those that its parts give. -/
inductive Statement.WellTyped : Statement → Prop
  | functionDeclaration {name : String} {function : Func} {parameters : List Parameter}
      {body : List Statement} (hfunction : function.WellTyped)
      (hparameters : parameters = function.parameters)
      (hbody : ∀ statement ∈ body, Statement.WellTyped statement) :
      Statement.WellTyped (.functionDeclaration name function parameters body)
  | variableDeclaration {target : Variable} {initializer : Expr}
      (hinitializer : initializer.WellTyped) (hty : target.ty? = initializer.ty?) :
      Statement.WellTyped (.variableDeclaration target initializer)
  | variableReassignment {target : Variable} {value : Expr} (hvalue : value.WellTyped)
      (hty : target.ty? = value.ty?) : Statement.WellTyped (.variableReassignment target value)
  | predictiveLoop {iterator : Variable} {low high : Expr} {pattern : String}
      {body : List Statement} (hlow : low.WellTyped) (hhigh : high.WellTyped)
      (hlowTy : low.ty? = some .int) (hhighTy : high.ty? = some .int)
      (hiterator : iterator.ty? = some .int)
      (hbody : ∀ statement ∈ body, Statement.WellTyped statement) :
      Statement.WellTyped (.predictiveLoop iterator low high pattern body)
  | comparison {left right : Expr} (hleft : left.WellTyped) (hright : right.WellTyped)
      (htys : ∀ leftTy ∈ left.ty?, ∀ rightTy ∈ right.ty?, leftTy.equivalent rightTy) :
      Statement.WellTyped (.comparison left right)
  | print {value : Expr} (hvalue : value.WellTyped) : Statement.WellTyped (.print value)
  | returnValue {value : Expr} (hvalue : value.WellTyped) :
      Statement.WellTyped (.returnValue value)
  | yieldValue {value : Expr} (hvalue : value.WellTyped) : Statement.WellTyped (.yieldValue value)
  | call {invocation : Call} (hcall : (Expr.call invocation).WellTyped) :
      Statement.WellTyped (.call invocation)

/-- What a name is bound to is well typed. -/
def Entity.WellTyped : Entity → Prop
  | .func target => target.WellTyped
  | .var _ | .type _ => True

/-! ### Operators -/

namespace OperatorTyped

variable {operator : String} {left? right? ty? : Option Ty}

/-- No arithmetic operator is a logical one. -/
theorem not_logical (hoperator : operator ∈ ["+", "-", "*", "/"]) : operator ∉ ["and", "or"] := by
  have hdisjoint : ∀ operator ∈ ["+", "-", "*", "/"], operator ∉ ["and", "or"] := by decide
  exact hdisjoint operator hoperator

theorem of_concatenation (hoperator : operator = "+")
    (hstring : left? = some .string ∨ right? = some .string) :
    OperatorTyped operator left? right? (some .string) where
  known := by rw [hoperator]; decide
  concatenation _ _ := rfl
  arithmetic _ hplain := (hplain ⟨hoperator, hstring⟩).elim
  unknown _ hplain := (hplain ⟨hoperator, hstring⟩).elim
  logical hlogical := (not_logical (hoperator ▸ List.mem_cons_self) hlogical).elim

theorem of_known {left right : Ty} (hoperator : operator ∈ ["+", "-", "*", "/"])
    (hplain : ¬ (operator = "+" ∧ (some left = some .string ∨ some right = some .string)))
    (hleft : left = .int ∨ left = .float) (hright : right = .int ∨ right = .float) :
    OperatorTyped operator (some left) (some right) (some .int) where
  known := List.mem_append_left ["and", "or"] hoperator
  concatenation hsum hstring := (hplain ⟨hsum, hstring⟩).elim
  arithmetic _ _ first hfirst second hsecond := by
    rw [← Option.some.inj hfirst, ← Option.some.inj hsecond]
    exact ⟨hleft, hright, rfl⟩
  unknown _ _ hnone := by simp only [reduceCtorEq, or_self] at hnone
  logical hlogical := (not_logical hoperator hlogical).elim

theorem of_unknown (hoperator : operator ∈ ["+", "-", "*", "/"])
    (hplain : ¬ (operator = "+" ∧ (left? = some .string ∨ right? = some .string)))
    (hunknown : ∀ left right, left? = some left → right? = some right → False) :
    OperatorTyped operator left? right? none where
  known := List.mem_append_left ["and", "or"] hoperator
  concatenation hsum hstring := (hplain ⟨hsum, hstring⟩).elim
  arithmetic _ _ left hleft right hright := (hunknown left right hleft hright).elim
  unknown _ _ _ := rfl
  logical hlogical := (not_logical hoperator hlogical).elim

theorem of_logical (hoperator : operator ∈ ["and", "or"]) (hleft : left? = some .boolean)
    (hright : right? = some .boolean) : OperatorTyped operator left? right? (some .boolean) where
  known := List.mem_append_right ["+", "-", "*", "/"] hoperator
  concatenation hsum := (not_logical (hsum ▸ List.mem_cons_self) hoperator).elim
  arithmetic harithmetic := (not_logical harithmetic hoperator).elim
  unknown harithmetic := (not_logical harithmetic hoperator).elim
  logical _ := ⟨hleft, hright, rfl⟩

end OperatorTyped

/-- Types without parts. -/
def Ty.isBasic : Ty → Bool
  | .struct _ | .function _ _ | .array _ | .optional _ => false
  | _ => true

/-- A type without parts is interchangeable with itself alone. -/
theorem Ty.equivalent_iff_of_isBasic {ty basic : Ty} (hbasic : basic.isBasic = true) :
    ty.equivalent basic = true ↔ ty = basic := by
  cases basic <;> cases hbasic <;> cases ty <;> simp [Ty.equivalent]

theorem Ty.equivalent?_iff_of_isBasic {ty? : Option Ty} {basic : Ty}
    (hbasic : basic.isBasic = true) :
    Ty.equivalent? ty? (some basic) = true ↔ ty? = some basic := by
  cases ty? with
  | none => simp only [Ty.equivalent?, Bool.false_eq_true, reduceCtorEq]
  | some ty => simp only [Ty.equivalent?, Ty.equivalent_iff_of_isBasic hbasic, Option.some.injEq]

theorem Ty.isNumeric_iff {ty : Ty} : ty.isNumeric = true ↔ ty = .int ∨ ty = .float := by
  cases ty <;> simp [Ty.isNumeric]

namespace Analysis

variable {source : Source} {context : Context}

/-- The type of an accepted binary expression is the one that its operator gives. -/
theorem operatorTyped_of_binaryTy? {left operator right : Node} {left? right? ty? : Option Ty}
    (h : binaryTy? source left operator right left? right? = .ok ty?) :
    OperatorTyped (operator.text source) left? right? ty? := by
  have hstring (ty? : Option Ty) : Ty.equivalent? ty? (some .string) = true ↔ ty? = some .string :=
    Ty.equivalent?_iff_of_isBasic rfl
  simp only [binaryTy?] at h
  split at h
  · next hconcatenation =>
    rw [hstring, hstring] at hconcatenation
    obtain rfl := Except.ok.inj h
    exact .of_concatenation hconcatenation.1 hconcatenation.2
  · next hplain =>
    rw [hstring, hstring] at hplain
    split at h
    · next harithmetic =>
      split at h
      · next left right =>
        obtain ⟨_, hleft, h⟩ := exists_of_bind_eq_ok h
        obtain ⟨_, hright, h⟩ := exists_of_bind_eq_ok h
        obtain rfl := Except.ok.inj h
        have hleft := Ty.isNumeric_iff.mp (of_require hleft)
        have hright := Ty.isNumeric_iff.mp (of_require hright)
        exact .of_known harithmetic hplain hleft hright
      · next hunknown =>
        obtain rfl := Except.ok.inj h
        exact .of_unknown harithmetic hplain hunknown
    · split at h
      · next hlogical =>
        obtain ⟨_, hleft, h⟩ := exists_of_bind_eq_ok h
        obtain ⟨_, hright, h⟩ := exists_of_bind_eq_ok h
        obtain rfl := Except.ok.inj h
        have hleft := (Ty.equivalent?_iff_of_isBasic rfl).mp (of_require hleft)
        have hright := (Ty.equivalent?_iff_of_isBasic rfl).mp (of_require hright)
        exact .of_logical hlogical hleft hright
      · cases h

/-- An accepted expression is well typed when every function of its context is. -/
theorem Accepted.wellTyped
    (heach : Frame.Each (fun _ entity ↦ entity.WellTyped) context.frames) {value : Expr}
    (h : Accepted source context value) : value.WellTyped := by
  have hfunction {name : String} {target : Func}
      (hname : context.lookup? name = some (.func target)) : target.WellTyped :=
    each_lookup? heach hname
  induction h with
  | call hcall _ ih =>
    cases hcall with
    | function hname _ hcount _ => exact .call (hfunction hname) hcount ih
    | construct _ _ => exact .construct ih
  | binary _ _ hty ihleft ihright => exact .binary ihleft ihright (operatorTyped_of_binaryTy? hty)
  | boolean => exact .boolean
  | number => exact .number
  | string => exact .string
  | reference _ => exact .reference
  | functionReference hname => exact .functionReference (hfunction hname)

/-- The statement is well typed if every function that the analyzer before it knows is. -/
def WellTypedFrom (before : Analyzer) (_ : Node) (result : Statement) (_ : Analyzer) : Prop :=
  Frame.Each (fun _ entity ↦ entity.WellTyped) before.context.frames → result.WellTyped

theorem wellTyped_of_sequence {analyzer last : Analyzer} {nodes : List Node}
    {results : List Statement} (h : Sequence source WellTypedFrom analyzer nodes results last)
    (heach : Frame.Each (fun _ entity ↦ entity.WellTyped) analyzer.context.frames) :
    ∀ result ∈ results, result.WellTyped := by
  induction h with
  | nil => exact nofun
  | @cons _ _ _ _ _ first _ hfirst hmotive _ ih =>
    have htyped : first.WellTyped := hmotive heach
    refine List.forall_mem_cons.mpr ⟨htyped, ih ?_⟩
    refine each_of_statement (fun _ ↦ trivial) hfirst ?_ heach
    -- The function of a declaration is bound for the statements after it.
    rintro name function parameters body rfl
    cases htyped with
    | functionDeclaration hfunction _ _ => exact hfunction

/-- Analysed statements are well typed. -/
theorem hereditary_wellTyped : Hereditary source WellTypedFrom := by
  intro analyzer next node result hrule ih heach
  have htyped {node : Node} {value : Expr}
      (hvalue : valueOf source analyzer.context node = .ok value) : value.WellTyped :=
    (accepted_of_valueOf node hvalue).wellTyped heach
  have hint {ty? : Option Ty} (hty : Ty.equivalent? ty? (some .int) = true) : ty? = some .int :=
    (Ty.equivalent?_iff_of_isBasic rfl).mp hty
  cases hrule with
  | @functionDefinition _ name _ _ parameters _ _ _ hparameters hbody =>
    -- Its defaults are accepted where it is not bound yet, so they do not depend on it.
    have hfunction : (analyzer.declareFunction (name.text source) parameters none).1.WellTyped :=
      .intro fun parameter hparameter default hdefault ↦
        (accepted_of_parameters hparameters parameter hparameter default hdefault).wellTyped heach
    have hentered := each_enterFunction (fun _ ↦ trivial) hfunction heach
    exact .functionDeclaration hfunction rfl (wellTyped_of_sequence (ih hbody) hentered)
  | @predictiveLoop _ name _ _ _ _ _ _ _ _ _ hlow hhigh hlowTy hhighTy hbody =>
    have hentered := each_enterLoop (fun _ ↦ trivial) (name.text source) (some .int) heach
    exact .predictiveLoop (htyped hlow) (htyped hhigh) (hint hlowTy) (hint hhighTy) rfl
      (wellTyped_of_sequence (ih hbody) hentered)
  | comparison hleft hright htys => exact .comparison (htyped hleft) (htyped hright) htys
  | print hvalue => exact .print (htyped hvalue)
  | returnValue hvalue _ => exact .returnValue (htyped hvalue)
  | yieldValue hvalue _ => exact .yieldValue (htyped hvalue)
  | variableDeclaration _ hvalue => exact .variableDeclaration (htyped hvalue) rfl
  | rebinding _ hvalue => exact .variableReassignment (htyped hvalue) rfl
  | shadowing _ hvalue => exact .variableDeclaration (htyped hvalue) rfl
  | call hcall => exact .call (hcall.accepted.wellTyped heach)

end Analysis

/-! ### Programs of sources -/

/-- Every statement of the program of a source is well typed. -/
theorem program_wellTyped {source : Source} {program : Program}
    (h : source.program false = .ok program) :
    ∀ statement ∈ program.statements, statement.WellTyped := by
  obtain ⟨span, nodes, results, last, -, hresults, hstatements⟩ := Source.exists_of_program h
  rw [hstatements]
  exact Analysis.wellTyped_of_sequence (Analysis.hereditary_wellTyped.statements nodes hresults)
    (Frame.each_root fun _ _ ↦ trivial)

/-- The theorem at a source with a default, a sum with a string and an unknown type. -/
theorem program_wellTyped_mixed :
    ∃ program,
      (Source.ofText "" "define g(a, b = 1 + 2) then return \"n\" + a\nlet c = g(2) * 3").program
        false = .ok program ∧
      ∀ statement ∈ program.statements, statement.WellTyped :=
  Exists.imp (fun _ hprogram ↦ ⟨hprogram, program_wellTyped hprogram⟩)
    (exists_of_isOk (by decide +kernel))

end Presage
