import Presage.Proofs.Descriptions
import Presage.Proofs.Diagnostics
import Presage.Proofs.Scoping

/-!
What is reported about types that do not fit. Struct types and optional types have no way into a
program: the types that have names from the start are simple, literals have simple types, and a
function has the types of its defaults. So a context in which everything has plain types stays one
(`Analysis.PlainState`), and where an analysis in it fails because a type may not stand for another,
both types are plain. `Analysis.Plainly` says the two together, of a result and of a failure, and
one lemma carries it through each rule of the analysis.

Plain types with one description are equivalent, and equivalent types may stand for each other. So
the two descriptions in such a report differ (`descriptions_distinguish_types`).
-/

set_option autoImplicit false
set_option relaxedAutoImplicit false

namespace Presage

/-! ### Plain contexts -/

/-- The type is not known, or plain. -/
def Ty.PlainIfKnown (ty? : Option Ty) : Prop := ∀ ty ∈ ty?, ty.Plain

/-- The types of the parameters and of the result are plain as far as they are known. -/
structure Func.Plain (function : Func) : Prop where
  parameters : ∀ parameter ∈ function.parameters, Ty.PlainIfKnown parameter.ty?
  result : Ty.PlainIfKnown function.returnType?

/-- What is bound to a name has plain types. In particular it is no struct type. -/
def Entity.Plain (_ : String) : Entity → Prop
  | var target => Ty.PlainIfKnown target.ty?
  | func target => target.Plain
  | type ty => ty.Plain

namespace Ty

theorem plainIfKnown_none : PlainIfKnown none := by
  intro ty hty
  cases hty

theorem plainIfKnown_some {ty : Ty} (h : ty.Plain) : PlainIfKnown (some ty) := by
  intro other hother
  obtain rfl := Option.some.inj hother
  exact h

theorem plain_int : Plain int := .simple (by simp [simpleTypes])

theorem plain_string : Plain string := .simple (by simp [simpleTypes])

theorem plain_boolean : Plain boolean := .simple (by simp [simpleTypes])

theorem plain_any : Plain any := .simple (by simp [simpleTypes])

theorem PlainIfKnown.getD_any {ty? : Option Ty} (h : PlainIfKnown ty?) : (ty?.getD any).Plain := by
  cases ty? with
  | none => exact plain_any
  | some ty => exact h ty rfl

end Ty

theorem Parameter.plain_tys {parameters : List Parameter}
    (h : ∀ parameter ∈ parameters, Ty.PlainIfKnown parameter.ty?) :
    ∀ ty ∈ Parameter.tys parameters, ty.Plain := by
  induction parameters with
  | nil =>
    rw [Parameter.tys]
    exact List.forall_mem_nil _
  | cons parameter rest ih =>
    obtain ⟨hparameter, hrest⟩ := List.forall_mem_cons.mp h
    rw [Parameter.tys]
    exact List.forall_mem_cons.mpr ⟨hparameter.getD_any, ih hrest⟩

/-- The type of a function is plain, with `any` for what is not known. -/
theorem Func.Plain.ty {function : Func} (h : function.Plain) : function.ty.Plain := by
  obtain ⟨id, name, parameters, returnType?⟩ := function
  rw [Func.ty]
  exact .function (Parameter.plain_tys h.parameters) h.result.getD_any

theorem Frame.plain_root : Frame.Each Entity.Plain [Frame.root] := by
  refine Frame.each_root fun type htype ↦ .simple ?_
  have hsimple : ∀ type ∈ Context.standardTypes, type.2 ∈ Ty.simpleTypes := by
    simp [Context.standardTypes, Ty.simpleTypes]
  exact hsimple type htype

/-! ### Analyses in plain contexts -/

/-- A type may not stand for another. -/
def Cause.isMismatch : Cause → Bool
  | assignabilityMismatch _ _ => true
  | _ => false

/-- If the diagnostic is about a type that may not stand for another, the two are plain, and it
gives their descriptions. -/
def Diagnostic.NamesPlain (diagnostic : Diagnostic) : Prop :=
  ∀ given expected, diagnostic.cause = .assignabilityMismatch given expected →
    ∃ source target : Ty, source.Plain ∧ target.Plain ∧ source.assignable target = false ∧
      given = source.describe ∧ expected = target.describe

namespace Analysis

variable {source : Source} {context : Context} {analyzer : Analyzer} {α β : Type}

/-- The computation gives a value with the property, or fails with a diagnostic that names plain
types if it names any. -/
def Plainly (property : α → Prop) : Except Diagnostic α → Prop
  | .ok value => property value
  | .error diagnostic => diagnostic.NamesPlain

namespace Plainly

variable {property : α → Prop} {after : β → Prop}

theorem bind {first : Except Diagnostic α} {second : α → Except Diagnostic β}
    (hfirst : Plainly property first)
    (hsecond : ∀ value, property value → Plainly after (second value)) :
    Plainly after (first >>= second) := by
  cases first with
  | error diagnostic => exact hfirst
  | ok value => exact hsecond value hfirst

theorem mapM {action : α → Except Diagnostic β} {values : List α}
    (h : ∀ value ∈ values, Plainly after (action value)) :
    Plainly (fun results ↦ ∀ result ∈ results, after result) (values.mapM action) := by
  induction values with
  | nil => exact List.forall_mem_nil _
  | cons value rest ih =>
    obtain ⟨hvalue, hrest⟩ := List.forall_mem_cons.mp h
    rw [List.mapM_cons]
    refine .bind hvalue fun first hfirst ↦ .bind (ih hrest) fun others hothers ↦ ?_
    exact List.forall_mem_cons.mpr ⟨hfirst, hothers⟩

end Plainly

/-! #### Checks and names -/

theorem namesPlain_of_isMismatch {cause : Cause} {position : Position}
    (h : cause.isMismatch = false) : Diagnostic.NamesPlain ⟨cause, position⟩ := by
  intro given expected hcause
  rw [show cause = _ from hcause] at h
  cases h

theorem plainly_require {condition : Bool} {cause : Cause} {node : Node}
    (h : cause.isMismatch = false) :
    Plainly (fun _ ↦ condition = true) (require condition cause node) := by
  unfold require
  split
  · assumption
  · exact namesPlain_of_isMismatch h

variable (hplain : Frame.Each Entity.Plain context.frames)

include hplain

theorem plainly_resolve (node : Node) :
    Plainly (Entity.Plain (node.text source)) (resolve source context node) := by
  unfold resolve
  split
  · next hlookup => exact each_lookup? hplain hlookup
  · exact namesPlain_of_isMismatch rfl

/-- The type of a value is plain if it is known. -/
theorem plainly_identifier (node : Node) :
    Plainly (fun value ↦ Ty.PlainIfKnown value.ty?) (identifier source context node) := by
  refine .bind (plainly_resolve hplain node) fun entity hentity ↦ ?_
  cases entity with
  | var target => exact hentity
  | func target => exact Ty.plainIfKnown_some (Func.Plain.ty hentity)
  | type ty => exact namesPlain_of_isMismatch rfl

theorem plainly_leaf (kind : LeafKind) (span : Span) :
    Plainly (fun value ↦ Ty.PlainIfKnown value.ty?) (leaf source context kind span) := by
  cases kind with
  | number =>
    simp only [leaf]
    split
    · exact Ty.plainIfKnown_some Ty.plain_int
    · exact namesPlain_of_isMismatch rfl
  | string => exact Ty.plainIfKnown_some Ty.plain_string
  | truth | falsity => exact Ty.plainIfKnown_some Ty.plain_boolean
  | identifier => exact plainly_identifier hplain _
  | operator => exact namesPlain_of_isMismatch rfl

theorem plainly_callee (name : Node) :
    Plainly (fun found ↦ ∃ target : Func, found = .function target ∧ target.Plain)
      (callee source context name) := by
  refine .bind (plainly_resolve hplain name) fun entity hentity ↦ ?_
  split
  · next target => exact ⟨target, rfl, hentity⟩
  · next target =>
    -- No struct type is plain.
    cases hentity with
    | simple hsimple => simp [Ty.simpleTypes] at hsimple
  · exact namesPlain_of_isMismatch rfl

omit hplain

/-! #### Operators and calls -/

theorem plainly_binaryTy? (left operator right : Node) (left? right? : Option Ty) :
    Plainly Ty.PlainIfKnown (binaryTy? source left operator right left? right?) := by
  simp only [binaryTy?]
  split
  · exact Ty.plainIfKnown_some Ty.plain_string
  split
  · split
    · exact .bind (plainly_require rfl) fun _ _ ↦
        .bind (plainly_require rfl) fun _ _ ↦ Ty.plainIfKnown_some Ty.plain_int
    · exact Ty.plainIfKnown_none
  split
  · exact .bind (plainly_require rfl) fun _ _ ↦
      .bind (plainly_require rfl) fun _ _ ↦ Ty.plainIfKnown_some Ty.plain_boolean
  · exact namesPlain_of_isMismatch rfl

/-- The parameter that an argument is checked against is one of the function's. -/
theorem plainly_parameterFor? (function : Func) (index : Nat) (node : Node) :
    Plainly (fun found? ↦ ∀ parameter ∈ found?, parameter ∈ function.parameters)
      (parameterFor? source function index node) := by
  unfold parameterFor?
  split
  · refine .bind (plainly_require rfl) fun _ _ ↦ ?_
    exact fun parameter hfound ↦ List.mem_of_find?_eq_some hfound
  · exact fun parameter hfound ↦ List.mem_of_getElem? hfound

/-- This is where types are compared that are then named. -/
theorem plainly_checkAssignable {given? expected? : Option Ty} (hgiven : Ty.PlainIfKnown given?)
    (hexpected : Ty.PlainIfKnown expected?) (node : Node) :
    Plainly (fun _ ↦ True) (checkAssignable given? expected? node) := by
  unfold checkAssignable
  split
  · next given expected =>
    unfold require
    split
    · trivial
    · next hassignable =>
      intro givenText expectedText hcause
      obtain ⟨rfl, rfl⟩ := Cause.assignabilityMismatch.inj hcause
      exact ⟨given, expected, hgiven given rfl, hexpected expected rfl,
        Bool.eq_false_iff.mpr hassignable, rfl, rfl⟩
  · trivial

theorem plainly_checkArguments {function : Func} (hfunction : function.Plain) (index : Nat)
    {pairs : List (Node × Expr)} (hpairs : ∀ pair ∈ pairs, Ty.PlainIfKnown pair.2.ty?) :
    Plainly (fun _ ↦ True) (checkArguments source function index pairs) := by
  induction pairs generalizing index with
  | nil => trivial
  | cons pair rest ih =>
    obtain ⟨hpair, hrest⟩ := List.forall_mem_cons.mp hpairs
    refine .bind (plainly_parameterFor? function index pair.1) fun found? hfound ↦ ?_
    refine .bind (plainly_checkAssignable hpair ?_ pair.1) fun _ _ ↦ ih (index + 1) hrest
    intro ty hty
    obtain ⟨parameter, hparameter, hknown⟩ := Option.bind_eq_some_iff.mp hty
    exact hfunction.parameters parameter (hfound parameter hparameter) ty hknown

theorem plainly_checkedCall {function : Func} (hfunction : function.Plain) (position : Position)
    (arguments : List Node) {values : List Expr}
    (hvalues : ∀ value ∈ values, Ty.PlainIfKnown value.ty?) :
    Plainly (fun invocation ↦ Ty.PlainIfKnown invocation.ty?)
      (checkedCall source position (.function function) arguments values) := by
  have hpairs : ∀ pair ∈ arguments.zip values, Ty.PlainIfKnown pair.2.ty? :=
    fun pair hpair ↦ hvalues pair.2 (List.of_mem_zip hpair).2
  simp only [checkedCall]
  split
  · exact namesPlain_of_isMismatch rfl
  · exact .bind (plainly_checkArguments hfunction 0 hpairs) fun _ _ ↦ hfunction.result

/-! #### Expressions -/

/-- A call whose arguments have plain types, and what is made of it. -/
theorem plainly_call {after : β → Prop} (hplain : Frame.Each Entity.Plain context.frames)
    (span : Span) (name : Node) {arguments : List Node}
    (harguments : Plainly (fun values ↦ ∀ value ∈ values, Ty.PlainIfKnown value.ty?)
      (valuesOf source context arguments))
    {finish : Call → Except Diagnostic β}
    (hfinish : ∀ invocation, Ty.PlainIfKnown invocation.ty? → Plainly after (finish invocation)) :
    Plainly after (do
      let found ← callee source context name
      let values ← valuesOf source context arguments
      finish (← checkedCall source span.start found arguments values)) := by
  refine .bind (plainly_callee hplain name) ?_
  rintro _ ⟨target, rfl, htarget⟩
  refine .bind harguments fun values hvalues ↦ ?_
  exact .bind (plainly_checkedCall htarget span.start arguments hvalues) hfinish

mutual

/-- The type of an expression is plain if it is known. -/
theorem plainly_expression (hplain : Frame.Each Entity.Plain context.frames) (node : Node) :
    Plainly (fun value ↦ Ty.PlainIfKnown value.ty?) (valueOf source context node) := by
  cases node with
  | call span name arguments =>
    rw [valueOf_call]
    refine plainly_call hplain span name (plainly_valuesOf hplain arguments) ?_
    intro invocation hty
    cases invocation
    exact hty
  | binary span left operator right =>
    rw [valueOf_binary]
    refine .bind (plainly_expression hplain left) fun leftValue _ ↦ ?_
    refine .bind (plainly_expression hplain right) fun rightValue _ ↦ ?_
    exact .bind (plainly_binaryTy? left operator right _ _) fun _ hty ↦ hty
  | parenthesized span inner =>
    rw [valueOf_parenthesized]
    exact plainly_expression hplain inner
  | leaf kind span =>
    rw [valueOf_leaf]
    exact plainly_leaf hplain kind span
  | _ => exact namesPlain_of_isMismatch rfl
termination_by sizeOf node

theorem plainly_valuesOf (hplain : Frame.Each Entity.Plain context.frames) :
    ∀ nodes : List Node, Plainly (fun values ↦ ∀ value ∈ values, Ty.PlainIfKnown value.ty?)
      (valuesOf source context nodes)
  | [] => by
    rw [valuesOf_nil]
    exact List.forall_mem_nil _
  | node :: rest => by
    have hle := node.sizeOf_argumentValue_le
    rw [valuesOf_cons]
    refine .bind (plainly_expression hplain node.argumentValue) fun first hfirst ↦ ?_
    refine .bind (plainly_valuesOf hplain rest) fun others hothers ↦ ?_
    exact List.forall_mem_cons.mpr ⟨hfirst, hothers⟩
termination_by nodes => sizeOf nodes

end

theorem plainly_parameterOf (hplain : Frame.Each Entity.Plain context.frames) (node : Node) :
    Plainly (fun parameter ↦ Ty.PlainIfKnown parameter.ty?) (parameterOf source context node) := by
  cases node with
  | parameter span name default? =>
    cases default? with
    | none => exact Ty.plainIfKnown_none
    | some default =>
      rw [parameterOf_some]
      exact .bind (plainly_expression hplain default) fun value hvalue ↦ hvalue
  | _ => exact namesPlain_of_isMismatch rfl

/-! #### Statements -/

/-- Everything that is bound has plain types. -/
def PlainState (analyzer : Analyzer) : Prop := Frame.Each Entity.Plain analyzer.context.frames

namespace PlainState

theorem declareVariable (h : PlainState analyzer) (name : String) {ty? : Option Ty}
    (hty : Ty.PlainIfKnown ty?) : PlainState (analyzer.declareVariable name ty?).2 := by
  obtain ⟨hframe, houter⟩ := Frame.each_cons.mp h
  exact Frame.each_cons.mpr ⟨hframe.insert hty, houter⟩

theorem enterLoop (h : PlainState analyzer) : PlainState analyzer.enterLoop :=
  Frame.each_cons.mpr ⟨Frame.each_empty, h⟩

theorem enterFunction (h : PlainState analyzer) (name : String) {parameters : List Parameter}
    (hparameters : ∀ parameter ∈ parameters, Ty.PlainIfKnown parameter.ty?) :
    PlainState ((analyzer.declareFunction name parameters none).2.enterFunction
      (analyzer.declareFunction name parameters none).1) := by
  obtain ⟨hframe, houter⟩ := Frame.each_cons.mp h
  refine Frame.each_cons.mpr ⟨?_, ?_⟩
  · rw [Analyzer.locals_enterFunction]
    exact Frame.each_empty.withParameters_of fun parameter hmem _ _ _ ↦ hparameters parameter hmem
  · rw [Analyzer.outer_enterFunction]
    have hfunction : (analyzer.declareFunction name parameters none).1.Plain :=
      ⟨hparameters, Ty.plainIfKnown_none⟩
    exact Frame.each_cons.mpr ⟨hframe.insert hfunction, houter⟩

theorem leave (h : PlainState analyzer) : PlainState analyzer.leave := by
  unfold PlainState Analyzer.leave Context.leave
  split
  · exact h
  · next scope outer houter =>
    have hframes : analyzer.context.frames =
        analyzer.context.current.locals :: Context.frames ⟨scope, outer⟩ := by
      simp [Context.frames, Context.scopes, houter]
    unfold PlainState at h
    rw [hframes] at h
    exact (Frame.each_cons.mp h).2

end PlainState

mutual

theorem plainly_statement {analyzer : Analyzer} (h : PlainState analyzer) (node : Node) :
    Plainly (fun result ↦ PlainState result.2) (statement source analyzer node) := by
  cases node with
  | functionDefinition span name parameters body =>
    rw [statement_functionDefinition]
    refine .bind (plainly_require rfl) fun _ _ ↦ ?_
    refine .bind (.mapM fun node _ ↦ plainly_parameterOf h node) fun results hresults ↦ ?_
    refine .bind (plainly_statements (h.enterFunction _ hresults) body) fun finished hfinished ↦ ?_
    exact hfinished.leave
  | predictiveLoop span name low high pattern body =>
    rw [statement_predictiveLoop]
    refine .bind (plainly_require rfl) fun _ _ ↦ ?_
    refine .bind (plainly_expression h low) fun _ _ ↦ .bind (plainly_expression h high) fun _ _ ↦ ?_
    refine .bind (plainly_require rfl) fun _ _ ↦ ?_
    refine .bind (plainly_require rfl) fun _ _ ↦ ?_
    have hentered := h.enterLoop.declareVariable (name.text source)
      (Ty.plainIfKnown_some Ty.plain_int)
    exact .bind (plainly_statements hentered body) fun finished hfinished ↦ hfinished.leave
  | comparisonStatement span left right =>
    rw [statement_comparison]
    refine .bind (plainly_expression h left) fun _ _ ↦ ?_
    refine .bind (plainly_expression h right) fun _ _ ↦ ?_
    split
    · exact .bind (plainly_require rfl) fun _ _ ↦ h
    · exact h
  | printStatement span value =>
    rw [statement_print]
    exact .bind (plainly_expression h value) fun _ _ ↦ h
  | returnStatement span value =>
    rw [statement_return]
    exact .bind (plainly_expression h value) fun _ _ ↦
      .bind (plainly_require rfl) fun _ _ ↦ h
  | yieldStatement span value =>
    rw [statement_yield]
    exact .bind (plainly_expression h value) fun _ _ ↦
      .bind (plainly_require rfl) fun _ _ ↦ h
  | variableDeclaration span name initializer =>
    rw [statement_variableDeclaration]
    refine .bind (plainly_require rfl) fun _ _ ↦ ?_
    exact .bind (plainly_expression h initializer) fun _ hty ↦ h.declareVariable _ hty
  | variableReassignment span name value =>
    rw [statement_variableReassignment]
    refine .bind (plainly_expression h value) fun _ hty ↦ ?_
    split <;> exact h.declareVariable _ hty
  | call span name arguments =>
    rw [statement_call]
    exact plainly_call h span name (plainly_valuesOf h arguments) fun _ _ ↦ h
  | _ => exact namesPlain_of_isMismatch rfl
termination_by sizeOf node

theorem plainly_statements {analyzer : Analyzer} (h : PlainState analyzer) : ∀ nodes : List Node,
    Plainly (fun result ↦ PlainState result.2) (statements source analyzer nodes)
  | [] => by
    simp only [statements]
    exact h
  | node :: rest => by
    simp only [statements]
    refine .bind (plainly_statement h node) fun first hfirst ↦ ?_
    exact .bind (plainly_statements hfirst rest) fun _ hlast ↦ hlast
termination_by nodes => sizeOf nodes

end

theorem plainly_program (h : PlainState analyzer) (tree : Node) :
    Plainly (fun result ↦ PlainState result.2) (program source analyzer tree) := by
  unfold program
  split
  · exact .bind (plainly_statements h _) fun _ hlast ↦ hlast
  · exact namesPlain_of_isMismatch rfl

end Analysis

/-- What is reported about a source names plain types if it names any. -/
theorem Source.namesPlain_of_compile {source : Source} {folded : Bool} {diagnostic : Diagnostic}
    (h : source.compile folded = .error diagnostic) : diagnostic.NamesPlain := by
  rcases Source.failure_of_compile h with hstream | ⟨stream, -, htree | ⟨tree, -, hanalysis⟩⟩
  · obtain ⟨before, c, after, -, -, rfl⟩ := TokenStream.scan_eq_error_iff.mp hstream
    exact Analysis.namesPlain_of_isMismatch rfl
  · intro given expected hcause
    have hsyntactic := (Node.syntactic_of_ofTokens htree).1
    rw [hcause] at hsyntactic
    cases hsyntactic
  · have hinitial : Analysis.PlainState .initial := Frame.plain_root
    have hplainly : Analysis.Plainly _ (Analysis.program source .initial tree) :=
      Analysis.plainly_program hinitial tree
    rw [hanalysis] at hplainly
    exact hplainly

/-- Types made of the simple types, arrays and functions have the same description exactly if they
are equivalent. A source that is not compiled because a type may not stand for another is reported
with the descriptions of two such types, and these differ. -/
theorem descriptions_distinguish_types :
    (∀ first second : Ty, first.Plain → second.Plain →
      (first.describe = second.describe ↔ first.equivalent second = true)) ∧
    ∀ (source : Source) (folded : Bool) (given expected : String) (position : Position),
      source.compile folded = .error ⟨.assignabilityMismatch given expected, position⟩ →
        given ≠ expected ∧ ∃ givenTy expectedTy : Ty, givenTy.Plain ∧ expectedTy.Plain ∧
          givenTy.assignable expectedTy = false ∧ given = givenTy.describe ∧
          expected = expectedTy.describe := by
  refine ⟨fun _ _ ↦ Ty.describe_eq_iff, fun source folded given expected position h ↦ ?_⟩
  obtain ⟨givenTy, expectedTy, hgiven, hexpected, hassignable, rfl, rfl⟩ :=
    Source.namesPlain_of_compile h given expected rfl
  refine ⟨fun heq ↦ ?_, givenTy, expectedTy, hgiven, hexpected, hassignable, rfl, rfl⟩
  have hequivalent := (Ty.describe_eq_iff hgiven hexpected).mp heq
  rw [Ty.assignable_of_equivalent hequivalent] at hassignable
  cases hassignable

/-- A function is passed for one whose parameter is of another type. -/
theorem descriptions_distinguish_types_functions :
    ∃ source given expected position,
      source = Source.ofText ""
        ("define g(x = 1) then return x\ndefine h(x = \"s\") then return x\n" ++
          "define f(a = g, b) then return b\nprint f(a = h)") ∧
      source.compile true = .error ⟨.assignabilityMismatch given expected, position⟩ ∧
      given = "(string)->any" ∧ expected = "(int)->any" ∧ given ≠ expected := by
  have hcompile : (Source.ofText ""
      ("define g(x = 1) then return x\ndefine h(x = \"s\") then return x\n" ++
        "define f(a = g, b) then return b\nprint f(a = h)")).compile true =
      .error ⟨.assignabilityMismatch "(string)->any" "(int)->any", ⟨103, 4, 9⟩⟩ := by
    decide +kernel
  exact ⟨_, _, _, _, rfl, hcompile, rfl, rfl,
    (descriptions_distinguish_types.2 _ true _ _ _ hcompile).1⟩

end Presage
