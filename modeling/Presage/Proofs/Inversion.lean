import Presage.Proofs.Outcomes
import Presage.Proofs.Values

/-!
What a successful analysis went through. The rules of an analysis are read backwards: from a result
one gets the checks that were passed and the results of the parts. `CallRule`, `ExpressionRule` and
`StatementRule` have one case for every way in which a call, an expression and a statement are
accepted, and `rule_of_checkedCall`, `rule_of_valueOf` and `rule_of_statement` say that there is
no other. Facts about analysed programs are proved by cases on a rule, and never by unfolding the
analysis.

The two inductions along an analysis are made here once. `Accepted` builds up the expressions that
are accepted, and `Hereditary.statement` says that what the rules for statements hand on from a body
to its statement holds of every analysed statement.
-/

set_option autoImplicit false
set_option relaxedAutoImplicit false

namespace Presage

namespace Analysis

variable {source : Source} {context : Context}

/-! ### Checks and names -/

theorem of_require {condition : Bool} {cause : Cause} {node : Node} {result : Unit}
    (h : require condition cause node = .ok result) : condition = true := by
  unfold require at h
  split at h
  · assumption
  · cases h

theorem lookup?_of_resolve {node : Node} {entity : Entity}
    (h : resolve source context node = .ok entity) :
    context.lookup? (node.text source) = some entity := by
  unfold resolve at h
  split at h
  · next found hfound =>
    obtain rfl := Except.ok.inj h
    exact hfound
  · cases h

theorem lookupLocal?_of_requireUndeclared {node : Node} {result : Unit}
    (h : requireUndeclared source context node = .ok result) :
    context.lookupLocal? (node.text source) = none := by
  have hnone := of_require h
  exact Option.isNone_iff_eq_none.mp hnone

/-! ### Calls -/

/-- The ways in which a call is accepted. -/
inductive CallRule (source : Source) (context : Context) (name : Node) (arguments : List Node) :
    Call → Prop
  | function {target : Func} {values : List Expr}
      (hname : context.lookup? (name.text source) = some (.func target))
      (hvalues : valuesOf source context arguments = .ok values)
      (hcount : values.length = target.requiredCount)
      (hcheck : checkArguments source target 0 (arguments.zip values) = .ok ()) :
      CallRule source context name arguments ⟨.function target, values, target.returnType?⟩
  | construct {target : StructType} {values : List Expr}
      (hname : context.lookup? (name.text source) = some (.type (.struct target)))
      (hvalues : valuesOf source context arguments = .ok values) :
      CallRule source context name arguments ⟨.struct target, values, some (.struct target)⟩

/-- What a name calls is what it means. -/
theorem lookup?_of_callee {name : Node} {found : Callee}
    (h : callee source context name = .ok found) :
    (∃ target, found = .function target ∧
        context.lookup? (name.text source) = some (.func target)) ∨
      ∃ target, found = .struct target ∧
        context.lookup? (name.text source) = some (.type (.struct target)) := by
  unfold callee at h
  obtain ⟨entity, hentity, h⟩ := exists_of_bind_eq_ok h
  have hlookup := lookup?_of_resolve hentity
  split at h
  · obtain rfl := Except.ok.inj h
    exact Or.inl ⟨_, rfl, hlookup⟩
  · obtain rfl := Except.ok.inj h
    exact Or.inr ⟨_, rfl, hlookup⟩
  · cases h

theorem rule_of_checkedCall {name : Node} {arguments : List Node} {position : Position}
    {found : Callee} {values : List Expr} {result : Call}
    (hcallee : callee source context name = .ok found)
    (hvalues : valuesOf source context arguments = .ok values)
    (h : checkedCall source position found arguments values = .ok result) :
    CallRule source context name arguments result := by
  rcases lookup?_of_callee hcallee with ⟨target, rfl, hname⟩ | ⟨target, rfl, hname⟩
  · simp only [checkedCall] at h
    by_cases hcount : values.length = target.requiredCount
    · rw [if_neg (not_not_intro hcount)] at h
      obtain ⟨_, hcheck, h⟩ := exists_of_bind_eq_ok h
      obtain rfl := Except.ok.inj h
      exact .function hname hvalues hcount hcheck
    · rw [if_pos hcount] at h
      cases h
  · obtain rfl := Except.ok.inj h
    exact .construct hname hvalues

/-! ### Expressions -/

/-- The ways in which an expression is accepted. -/
inductive ExpressionRule (source : Source) (context : Context) : Node → Expr → Prop
  | call {span : Span} {name : Node} {arguments : List Node} {invocation : Call}
      (hcall : CallRule source context name arguments invocation) :
      ExpressionRule source context (.call span name arguments) (.call invocation)
  | binary {span : Span} {left operator right : Node} {leftValue rightValue : Expr}
      {ty? : Option Ty} (hleft : valueOf source context left = .ok leftValue)
      (hright : valueOf source context right = .ok rightValue)
      (hty : binaryTy? source left operator right leftValue.ty? rightValue.ty? = .ok ty?) :
      ExpressionRule source context (.binary span left operator right)
        (.binary (operator.text source) leftValue rightValue ty?)
  | parenthesized {span : Span} {inner : Node} {value : Expr}
      (hinner : valueOf source context inner = .ok value) :
      ExpressionRule source context (.parenthesized span inner) value
  | number {span : Span} {value : Int} (hread : Integer.read? (source.read span) = some value) :
      ExpressionRule source context (.leaf .number span) (.number value .int)
  | string {span : Span} :
      ExpressionRule source context (.leaf .string span)
        (.string (unquote (source.read span)) .string)
  | truth {span : Span} : ExpressionRule source context (.leaf .truth span) (.boolean true)
  | falsity {span : Span} : ExpressionRule source context (.leaf .falsity span) (.boolean false)
  | reference {span : Span} {target : Variable}
      (hname : context.lookup? (source.read span) = some (.var target)) :
      ExpressionRule source context (.leaf .identifier span) (.reference target)
  | functionReference {span : Span} {target : Func}
      (hname : context.lookup? (source.read span) = some (.func target)) :
      ExpressionRule source context (.leaf .identifier span) (.functionReference target)

theorem rule_of_leaf {kind : LeafKind} {span : Span} {value : Expr}
    (h : leaf source context kind span = .ok value) :
    ExpressionRule source context (.leaf kind span) value := by
  cases kind with
  | number =>
    simp only [leaf] at h
    split at h
    · next read hread =>
      obtain rfl := Except.ok.inj h
      exact .number hread
    · cases h
  | string =>
    obtain rfl := Except.ok.inj h
    exact .string
  | truth =>
    obtain rfl := Except.ok.inj h
    exact .truth
  | falsity =>
    obtain rfl := Except.ok.inj h
    exact .falsity
  | identifier =>
    simp only [leaf, identifier] at h
    obtain ⟨entity, hentity, h⟩ := exists_of_bind_eq_ok h
    have hlookup := lookup?_of_resolve hentity
    split at h
    · obtain rfl := Except.ok.inj h
      exact .reference hlookup
    · obtain rfl := Except.ok.inj h
      exact .functionReference hlookup
    · cases h
  | operator => cases h

theorem rule_of_valueOf {node : Node} {value : Expr}
    (h : valueOf source context node = .ok value) :
    ExpressionRule source context node value := by
  cases node with
  | call span name arguments =>
    rw [valueOf_call] at h
    obtain ⟨found, hcallee, h⟩ := exists_of_bind_eq_ok h
    obtain ⟨values, hvalues, h⟩ := exists_of_bind_eq_ok h
    obtain ⟨invocation, hcall, h⟩ := exists_of_bind_eq_ok h
    obtain rfl := Except.ok.inj h
    exact .call (rule_of_checkedCall hcallee hvalues hcall)
  | binary span left operator right =>
    rw [valueOf_binary] at h
    obtain ⟨leftValue, hleft, h⟩ := exists_of_bind_eq_ok h
    obtain ⟨rightValue, hright, h⟩ := exists_of_bind_eq_ok h
    obtain ⟨ty?, hty, h⟩ := exists_of_bind_eq_ok h
    obtain rfl := Except.ok.inj h
    exact .binary hleft hright hty
  | parenthesized span inner =>
    rw [valueOf_parenthesized] at h
    exact .parenthesized h
  | leaf kind span =>
    rw [valueOf_leaf] at h
    exact rule_of_leaf h
  | _ => cases h

/-! ### Parameters -/

/-- The ways in which a parameter is accepted. -/
inductive ParameterRule (source : Source) (context : Context) : Node → Parameter → Prop
  | required {span : Span} {name : Node} :
      ParameterRule source context (.parameter span name none) ⟨name.text source, none⟩
  | defaulted {span : Span} {name default : Node} {value : Expr}
      (hdefault : valueOf source context default = .ok value) :
      ParameterRule source context (.parameter span name (some default))
        ⟨name.text source, some value⟩

theorem rule_of_parameterOf {node : Node} {result : Parameter}
    (h : parameterOf source context node = .ok result) :
    ParameterRule source context node result := by
  cases node with
  | parameter span name default? =>
    cases default? with
    | none =>
      obtain rfl := Except.ok.inj h
      exact .required
    | some default =>
      rw [parameterOf_some] at h
      obtain ⟨value, hdefault, h⟩ := exists_of_bind_eq_ok h
      obtain rfl := Except.ok.inj h
      exact .defaulted hdefault
  | _ => cases h

/-- Parameters are accepted one by one. -/
theorem exists_rule_of_parameters {nodes : List Node} {results : List Parameter}
    (h : nodes.mapM (parameterOf source context) = .ok results) {result : Parameter}
    (hresult : result ∈ results) : ∃ node ∈ nodes, ParameterRule source context node result := by
  induction nodes generalizing results with
  | nil =>
    rw [List.mapM_nil] at h
    obtain rfl := Except.ok.inj h
    cases hresult
  | cons node rest ih =>
    rw [List.mapM_cons] at h
    obtain ⟨first, hfirst, h⟩ := exists_of_bind_eq_ok h
    obtain ⟨others, hothers, h⟩ := exists_of_bind_eq_ok h
    obtain rfl := Except.ok.inj h
    rcases List.mem_cons.mp hresult with rfl | hmem
    · exact ⟨node, List.mem_cons_self, rule_of_parameterOf hfirst⟩
    · obtain ⟨other, hother, hrule⟩ := ih hothers hmem
      exact ⟨other, List.mem_cons_of_mem _ hother, hrule⟩

/-! ### Statements -/

/-- The ways in which a statement is accepted, with the state it leaves. -/
inductive StatementRule (source : Source) (analyzer : Analyzer) : Node → Statement → Analyzer → Prop
  | functionDefinition {span : Span} {name : Node} {nodes bodyNodes : List Node}
      {parameters : List Parameter} {body : List Statement} {finished : Analyzer}
      (hname : analyzer.context.lookupLocal? (name.text source) = none)
      (hparameters : nodes.mapM (parameterOf source analyzer.context) = .ok parameters)
      (hbody : statements source
        ((analyzer.declareFunction (name.text source) parameters none).2.enterFunction
          (analyzer.declareFunction (name.text source) parameters none).1) bodyNodes =
        .ok (body, finished)) :
      StatementRule source analyzer (.functionDefinition span name nodes bodyNodes)
        (.functionDeclaration (name.text source)
          (analyzer.declareFunction (name.text source) parameters none).1 parameters body)
        (finished.leave.attachBody
          (analyzer.declareFunction (name.text source) parameters none).1 body)
  | predictiveLoop {span : Span} {name low high pattern : Node} {bodyNodes : List Node}
      {lowValue highValue : Expr} {body : List Statement} {finished : Analyzer}
      (hname : analyzer.context.lookupLocal? (name.text source) = none)
      (hlow : valueOf source analyzer.context low = .ok lowValue)
      (hhigh : valueOf source analyzer.context high = .ok highValue)
      (hlowTy : Ty.equivalent? lowValue.ty? (some .int))
      (hhighTy : Ty.equivalent? highValue.ty? (some .int))
      (hbody : statements source
        (analyzer.enterLoop.declareVariable (name.text source) (some .int)).2 bodyNodes =
        .ok (body, finished)) :
      StatementRule source analyzer (.predictiveLoop span name low high pattern bodyNodes)
        (.predictiveLoop (analyzer.enterLoop.declareVariable (name.text source) (some .int)).1
          lowValue highValue (pattern.text source) body)
        finished.leave
  | comparison {span : Span} {left right : Node} {leftValue rightValue : Expr}
      (hleft : valueOf source analyzer.context left = .ok leftValue)
      (hright : valueOf source analyzer.context right = .ok rightValue)
      (htys : ∀ leftTy ∈ leftValue.ty?, ∀ rightTy ∈ rightValue.ty?, leftTy.equivalent rightTy) :
      StatementRule source analyzer (.comparisonStatement span left right)
        (.comparison leftValue rightValue) analyzer
  | print {span : Span} {node : Node} {value : Expr}
      (hvalue : valueOf source analyzer.context node = .ok value) :
      StatementRule source analyzer (.printStatement span node) (.print value) analyzer
  | returnValue {span : Span} {node : Node} {value : Expr}
      (hvalue : valueOf source analyzer.context node = .ok value)
      (hfunction : analyzer.context.current.function?.isSome) :
      StatementRule source analyzer (.returnStatement span node) (.returnValue value) analyzer
  | yieldValue {span : Span} {node : Node} {value : Expr}
      (hvalue : valueOf source analyzer.context node = .ok value)
      (hloop : analyzer.context.current.inLoop) :
      StatementRule source analyzer (.yieldStatement span node) (.yieldValue value) analyzer
  | variableDeclaration {span : Span} {name node : Node} {value : Expr}
      (hname : analyzer.context.lookupLocal? (name.text source) = none)
      (hvalue : valueOf source analyzer.context node = .ok value) :
      StatementRule source analyzer (.variableDeclaration span name node)
        (.variableDeclaration (analyzer.declareVariable (name.text source) value.ty?).1 value)
        (analyzer.declareVariable (name.text source) value.ty?).2
  | rebinding {span : Span} {name node : Node} {value : Expr}
      (hname : rebinds analyzer.context (name.text source) = true)
      (hvalue : valueOf source analyzer.context node = .ok value) :
      StatementRule source analyzer (.variableReassignment span name node)
        (.variableReassignment (analyzer.declareVariable (name.text source) value.ty?).1 value)
        (analyzer.declareVariable (name.text source) value.ty?).2
  | shadowing {span : Span} {name node : Node} {value : Expr}
      (hname : rebinds analyzer.context (name.text source) = false)
      (hvalue : valueOf source analyzer.context node = .ok value) :
      StatementRule source analyzer (.variableReassignment span name node)
        (.variableDeclaration (analyzer.declareVariable (name.text source) value.ty?).1 value)
        (analyzer.declareVariable (name.text source) value.ty?).2
  | call {span : Span} {name : Node} {arguments : List Node} {invocation : Call}
      (hcall : CallRule source analyzer.context name arguments invocation) :
      StatementRule source analyzer (.call span name arguments) (.call invocation) analyzer

variable {analyzer next : Analyzer}

theorem rule_of_statement {node : Node} {result : Statement}
    (h : statement source analyzer node = .ok (result, next)) :
    StatementRule source analyzer node result next := by
  cases node with
  | functionDefinition span name nodes bodyNodes =>
    rw [statement_functionDefinition] at h
    obtain ⟨_, hname, h⟩ := exists_of_bind_eq_ok h
    obtain ⟨parameters, hparameters, h⟩ := exists_of_bind_eq_ok h
    obtain ⟨⟨body, finished⟩, hbody, h⟩ := exists_of_bind_eq_ok h
    obtain ⟨rfl, rfl⟩ := Prod.mk.inj (Except.ok.inj h)
    exact .functionDefinition (lookupLocal?_of_requireUndeclared hname) hparameters hbody
  | predictiveLoop span name low high pattern bodyNodes =>
    rw [statement_predictiveLoop] at h
    obtain ⟨_, hname, h⟩ := exists_of_bind_eq_ok h
    obtain ⟨lowValue, hlow, h⟩ := exists_of_bind_eq_ok h
    obtain ⟨highValue, hhigh, h⟩ := exists_of_bind_eq_ok h
    obtain ⟨_, hlowTy, h⟩ := exists_of_bind_eq_ok h
    obtain ⟨_, hhighTy, h⟩ := exists_of_bind_eq_ok h
    obtain ⟨⟨body, finished⟩, hbody, h⟩ := exists_of_bind_eq_ok h
    obtain ⟨rfl, rfl⟩ := Prod.mk.inj (Except.ok.inj h)
    exact .predictiveLoop (lookupLocal?_of_requireUndeclared hname) hlow hhigh
      (of_require hlowTy) (of_require hhighTy) hbody
  | comparisonStatement span left right =>
    rw [statement_comparison] at h
    obtain ⟨leftValue, hleft, h⟩ := exists_of_bind_eq_ok h
    obtain ⟨rightValue, hright, h⟩ := exists_of_bind_eq_ok h
    split at h
    · next leftTy rightTy hleftTy hrightTy =>
      obtain ⟨_, htys, h⟩ := exists_of_bind_eq_ok h
      obtain ⟨rfl, rfl⟩ := Prod.mk.inj (Except.ok.inj h)
      refine .comparison hleft hright fun first hfirst second hsecond ↦ ?_
      rw [hleftTy] at hfirst
      rw [hrightTy] at hsecond
      obtain rfl := Option.some.inj hfirst
      obtain rfl := Option.some.inj hsecond
      exact of_require htys
    · next hunknown =>
      obtain ⟨rfl, rfl⟩ := Prod.mk.inj (Except.ok.inj h)
      exact .comparison hleft hright fun first hfirst second hsecond ↦
        (hunknown first second hfirst hsecond).elim
  | printStatement span node =>
    rw [statement_print] at h
    obtain ⟨value, hvalue, h⟩ := exists_of_bind_eq_ok h
    obtain ⟨rfl, rfl⟩ := Prod.mk.inj (Except.ok.inj h)
    exact .print hvalue
  | returnStatement span node =>
    rw [statement_return] at h
    obtain ⟨value, hvalue, h⟩ := exists_of_bind_eq_ok h
    obtain ⟨_, hfunction, h⟩ := exists_of_bind_eq_ok h
    obtain ⟨rfl, rfl⟩ := Prod.mk.inj (Except.ok.inj h)
    exact .returnValue hvalue (of_require hfunction)
  | yieldStatement span node =>
    rw [statement_yield] at h
    obtain ⟨value, hvalue, h⟩ := exists_of_bind_eq_ok h
    obtain ⟨_, hloop, h⟩ := exists_of_bind_eq_ok h
    obtain ⟨rfl, rfl⟩ := Prod.mk.inj (Except.ok.inj h)
    exact .yieldValue hvalue (of_require hloop)
  | variableDeclaration span name node =>
    rw [statement_variableDeclaration] at h
    obtain ⟨_, hname, h⟩ := exists_of_bind_eq_ok h
    obtain ⟨value, hvalue, h⟩ := exists_of_bind_eq_ok h
    obtain ⟨rfl, rfl⟩ := Prod.mk.inj (Except.ok.inj h)
    exact .variableDeclaration (lookupLocal?_of_requireUndeclared hname) hvalue
  | variableReassignment span name node =>
    rw [statement_variableReassignment] at h
    obtain ⟨value, hvalue, h⟩ := exists_of_bind_eq_ok h
    split at h
    · next hname =>
      obtain ⟨rfl, rfl⟩ := Prod.mk.inj (Except.ok.inj h)
      exact .rebinding hname hvalue
    · next hname =>
      obtain ⟨rfl, rfl⟩ := Prod.mk.inj (Except.ok.inj h)
      exact .shadowing (Bool.eq_false_iff.mpr hname) hvalue
  | call span name arguments =>
    rw [statement_call] at h
    obtain ⟨found, hcallee, h⟩ := exists_of_bind_eq_ok h
    obtain ⟨values, hvalues, h⟩ := exists_of_bind_eq_ok h
    obtain ⟨invocation, hcall, h⟩ := exists_of_bind_eq_ok h
    obtain ⟨rfl, rfl⟩ := Prod.mk.inj (Except.ok.inj h)
    exact .call (rule_of_checkedCall hcallee hvalues hcall)
  | _ => cases h

/-- Statements are accepted in turn, each in the state that the one before it leaves. -/
theorem exists_of_statements_cons {node : Node} {nodes : List Node} {results : List Statement}
    (h : statements source analyzer (node :: nodes) = .ok (results, next)) :
    ∃ first middle others, statement source analyzer node = .ok (first, middle) ∧
      statements source middle nodes = .ok (others, next) ∧ results = first :: others := by
  simp only [statements] at h
  obtain ⟨⟨first, middle⟩, hfirst, h⟩ := exists_of_bind_eq_ok h
  obtain ⟨⟨others, last⟩, hothers, h⟩ := exists_of_bind_eq_ok h
  obtain ⟨rfl, rfl⟩ := Prod.mk.inj (Except.ok.inj h)
  exact ⟨first, middle, others, hfirst, hothers, rfl⟩

/-! ### Induction along an analysis -/

/-- The expressions that an analysis gives, built up from their parts. -/
inductive Accepted (source : Source) (context : Context) : Expr → Prop
  | call {name : Node} {arguments : List Node} {invocation : Call}
      (hcall : CallRule source context name arguments invocation)
      (harguments : ∀ value ∈ invocation.arguments, Accepted source context value) :
      Accepted source context (.call invocation)
  | binary {left operator right : Node} {leftValue rightValue : Expr} {ty? : Option Ty}
      (hleft : Accepted source context leftValue) (hright : Accepted source context rightValue)
      (hty : binaryTy? source left operator right leftValue.ty? rightValue.ty? = .ok ty?) :
      Accepted source context (.binary (operator.text source) leftValue rightValue ty?)
  | boolean {value : Bool} : Accepted source context (.boolean value)
  | number {value : Int} : Accepted source context (.number value .int)
  | string {value : String} : Accepted source context (.string value .string)
  | reference {name : String} {target : Variable}
      (hname : context.lookup? name = some (.var target)) :
      Accepted source context (.reference target)
  | functionReference {name : String} {target : Func}
      (hname : context.lookup? name = some (.func target)) :
      Accepted source context (.functionReference target)

/-- The arguments of a call are the values of its argument nodes. -/
theorem CallRule.valuesOf_eq {name : Node} {arguments : List Node} {invocation : Call}
    (h : CallRule source context name arguments invocation) :
    valuesOf source context arguments = .ok invocation.arguments := by
  cases h with
  | function _ hvalues _ _ => exact hvalues
  | construct _ hvalues => exact hvalues

mutual

theorem accepted_of_valueOf (node : Node) {value : Expr}
    (h : valueOf source context node = .ok value) : Accepted source context value := by
  cases rule_of_valueOf h with
  | @call _ _ arguments _ hcall =>
    exact .call hcall (accepted_of_valuesOf arguments hcall.valuesOf_eq)
  | @binary _ left _ right _ _ _ hleft hright hty =>
    exact .binary (accepted_of_valueOf left hleft) (accepted_of_valueOf right hright) hty
  | @parenthesized _ inner _ hinner => exact accepted_of_valueOf inner hinner
  | number => exact .number
  | string => exact .string
  | truth => exact .boolean
  | falsity => exact .boolean
  | reference hname => exact .reference hname
  | functionReference hname => exact .functionReference hname
termination_by sizeOf node

theorem accepted_of_valuesOf : ∀ (nodes : List Node) {values : List Expr},
    valuesOf source context nodes = .ok values →
      ∀ value ∈ values, Accepted source context value
  | [], _, h => by
    rw [valuesOf_nil] at h
    obtain rfl := Except.ok.inj h
    exact nofun
  | node :: rest, _, h => by
    rw [valuesOf_cons] at h
    obtain ⟨first, hfirst, h⟩ := exists_of_bind_eq_ok h
    obtain ⟨others, hothers, h⟩ := exists_of_bind_eq_ok h
    obtain rfl := Except.ok.inj h
    have hle := node.sizeOf_argumentValue_le
    exact List.forall_mem_cons.mpr ⟨accepted_of_valueOf node.argumentValue hfirst,
      accepted_of_valuesOf rest hothers⟩
termination_by nodes => sizeOf nodes

end

/-- The call of a statement is accepted as one of an expression is. -/
theorem CallRule.accepted {name : Node} {arguments : List Node} {invocation : Call}
    (h : CallRule source context name arguments invocation) :
    Accepted source context (.call invocation) :=
  .call h (accepted_of_valuesOf arguments h.valuesOf_eq)

theorem accepted_of_parameters {nodes : List Node} {parameters : List Parameter}
    (h : nodes.mapM (parameterOf source context) = .ok parameters) :
    ∀ parameter ∈ parameters, ∀ default ∈ parameter.default?, Accepted source context default := by
  intro parameter hparameter default hdefault
  obtain ⟨node, -, hrule⟩ := exists_rule_of_parameters h hparameter
  cases hrule with
  | required => cases hdefault
  | defaulted hvalue =>
    obtain rfl := Option.some.inj hdefault
    exact accepted_of_valueOf _ hvalue

/-- Statements analysed in turn, with the motive holding of each of them. -/
inductive Sequence (source : Source) (motive : Analyzer → Node → Statement → Analyzer → Prop) :
    Analyzer → List Node → List Statement → Analyzer → Prop
  | nil {analyzer : Analyzer} : Sequence source motive analyzer [] [] analyzer
  | cons {analyzer middle last : Analyzer} {node : Node} {nodes : List Node} {first : Statement}
      {others : List Statement} (hfirst : statement source analyzer node = .ok (first, middle))
      (hmotive : motive analyzer node first middle)
      (hrest : Sequence source motive middle nodes others last) :
      Sequence source motive analyzer (node :: nodes) (first :: others) last

/-- The statements inside a function definition or a loop. -/
def bodyOf : Node → List Node
  | .functionDefinition _ _ _ body | .predictiveLoop _ _ _ _ _ body => body
  | _ => []

theorem sizeOf_bodyOf_le (node : Node) : sizeOf (bodyOf node) ≤ sizeOf node := by
  cases node <;> simp +arith [bodyOf]

/-- The motive holds of every statement that a rule accepts, once it holds in turn of the statements
inside of it. -/
def Hereditary (source : Source) (motive : Analyzer → Node → Statement → Analyzer → Prop) : Prop :=
  ∀ {analyzer next : Analyzer} {node : Node} {result : Statement},
    StatementRule source analyzer node result next →
    (∀ {entered finished : Analyzer} {body : List Statement},
      statements source entered (bodyOf node) = .ok (body, finished) →
        Sequence source motive entered (bodyOf node) body finished) →
    motive analyzer node result next

section Hereditary

variable {motive : Analyzer → Node → Statement → Analyzer → Prop}

mutual

/-- A hereditary motive holds of every analysed statement. -/
theorem Hereditary.statement (step : Hereditary source motive) (node : Node)
    {analyzer next : Analyzer} {result : Statement}
    (h : Analysis.statement source analyzer node = .ok (result, next)) :
    motive analyzer node result next :=
  step (rule_of_statement h) fun hbody ↦ Hereditary.statements step (bodyOf node) hbody
termination_by (sizeOf node, 1)
decreasing_by
  have hle := sizeOf_bodyOf_le node
  rcases Nat.lt_or_eq_of_le hle with hlt | heq
  · exact Prod.Lex.left _ _ hlt
  · rw [heq]
    exact Prod.Lex.right _ Nat.zero_lt_one

theorem Hereditary.statements (step : Hereditary source motive) (nodes : List Node)
    {analyzer next : Analyzer} {results : List Statement}
    (h : Analysis.statements source analyzer nodes = .ok (results, next)) :
    Sequence source motive analyzer nodes results next := by
  cases nodes with
  | nil =>
    simp only [Analysis.statements] at h
    obtain ⟨rfl, rfl⟩ := Prod.mk.inj (Except.ok.inj h)
    exact .nil
  | cons node rest =>
    obtain ⟨first, middle, others, hfirst, hothers, rfl⟩ := exists_of_statements_cons h
    exact .cons hfirst (Hereditary.statement step node hfirst)
      (Hereditary.statements step rest hothers)
termination_by (sizeOf nodes, 0)

end

end Hereditary

end Analysis

end Presage
