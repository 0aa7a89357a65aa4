import Presage.Program.Analysis

/-!
Expressions leave the state of an analysis as it is. An expression has a value in a context
(`valueOf`: what it is analysed to before anything else), and in any state with that context the
analysis gives the same value and the state it started from (`expression_eq`); so do the analyses of
arguments and of parameters. The proof is by induction on the tree: the state that one part hands on
to the next is still the first.

The equations of the analysis are then stated once more, for values and for statements, with the
state only where it changes. Proofs about analysed programs go by these.
-/

set_option autoImplicit false
set_option relaxedAutoImplicit false

namespace Presage

/-- The value of an argument, without the name of a parameter before it. -/
def Node.argumentValue : Node → Node
  | .keywordArgument _ _ value => value
  | node => node

theorem Node.sizeOf_argumentValue_le (node : Node) : sizeOf node.argumentValue ≤ sizeOf node := by
  cases node <;> simp +arith [argumentValue]

namespace Analysis

variable {source : Source}

/-- The state with the given scopes in which nothing else has happened. -/
def stateIn (context : Context) : Analyzer := ⟨context, 0, .empty⟩

/-- The value of an expression in a context. -/
def valueOf (source : Source) (context : Context) (node : Node) : Except Diagnostic Expr :=
  (expression source (stateIn context) node).map Prod.fst

/-- The values of arguments in a context. -/
def valuesOf (source : Source) (context : Context) (nodes : List Node) :
    Except Diagnostic (List Expr) :=
  (argumentValues source (stateIn context) nodes).map Prod.fst

/-- What a parameter is in a context. -/
def parameterOf (source : Source) (context : Context) (node : Node) :
    Except Diagnostic Parameter :=
  (parameter source (stateIn context) node).map Prod.fst

/-! ### The state is handed on as it is -/

theorem argumentValues_cons (analyzer : Analyzer) (node : Node) (rest : List Node) :
    argumentValues source analyzer (node :: rest) = do
      let first ← expression source analyzer node.argumentValue
      let others ← argumentValues source first.2 rest
      return (first.1 :: others.1, others.2) := by
  cases node <;> simp only [argumentValues, Node.argumentValue]

mutual

theorem expression_eq (analyzer : Analyzer) (node : Node) :
    expression source analyzer node =
      (valueOf source analyzer.context node).map fun value ↦ (value, analyzer) := by
  cases node with
  | call span name arguments =>
    have harguments := fun state ↦ argumentValues_eq state arguments
    unfold valueOf
    simp only [expression, harguments, stateIn]
    cases callee source analyzer.context name with
    | error cause => rfl
    | ok found =>
      cases valuesOf source analyzer.context arguments with
      | error cause => rfl
      | ok values =>
        simp only [bind, Except.bind, Except.map]
        cases checkedCall source span.start found arguments values <;> rfl
  | binary span left operator right =>
    have hleft := fun state ↦ expression_eq state left
    have hright := fun state ↦ expression_eq state right
    unfold valueOf
    simp only [expression, hleft, hright, stateIn]
    cases valueOf source analyzer.context left with
    | error cause => rfl
    | ok leftValue =>
      simp only [bind, Except.bind, Except.map]
      cases valueOf source analyzer.context right with
      | error cause => rfl
      | ok rightValue =>
        simp only
        cases binaryTy? source left operator right leftValue.ty? rightValue.ty? <;> rfl
  | parenthesized span inner =>
    have hinner := fun state ↦ expression_eq state inner
    unfold valueOf
    simp only [expression, hinner, stateIn]
    cases valueOf source analyzer.context inner <;> rfl
  | leaf kind span =>
    unfold valueOf
    simp only [expression, stateIn]
    cases leaf source analyzer.context kind span <;> rfl
  | _ => rfl
termination_by sizeOf node

theorem argumentValues_eq (analyzer : Analyzer) (nodes : List Node) :
    argumentValues source analyzer nodes =
      (valuesOf source analyzer.context nodes).map fun values ↦ (values, analyzer) := by
  cases nodes with
  | nil =>
    unfold valuesOf
    simp only [argumentValues]
    rfl
  | cons node rest =>
    have hle := node.sizeOf_argumentValue_le
    have hfirst := fun state ↦ expression_eq state node.argumentValue
    have hrest := fun state ↦ argumentValues_eq state rest
    unfold valuesOf
    simp only [argumentValues_cons, hfirst, hrest, stateIn]
    cases valueOf source analyzer.context node.argumentValue with
    | error cause => rfl
    | ok value =>
      simp only [bind, Except.bind, Except.map]
      cases valuesOf source analyzer.context rest <;> rfl
termination_by sizeOf nodes

end

theorem parameter_eq (analyzer : Analyzer) (node : Node) :
    parameter source analyzer node =
      (parameterOf source analyzer.context node).map fun result ↦ (result, analyzer) := by
  unfold parameterOf
  cases node with
  | parameter span name default? =>
    cases default? with
    | none => rfl
    | some default =>
      simp only [parameter, expression_eq, stateIn]
      cases valueOf source analyzer.context default <;> rfl
  | _ => rfl

theorem parameters_eq (analyzer : Analyzer) (nodes : List Node) :
    parameters source analyzer nodes =
      (nodes.mapM (parameterOf source analyzer.context)).map fun results ↦ (results, analyzer) := by
  induction nodes with
  | nil => rfl
  | cons node rest ih =>
    rw [List.mapM_cons, parameters, parameter_eq]
    cases parameterOf source analyzer.context node with
    | error cause => rfl
    | ok first =>
      simp only [bind, Except.bind, Except.map, ih]
      cases rest.mapM (parameterOf source analyzer.context) <;> rfl

/-! ### Values by the form of the expression -/

variable {context : Context}

theorem valueOf_call (span : Span) (name : Node) (arguments : List Node) :
    valueOf source context (.call span name arguments) = do
      let found ← callee source context name
      let values ← valuesOf source context arguments
      return .call (← checkedCall source span.start found arguments values) := by
  unfold valueOf
  simp only [expression, argumentValues_eq, stateIn]
  cases callee source context name with
  | error cause => rfl
  | ok found =>
    cases valuesOf source context arguments with
    | error cause => rfl
    | ok values =>
      simp only [bind, Except.bind, Except.map]
      cases checkedCall source span.start found arguments values <;> rfl

theorem valueOf_binary (span : Span) (left operator right : Node) :
    valueOf source context (.binary span left operator right) = do
      let leftValue ← valueOf source context left
      let rightValue ← valueOf source context right
      let ty? ← binaryTy? source left operator right leftValue.ty? rightValue.ty?
      return .binary (operator.text source) leftValue rightValue ty? := by
  rw [valueOf]
  simp only [expression, expression_eq, stateIn]
  cases valueOf source context left with
  | error cause => rfl
  | ok leftValue =>
    simp only [bind, Except.bind, Except.map]
    cases valueOf source context right with
    | error cause => rfl
    | ok rightValue =>
      simp only
      cases binaryTy? source left operator right leftValue.ty? rightValue.ty? <;> rfl

theorem valueOf_parenthesized (span : Span) (inner : Node) :
    valueOf source context (.parenthesized span inner) = valueOf source context inner := by
  simp only [valueOf, expression]

theorem valueOf_leaf (kind : LeafKind) (span : Span) :
    valueOf source context (.leaf kind span) = leaf source context kind span := by
  simp only [valueOf, expression, stateIn]
  cases leaf source context kind span <;> rfl

theorem valuesOf_nil : valuesOf source context [] = .ok [] := by
  simp only [valuesOf, argumentValues]
  rfl

/-- Arguments are analysed one by one, one with the name of its parameter as its value. -/
theorem valuesOf_cons (node : Node) (rest : List Node) :
    valuesOf source context (node :: rest) = do
      let first ← valueOf source context node.argumentValue
      return first :: (← valuesOf source context rest) := by
  rw [valuesOf, argumentValues_cons]
  simp only [expression_eq, argumentValues_eq, stateIn]
  cases valueOf source context node.argumentValue with
  | error cause => rfl
  | ok first =>
    simp only [bind, Except.bind, Except.map]
    cases valuesOf source context rest <;> rfl

theorem parameterOf_some (span : Span) (name default : Node) :
    parameterOf source context (.parameter span name (some default)) = do
      return ⟨name.text source, some (← valueOf source context default)⟩ := by
  simp only [parameterOf, parameter, expression_eq, stateIn]
  cases valueOf source context default <;> rfl

/-! ### Statements by their form -/

variable (analyzer : Analyzer)

theorem statement_functionDefinition (span : Span) (name : Node) (nodes body : List Node) :
    statement source analyzer (.functionDefinition span name nodes body) = do
      requireUndeclared source analyzer.context name
      let parameters ← nodes.mapM (parameterOf source analyzer.context)
      let declared := analyzer.declareFunction (name.text source) parameters none
      let (body, finished) ← statements source (declared.2.enterFunction declared.1) body
      return (.functionDeclaration declared.1.name declared.1 parameters body,
        finished.leave.attachBody declared.1 body) := by
  simp only [statement, parameters_eq]
  cases requireUndeclared source analyzer.context name with
  | error cause => rfl
  | ok =>
    simp only [bind, Except.bind, Except.map]
    cases nodes.mapM (parameterOf source analyzer.context) <;> rfl

theorem statement_predictiveLoop (span : Span) (name low high pattern : Node) (body : List Node) :
    statement source analyzer (.predictiveLoop span name low high pattern body) = do
      requireUndeclared source analyzer.context name
      let lowValue ← valueOf source analyzer.context low
      let highValue ← valueOf source analyzer.context high
      require (Ty.equivalent? lowValue.ty? (some .int)) .expectedInteger low
      require (Ty.equivalent? highValue.ty? (some .int)) .expectedInteger high
      let declared := analyzer.enterLoop.declareVariable (name.text source) (some .int)
      let (body, finished) ← statements source declared.2 body
      return (.predictiveLoop declared.1 lowValue highValue (pattern.text source) body,
        finished.leave) := by
  simp only [statement, expression_eq]
  cases requireUndeclared source analyzer.context name with
  | error cause => rfl
  | ok =>
    cases valueOf source analyzer.context low with
    | error cause => rfl
    | ok lowValue =>
      simp only [bind, Except.bind, Except.map]
      cases valueOf source analyzer.context high <;> rfl

theorem statement_comparison (span : Span) (left right : Node) :
    statement source analyzer (.comparisonStatement span left right) = do
      let leftValue ← valueOf source analyzer.context left
      let rightValue ← valueOf source analyzer.context right
      match leftValue.ty?, rightValue.ty? with
      | some leftTy, some rightTy => require (leftTy.equivalent rightTy) .operandTypeMismatch right
      | _, _ => pure ()
      return (.comparison leftValue rightValue, analyzer) := by
  simp only [statement, expression_eq]
  cases valueOf source analyzer.context left with
  | error cause => rfl
  | ok leftValue =>
    simp only [bind, Except.bind, Except.map]
    cases valueOf source analyzer.context right <;> rfl

theorem statement_print (span : Span) (node : Node) :
    statement source analyzer (.printStatement span node) = do
      return (.print (← valueOf source analyzer.context node), analyzer) := by
  simp only [statement, expression_eq]
  cases valueOf source analyzer.context node <;> rfl

theorem statement_return (span : Span) (node : Node) :
    statement source analyzer (.returnStatement span node) = do
      let value ← valueOf source analyzer.context node
      require analyzer.context.current.function?.isSome .returnOutsideFunction
        (.returnStatement span node)
      return (.returnValue value, analyzer) := by
  simp only [statement, expression_eq]
  cases valueOf source analyzer.context node <;> rfl

theorem statement_yield (span : Span) (node : Node) :
    statement source analyzer (.yieldStatement span node) = do
      let value ← valueOf source analyzer.context node
      require analyzer.context.current.inLoop .yieldOutsideLoop (.yieldStatement span node)
      return (.yieldValue value, analyzer) := by
  simp only [statement, expression_eq]
  cases valueOf source analyzer.context node <;> rfl

theorem statement_variableDeclaration (span : Span) (name node : Node) :
    statement source analyzer (.variableDeclaration span name node) = do
      requireUndeclared source analyzer.context name
      let value ← valueOf source analyzer.context node
      let declared := analyzer.declareVariable (name.text source) value.ty?
      return (.variableDeclaration declared.1 value, declared.2) := by
  simp only [statement, expression_eq]
  cases requireUndeclared source analyzer.context name with
  | error cause => rfl
  | ok => cases valueOf source analyzer.context node <;> rfl

theorem statement_variableReassignment (span : Span) (name node : Node) :
    statement source analyzer (.variableReassignment span name node) = do
      let value ← valueOf source analyzer.context node
      let declared := analyzer.declareVariable (name.text source) value.ty?
      if rebinds analyzer.context (name.text source) then
        return (.variableReassignment declared.1 value, declared.2)
      else return (.variableDeclaration declared.1 value, declared.2) := by
  simp only [statement, expression_eq]
  cases valueOf source analyzer.context node <;> rfl

theorem statement_call (span : Span) (name : Node) (arguments : List Node) :
    statement source analyzer (.call span name arguments) = do
      let found ← callee source analyzer.context name
      let values ← valuesOf source analyzer.context arguments
      return (.call (← checkedCall source span.start found arguments values), analyzer) := by
  simp only [statement, argumentValues_eq]
  cases callee source analyzer.context name with
  | error cause => rfl
  | ok found => cases valuesOf source analyzer.context arguments <;> rfl

end Analysis

end Presage
