import Presage.Proofs.Shifting

/-!
Analysis does not depend on places. The rules read the texts of names, numbers, strings and
operators, and use positions only to report. So a tree that is moved to where another source has the
same texts is analysed with the same result, or with the same cause at the moved place:
`statement_shift` and `statements_shift`. The results carry the same identities, as the state that
hands them out does not know of places either.

Analysis goes through the statements of a program from left to right (`statements_append`).
-/

set_option autoImplicit false
set_option relaxedAutoImplicit false

namespace Presage

/-- What an analysis says about a moved text: the same, with the place of a diagnostic moved. -/
def Shift.answer {α : Type} (shift : Shift) (answer : Except Diagnostic α) : Except Diagnostic α :=
  answer.mapError shift.diagnostic

theorem Shift.answer_zero {α : Type} (answer : Except Diagnostic α) :
    zero.answer answer = answer := by
  cases answer <;> rfl

/-- Two computations in turn, each with the answer moved. -/
theorem Shift.answer_bind {α β : Type} {shift : Shift} {first moved : Except Diagnostic α}
    {second movedSecond : α → Except Diagnostic β} (hfirst : moved = shift.answer first)
    (hsecond : ∀ value, movedSecond value = shift.answer (second value)) :
    (moved >>= movedSecond) = shift.answer (first >>= second) := by
  subst hfirst
  cases first with
  | error diagnostic => rfl
  | ok value => exact hsecond value

theorem Shift.argumentValue_node (shift : Shift) (node : Node) :
    (shift.node node).argumentValue = shift.node node.argumentValue := by
  cases node with
  | parameter span name default? => cases default? <;> rfl
  | _ => rfl

theorem SameTexts.argumentValue {source target : Source} {shift : Shift} {node : Node}
    (h : SameTexts source target shift node) :
    SameTexts source target shift node.argumentValue := by
  cases node with
  | keywordArgument span name value => exact h.child (List.mem_cons_of_mem _ List.mem_cons_self)
  | _ => exact h

namespace Analysis

variable {source target : Source} {shift : Shift} {context : Context}

theorem require_shift (condition : Bool) (cause : Cause) (node : Node) :
    require condition cause (shift.node node) = shift.answer (require condition cause node) := by
  unfold require
  rw [Shift.span_node]
  cases condition <;> rfl

theorem unexpectedNode_shift {α : Type} (node : Node) :
    (unexpectedNode (shift.node node) : Except Diagnostic α) =
      shift.answer (unexpectedNode node) := by
  unfold unexpectedNode
  rw [Shift.kindName_node, Shift.span_node]
  rfl

theorem resolve_shift {node : Node} (h : SameTexts source target shift node) :
    resolve target context (shift.node node) = shift.answer (resolve source context node) := by
  unfold resolve
  rw [h.text, Shift.span_node]
  split <;> rfl

theorem requireUndeclared_shift {node : Node} (h : SameTexts source target shift node) :
    requireUndeclared target context (shift.node node) =
      shift.answer (requireUndeclared source context node) := by
  unfold requireUndeclared
  rw [h.text, require_shift]

theorem identifier_shift {node : Node} (h : SameTexts source target shift node) :
    identifier target context (shift.node node) =
      shift.answer (identifier source context node) := by
  refine Shift.answer_bind (resolve_shift h) fun entity ↦ ?_
  rw [h.text, Shift.span_node]
  cases entity <;> rfl

theorem leaf_shift {kind : LeafKind} {span : Span}
    (h : SameTexts source target shift (.leaf kind span)) :
    leaf target context kind (shift.span span) = shift.answer (leaf source context kind span) := by
  have hread : target.read (shift.span span) = source.read span := h.text
  unfold leaf
  cases kind with
  | number =>
    rw [hread]
    cases Integer.read? (source.read span) <;> rfl
  | string =>
    rw [hread]
    rfl
  | truth | falsity => rfl
  | identifier =>
    have hmoved : identifier target context (shift.node (.leaf .identifier span)) = _ :=
      identifier_shift h
    rw [Shift.node] at hmoved
    exact hmoved
  | operator => exact unexpectedNode_shift (.leaf .operator span)

theorem binaryTy?_shift {left operator right : Node} {leftTy? rightTy? : Option Ty}
    (h : SameTexts source target shift operator) :
    binaryTy? target (shift.node left) (shift.node operator) (shift.node right) leftTy? rightTy? =
      shift.answer (binaryTy? source left operator right leftTy? rightTy?) := by
  unfold binaryTy?
  simp only [h.text]
  split_ifs
  · rfl
  · cases leftTy? <;> cases rightTy?
    case some.some leftTy rightTy =>
      exact Shift.answer_bind (require_shift _ _ _) fun _ ↦
        Shift.answer_bind (require_shift _ _ _) fun _ ↦ rfl
    all_goals rfl
  · exact Shift.answer_bind (require_shift _ _ _) fun _ ↦
      Shift.answer_bind (require_shift _ _ _) fun _ ↦ rfl
  · rw [Shift.span_node]
    rfl

theorem callee_shift {node : Node} (h : SameTexts source target shift node) :
    callee target context (shift.node node) = shift.answer (callee source context node) := by
  refine Shift.answer_bind (resolve_shift h) fun entity ↦ ?_
  rw [Shift.span_node]
  split <;> rfl

theorem parameterFor?_shift {function : Func} {index : Nat} {node : Node}
    (h : SameTexts source target shift node) :
    parameterFor? target function index (shift.node node) =
      shift.answer (parameterFor? source function index node) := by
  cases node with
  | keywordArgument span name value =>
    have hname : SameTexts source target shift name := h.child List.mem_cons_self
    rw [Shift.node]
    simp only [parameterFor?, hname.text]
    exact Shift.answer_bind (require_shift _ _ _) fun _ ↦ rfl
  | parameter span name default? => cases default? <;> rfl
  | _ => rfl

theorem checkAssignable_shift (given? expected? : Option Ty) (node : Node) :
    checkAssignable given? expected? (shift.node node) =
      shift.answer (checkAssignable given? expected? node) := by
  unfold checkAssignable
  cases given? <;> cases expected?
  case some.some => exact require_shift _ _ _
  all_goals rfl

theorem checkArguments_shift {function : Func} {nodes : List Node}
    (h : ∀ node ∈ nodes, SameTexts source target shift node) (values : List Expr) (index : Nat) :
    checkArguments target function index ((shift.nodes nodes).zip values) =
      shift.answer (checkArguments source function index (nodes.zip values)) := by
  rw [Shift.nodes_eq_map]
  induction nodes generalizing values index with
  | nil => rfl
  | cons node rest ih =>
    obtain ⟨hnode, hrest⟩ := List.forall_mem_cons.mp h
    cases values with
    | nil => rfl
    | cons value values =>
      refine Shift.answer_bind (parameterFor?_shift hnode) fun parameter? ↦ ?_
      exact Shift.answer_bind (checkAssignable_shift _ _ _) fun _ ↦ ih hrest values (index + 1)

theorem checkedCall_shift {position : Position} {callee : Callee} {nodes : List Node}
    (h : ∀ node ∈ nodes, SameTexts source target shift node) (values : List Expr) :
    checkedCall target (shift.position position) callee (shift.nodes nodes) values =
      shift.answer (checkedCall source position callee nodes values) := by
  cases callee with
  | struct => rfl
  | function function =>
    unfold checkedCall
    dsimp only
    split_ifs
    · rfl
    · exact Shift.answer_bind (checkArguments_shift h values 0) fun _ ↦ rfl

/-! ### Expressions -/

mutual

theorem expression_shift (analyzer : Analyzer) : (node : Node) →
    SameTexts source target shift node →
      expression target analyzer (shift.node node) = shift.answer (expression source analyzer node)
  | .call span name arguments, h => by
    have hname : SameTexts source target shift name := h.child List.mem_cons_self
    have harguments : ∀ argument ∈ arguments, SameTexts source target shift argument :=
      fun argument hargument ↦ h.child (List.mem_cons_of_mem name hargument)
    rw [Shift.node, expression, expression]
    refine Shift.answer_bind (callee_shift hname) fun callee ↦ ?_
    refine Shift.answer_bind (argumentValues_shift _ arguments harguments) fun values ↦ ?_
    exact Shift.answer_bind (checkedCall_shift harguments values.1) fun _ ↦ rfl
  | .binary _ left operator right, h => by
    have hleft : SameTexts source target shift left := h.child (by simp [Node.children])
    have hright : SameTexts source target shift right := h.child (by simp [Node.children])
    have hoperator : SameTexts source target shift operator := h.child (by simp [Node.children])
    rw [Shift.node, expression, expression]
    refine Shift.answer_bind (expression_shift _ left hleft) fun leftValue ↦ ?_
    refine Shift.answer_bind (expression_shift _ right hright) fun rightValue ↦ ?_
    refine Shift.answer_bind (binaryTy?_shift hoperator) fun ty? ↦ ?_
    rw [hoperator.text]
    rfl
  | .parenthesized _ inner, h => by
    rw [Shift.node, expression, expression]
    exact expression_shift _ inner (h.child List.mem_cons_self)
  | .leaf kind span, h => by
    rw [Shift.node, expression, expression]
    exact Shift.answer_bind (leaf_shift h) fun _ ↦ rfl
  | .program _ _, _ | .functionDefinition _ _ _ _, _ | .predictiveLoop _ _ _ _ _ _, _
  | .comparisonStatement _ _ _, _ | .printStatement _ _, _ | .returnStatement _ _, _
  | .yieldStatement _ _, _ | .variableDeclaration _ _ _, _ | .variableReassignment _ _ _, _
  | .parameter _ _ none, _ | .parameter _ _ (some _), _ | .keywordArgument _ _ _, _ => by
    rw [expression]
    · exact unexpectedNode_shift _
    all_goals exact nofun
termination_by node => sizeOf node

theorem argumentValues_shift (analyzer : Analyzer) : (nodes : List Node) →
    (∀ node ∈ nodes, SameTexts source target shift node) →
      argumentValues target analyzer (shift.nodes nodes) =
        shift.answer (argumentValues source analyzer nodes)
  | [], _ => by
    rw [Shift.nodes, argumentValues, argumentValues]
    rfl
  | node :: rest, h => by
    obtain ⟨hnode, hrest⟩ := List.forall_mem_cons.mp h
    have hle := node.sizeOf_argumentValue_le
    rw [Shift.nodes, argumentValues_cons, argumentValues_cons, Shift.argumentValue_node]
    refine Shift.answer_bind (expression_shift _ node.argumentValue hnode.argumentValue) fun _ ↦ ?_
    exact Shift.answer_bind (argumentValues_shift _ rest hrest) fun _ ↦ rfl
termination_by nodes => sizeOf nodes

end

theorem parameter_shift (analyzer : Analyzer) {node : Node}
    (h : SameTexts source target shift node) :
    parameter target analyzer (shift.node node) =
      shift.answer (parameter source analyzer node) := by
  cases node with
  | parameter span name default? =>
    have hname : SameTexts source target shift name := h.child List.mem_cons_self
    cases default? with
    | none =>
      rw [Shift.node, parameter, parameter, hname.text]
      rfl
    | some default =>
      have hdefault : SameTexts source target shift default :=
        h.child (List.mem_cons_of_mem _ List.mem_cons_self)
      rw [Shift.node, parameter, parameter, hname.text]
      exact Shift.answer_bind (expression_shift _ default hdefault) fun _ ↦ rfl
  | _ => exact unexpectedNode_shift _

theorem parameters_shift (analyzer : Analyzer) {nodes : List Node}
    (h : ∀ node ∈ nodes, SameTexts source target shift node) :
    parameters target analyzer (shift.nodes nodes) =
      shift.answer (parameters source analyzer nodes) := by
  rw [Shift.nodes_eq_map]
  induction nodes generalizing analyzer with
  | nil => rfl
  | cons node rest ih =>
    obtain ⟨hnode, hrest⟩ := List.forall_mem_cons.mp h
    refine Shift.answer_bind (parameter_shift analyzer hnode) fun _ ↦ ?_
    exact Shift.answer_bind (ih _ hrest) fun _ ↦ rfl

/-! ### Statements -/

mutual

/-- A moved statement is analysed with the same result, or with the same cause at the place it is
moved to. -/
theorem statement_shift (analyzer : Analyzer) : (node : Node) → SameTexts source target shift node →
    statement target analyzer (shift.node node) = shift.answer (statement source analyzer node)
  | .functionDefinition _ name parameters body, h => by
    have hname : SameTexts source target shift name := h.child List.mem_cons_self
    have hparameters : ∀ node ∈ parameters, SameTexts source target shift node :=
      fun node hnode ↦ h.child (by simp [Node.children, hnode])
    have hbody : ∀ node ∈ body, SameTexts source target shift node :=
      fun node hnode ↦ h.child (by simp [Node.children, hnode])
    rw [Shift.node, statement, statement, hname.text]
    refine Shift.answer_bind (requireUndeclared_shift hname) fun _ ↦ ?_
    refine Shift.answer_bind (parameters_shift _ hparameters) fun _ ↦ ?_
    exact Shift.answer_bind (statements_shift _ body hbody) fun _ ↦ rfl
  | .predictiveLoop _ name low high pattern body, h => by
    have hname : SameTexts source target shift name := h.child List.mem_cons_self
    have hlow : SameTexts source target shift low := h.child (by simp [Node.children])
    have hhigh : SameTexts source target shift high := h.child (by simp [Node.children])
    have hpattern : SameTexts source target shift pattern := h.child (by simp [Node.children])
    have hbody : ∀ node ∈ body, SameTexts source target shift node :=
      fun node hnode ↦ h.child (by simp [Node.children, hnode])
    rw [Shift.node, statement, statement, hname.text, hpattern.text]
    refine Shift.answer_bind (requireUndeclared_shift hname) fun _ ↦ ?_
    refine Shift.answer_bind (expression_shift _ low hlow) fun lowValue ↦ ?_
    refine Shift.answer_bind (expression_shift _ high hhigh) fun highValue ↦ ?_
    refine Shift.answer_bind (require_shift _ _ _) fun _ ↦ ?_
    refine Shift.answer_bind (require_shift _ _ _) fun _ ↦ ?_
    exact Shift.answer_bind (statements_shift _ body hbody) fun _ ↦ rfl
  | .comparisonStatement _ left right, h => by
    have hleft : SameTexts source target shift left := h.child List.mem_cons_self
    have hright : SameTexts source target shift right := h.child (by simp [Node.children])
    rw [Shift.node, statement, statement]
    refine Shift.answer_bind (expression_shift _ left hleft) fun (leftValue, middle) ↦ ?_
    refine Shift.answer_bind (expression_shift _ right hright) fun (rightValue, next) ↦ ?_
    dsimp only
    cases leftValue.ty? <;> cases rightValue.ty?
    case some.some => exact Shift.answer_bind (require_shift _ _ _) fun _ ↦ rfl
    all_goals rfl
  | .printStatement _ value, h => by
    rw [Shift.node, statement, statement]
    exact Shift.answer_bind (expression_shift _ value (h.child List.mem_cons_self)) fun _ ↦ rfl
  | .returnStatement span value, h => by
    rw [Shift.node, statement, statement]
    refine Shift.answer_bind (expression_shift _ value (h.child List.mem_cons_self)) fun _ ↦ ?_
    exact Shift.answer_bind (require_shift _ _ (.returnStatement span value)) fun _ ↦ rfl
  | .yieldStatement span value, h => by
    rw [Shift.node, statement, statement]
    refine Shift.answer_bind (expression_shift _ value (h.child List.mem_cons_self)) fun _ ↦ ?_
    exact Shift.answer_bind (require_shift _ _ (.yieldStatement span value)) fun _ ↦ rfl
  | .variableDeclaration _ name initializer, h => by
    have hname : SameTexts source target shift name := h.child List.mem_cons_self
    have hinitializer : SameTexts source target shift initializer :=
      h.child (by simp [Node.children])
    rw [Shift.node, statement, statement, hname.text]
    refine Shift.answer_bind (requireUndeclared_shift hname) fun _ ↦ ?_
    exact Shift.answer_bind (expression_shift _ initializer hinitializer) fun _ ↦ rfl
  | .variableReassignment _ name value, h => by
    have hname : SameTexts source target shift name := h.child List.mem_cons_self
    have hvalue : SameTexts source target shift value := h.child (by simp [Node.children])
    rw [Shift.node, statement, statement, hname.text]
    refine Shift.answer_bind (expression_shift _ value hvalue) fun (value, next) ↦ ?_
    cases hrebinds : rebinds next.context (name.text source) <;> simp only [hrebinds] <;> rfl
  | .call _ name arguments, h => by
    have hname : SameTexts source target shift name := h.child List.mem_cons_self
    have harguments : ∀ argument ∈ arguments, SameTexts source target shift argument :=
      fun argument hargument ↦ h.child (List.mem_cons_of_mem name hargument)
    rw [Shift.node, statement, statement]
    refine Shift.answer_bind (callee_shift hname) fun callee ↦ ?_
    refine Shift.answer_bind (argumentValues_shift _ arguments harguments) fun values ↦ ?_
    exact Shift.answer_bind (checkedCall_shift harguments values.1) fun _ ↦ rfl
  | .program _ _, _ | .parameter _ _ none, _ | .parameter _ _ (some _), _
  | .keywordArgument _ _ _, _ | .binary _ _ _ _, _ | .parenthesized _ _, _ | .leaf _ _, _ => by
    rw [statement]
    · exact unexpectedNode_shift _
    all_goals exact nofun

theorem statements_shift (analyzer : Analyzer) : (nodes : List Node) →
    (∀ node ∈ nodes, SameTexts source target shift node) →
      statements target analyzer (shift.nodes nodes) =
        shift.answer (statements source analyzer nodes)
  | [], _ => by
    rw [Shift.nodes, statements, statements]
    rfl
  | node :: rest, h => by
    obtain ⟨hnode, hrest⟩ := List.forall_mem_cons.mp h
    rw [Shift.nodes, statements, statements]
    refine Shift.answer_bind (statement_shift analyzer node hnode) fun first ↦ ?_
    exact Shift.answer_bind (statements_shift first.2 rest hrest) fun _ ↦ rfl

end

/-- Statements are analysed from left to right. -/
theorem statements_append (analyzer : Analyzer) (first second : List Node) :
    statements source analyzer (first ++ second) = do
      let before ← statements source analyzer first
      let after ← statements source before.2 second
      return (before.1 ++ after.1, after.2) := by
  induction first generalizing analyzer with
  | nil =>
    rw [List.nil_append, statements, pure_bind]
    cases statements source analyzer second <;> rfl
  | cons node rest ih =>
    rw [List.cons_append, statements, statements]
    simp only [ih, bind_assoc, pure_bind]
    rfl

end Analysis

end Presage
