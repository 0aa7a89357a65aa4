import Presage.Proofs.Scoping

/-!
Where `return` and `yield` may stand. `Node.Within` and `Statement.Within` give the nodes of a tree
and the statements of a program with those around them, from the inside out. A `return` must have a
function around it, and the nearest function or loop around a `yield` must be a loop.

An analysis decides this by two flags of its current scope. `Context.Encloses` says that the flags
are what the nodes around say, and is kept when a body is entered. So an analysed program has its
statements placed well (`Analysis.hereditary_placed`), and an analysis that fails for the place of a
statement fails at one that is placed where it must not be (`Analysis.blames_statement`), as the
analysis of an expression never fails for that reason (`Analysis.fails_expression`).
`placement_legal` is the result for all trees.
-/

set_option autoImplicit false
set_option relaxedAutoImplicit false

namespace Presage

/-! ### What stands around a node and a statement -/

namespace Node

/-- The node stands in the tree, inside of the nodes `around`, from the inside out. -/
inductive Within (tree : Node) : List Node → Node → Prop
  | root : Within tree [] tree
  | child {around : List Node} {node child : Node} (hnode : Within tree around node)
      (hchild : child ∈ node.children) : Within tree (node :: around) child

def isFunction : Node → Bool
  | functionDefinition _ _ _ _ => true
  | _ => false

def isLoop : Node → Bool
  | predictiveLoop _ _ _ _ _ _ => true
  | _ => false

/-- The nearest function definition or loop around a node. -/
def nearest? (around : List Node) : Option Node :=
  around.find? fun node ↦ node.isFunction || node.isLoop

end Node

namespace Statement

def body : Statement → List Statement
  | functionDeclaration _ _ _ body | predictiveLoop _ _ _ _ body => body
  | _ => []

/-- The statement is one of the given ones or stands inside of them, in the bodies of the statements
`around`, from the inside out. -/
inductive Within (statements : List Statement) : List Statement → Statement → Prop
  | top {statement : Statement} (h : statement ∈ statements) : Within statements [] statement
  | inner {around : List Statement} {outer statement : Statement}
      (houter : Within statements around outer) (h : statement ∈ outer.body) :
      Within statements (outer :: around) statement

def isFunction : Statement → Bool
  | functionDeclaration _ _ _ _ => true
  | _ => false

def isLoop : Statement → Bool
  | predictiveLoop _ _ _ _ _ => true
  | _ => false

end Statement

/-! ### Placed statements -/

mutual

/-- Where a function is around the statement or not, and a loop is the nearest around it or not,
every `return` of the statement is in a function and every `yield` in a loop. -/
def Statement.placed (inFunction inLoop : Bool) : Statement → Bool
  | .returnValue _ => inFunction
  | .yieldValue _ => inLoop
  | .functionDeclaration _ _ _ body => Statement.allPlaced true false body
  | .predictiveLoop _ _ _ _ body => Statement.allPlaced inFunction true body
  | _ => true

def Statement.allPlaced (inFunction inLoop : Bool) : List Statement → Bool
  | [] => true
  | first :: rest =>
    Statement.placed inFunction inLoop first && Statement.allPlaced inFunction inLoop rest

end

namespace Statement

variable {inFunction inLoop : Bool} {statements : List Statement}

theorem placed_of_mem (h : allPlaced inFunction inLoop statements = true) {statement : Statement}
    (hmem : statement ∈ statements) : statement.placed inFunction inLoop = true := by
  induction statements with
  | nil => cases hmem
  | cons first rest ih =>
    obtain ⟨hfirst, hrest⟩ := Bool.and_eq_true_iff.mp h
    rcases List.mem_cons.mp hmem with rfl | hmem
    · exact hfirst
    · exact ih hrest hmem

/-- Inside of placed statements, the flags are what the statements around say. -/
theorem placed_of_within (h : allPlaced inFunction inLoop statements = true)
    {around : List Statement} {statement : Statement}
    (hwithin : Within statements around statement) :
    statement.placed (inFunction || around.any isFunction)
      (around.head?.elim inLoop isLoop) = true := by
  induction hwithin with
  | top hmem => simpa using placed_of_mem h hmem
  | @inner around outer statement _ hmem ih =>
    cases outer with
    | functionDeclaration name function parameters body =>
      simpa [isFunction, isLoop] using placed_of_mem ih hmem
    | predictiveLoop iterator low high pattern body =>
      simpa [isFunction, isLoop] using placed_of_mem ih hmem
    | _ => cases hmem

end Statement

namespace Analysis

variable {source : Source}

/-- The statement is placed as the flags of the current scope say. -/
def PlacedFrom (before : Analyzer) (_ : Node) (result : Statement) (_ : Analyzer) : Prop :=
  result.placed before.context.current.function?.isSome before.context.current.inLoop = true

theorem allPlaced_of_sequence {analyzer last : Analyzer} {nodes : List Node}
    {results : List Statement} (h : Sequence source PlacedFrom analyzer nodes results last) :
    Statement.allPlaced analyzer.context.current.function?.isSome
      analyzer.context.current.inLoop results = true := by
  induction h with
  | nil => rfl
  | cons hfirst hmotive _ ih =>
    -- A statement leaves the flags of its scope as they are.
    rw [context_of_statement hfirst] at ih
    exact Bool.and_eq_true_iff.mpr ⟨hmotive, ih⟩

/-- In the body of a function the function is around, and no loop is nearer. -/
theorem flags_enterFunction (analyzer : Analyzer) (function : Func) :
    (analyzer.enterFunction function).context.current.function? = some function ∧
      (analyzer.enterFunction function).context.current.inLoop = false := by
  rw [Analyzer.enterFunction, Analyzer.declareParameters_eq]
  exact ⟨rfl, rfl⟩

theorem hereditary_placed : Hereditary source PlacedFrom := by
  intro analyzer next node result hrule ih
  cases hrule with
  | functionDefinition _ _ hbody =>
    have hplaced := allPlaced_of_sequence (ih hbody)
    rw [(flags_enterFunction _ _).1, (flags_enterFunction _ _).2] at hplaced
    exact hplaced
  | predictiveLoop _ _ _ _ _ hbody => exact allPlaced_of_sequence (ih hbody)
  | returnValue _ hfunction => exact hfunction
  | yieldValue _ hloop => exact hloop
  | _ => rfl

/-! ### Reasons for which an analysis fails -/

section FailsOnly

variable {α β : Type} {allowed : Diagnostic → Prop}

/-- The computation succeeds, or fails with an allowed diagnostic. -/
def FailsOnly (allowed : Diagnostic → Prop) : Except Diagnostic α → Prop
  | .ok _ => True
  | .error diagnostic => allowed diagnostic

namespace FailsOnly

theorem bind {first : Except Diagnostic α} {second : α → Except Diagnostic β}
    (hfirst : FailsOnly allowed first)
    (hsecond : ∀ value, first = .ok value → FailsOnly allowed (second value)) :
    FailsOnly allowed (first >>= second) := by
  cases first with
  | error diagnostic => exact hfirst
  | ok value => exact hsecond value rfl

theorem map {computation : Except Diagnostic α} (h : FailsOnly allowed computation) (f : α → β) :
    FailsOnly allowed (computation.map f) := by
  cases computation with
  | error diagnostic => exact h
  | ok value => trivial

theorem mapM {action : α → Except Diagnostic β} (values : List α)
    (h : ∀ value, FailsOnly allowed (action value)) : FailsOnly allowed (values.mapM action) := by
  induction values with
  | nil => trivial
  | cons value rest ih =>
    rw [List.mapM_cons]
    exact .bind (h value) fun _ _ ↦ .bind ih fun _ _ ↦ trivial

theorem imp {other : Diagnostic → Prop} {computation : Except Diagnostic α}
    (h : FailsOnly allowed computation)
    (himp : ∀ diagnostic, allowed diagnostic → other diagnostic) : FailsOnly other computation := by
  cases computation with
  | error diagnostic => exact himp diagnostic h
  | ok value => trivial

theorem require {condition : Bool} {cause : Cause} {node : Node}
    (h : condition = false → allowed ⟨cause, node.span.start⟩) :
    FailsOnly allowed (require condition cause node) := by
  cases condition with
  | true => trivial
  | false => exact h rfl

end FailsOnly

end FailsOnly

end Analysis

/-- Causes for which the analysis of an expression fails. -/
def Cause.isOfExpression : Cause → Bool
  | .numberParse _ | .undeclaredIdentifier _ | .expectedValue _ | .unexpectedNode _ => true
  | .expectedNumber | .expectedBoolean | .invalidOperator _ => true
  | .notCallable | .argumentCountMismatch _ _ | .assignabilityMismatch _ _ => true
  | _ => false

def Diagnostic.IsOfExpression (diagnostic : Diagnostic) : Prop :=
  diagnostic.cause.isOfExpression = true

namespace Analysis

section Expressions

variable (source : Source) (context : Context)

theorem fails_resolve (node : Node) :
    FailsOnly Diagnostic.IsOfExpression (resolve source context node) := by
  unfold resolve
  split
  · trivial
  · exact rfl

theorem fails_leaf (kind : LeafKind) (span : Span) :
    FailsOnly Diagnostic.IsOfExpression (leaf source context kind span) := by
  cases kind with
  | number =>
    simp only [leaf]
    split
    · trivial
    · exact rfl
  | identifier =>
    refine .bind (fails_resolve source context _) fun entity _ ↦ ?_
    cases entity with
    | type ty => exact rfl
    | _ => trivial
  | operator => exact rfl
  | _ => trivial

theorem fails_binaryTy? (left operator right : Node) (left? right? : Option Ty) :
    FailsOnly Diagnostic.IsOfExpression
      (binaryTy? source left operator right left? right?) := by
  simp only [binaryTy?]
  split
  · trivial
  split
  · split
    · exact .bind (.require fun _ ↦ rfl) fun _ _ ↦ .bind (.require fun _ ↦ rfl) fun _ _ ↦ trivial
    · trivial
  split
  · exact .bind (.require fun _ ↦ rfl) fun _ _ ↦ .bind (.require fun _ ↦ rfl) fun _ _ ↦ trivial
  · exact rfl

theorem fails_callee (name : Node) :
    FailsOnly Diagnostic.IsOfExpression (callee source context name) := by
  refine .bind (fails_resolve source context name) fun entity _ ↦ ?_
  split
  · trivial
  · trivial
  · exact rfl

theorem fails_checkArguments (function : Func) (index : Nat) (pairs : List (Node × Expr)) :
    FailsOnly Diagnostic.IsOfExpression (checkArguments source function index pairs) := by
  induction pairs generalizing index with
  | nil => trivial
  | cons pair rest ih =>
    have hparameter : FailsOnly Diagnostic.IsOfExpression
        (parameterFor? source function index pair.1) := by
      unfold parameterFor?
      split
      · exact .bind (.require fun _ ↦ rfl) fun _ _ ↦ trivial
      · trivial
    have hassignable : ∀ given? expected?, FailsOnly Diagnostic.IsOfExpression
        (checkAssignable given? expected? pair.1) := by
      intro given? expected?
      unfold checkAssignable
      split
      · exact .require fun _ ↦ rfl
      · trivial
    exact .bind hparameter fun _ _ ↦ .bind (hassignable _ _) fun _ _ ↦ ih (index + 1)

theorem fails_checkedCall (position : Position) (target : Callee) (arguments : List Node)
    (values : List Expr) :
    FailsOnly Diagnostic.IsOfExpression
      (checkedCall source position target arguments values) := by
  cases target with
  | struct target => trivial
  | function target =>
    simp only [checkedCall]
    split
    · exact rfl
    · exact .bind (fails_checkArguments source target 0 _) fun _ _ ↦ trivial

mutual

theorem fails_expression (node : Node) :
    FailsOnly Diagnostic.IsOfExpression (valueOf source context node) := by
  cases node with
  | call span name arguments =>
    rw [valueOf_call]
    exact .bind (fails_callee source context name) fun _ _ ↦
      .bind (fails_valuesOf arguments) fun _ _ ↦
        .bind (fails_checkedCall source _ _ _ _) fun _ _ ↦ trivial
  | binary span left operator right =>
    rw [valueOf_binary]
    exact .bind (fails_expression left) fun _ _ ↦ .bind (fails_expression right) fun _ _ ↦
      .bind (fails_binaryTy? source _ _ _ _ _) fun _ _ ↦ trivial
  | parenthesized span inner =>
    rw [valueOf_parenthesized]
    exact fails_expression inner
  | leaf kind span =>
    rw [valueOf_leaf]
    exact fails_leaf source context kind span
  | _ => exact rfl
termination_by sizeOf node

theorem fails_valuesOf (nodes : List Node) :
    FailsOnly Diagnostic.IsOfExpression (valuesOf source context nodes) := by
  cases nodes with
  | nil =>
    rw [valuesOf_nil]
    trivial
  | cons node rest =>
    have hle := node.sizeOf_argumentValue_le
    rw [valuesOf_cons]
    exact .bind (fails_expression node.argumentValue) fun _ _ ↦
      .bind (fails_valuesOf rest) fun _ _ ↦ trivial
termination_by sizeOf nodes

end

theorem fails_parameterOf (node : Node) :
    FailsOnly Diagnostic.IsOfExpression (parameterOf source context node) := by
  cases node with
  | parameter span name default? =>
    cases default? with
    | none => trivial
    | some default =>
      rw [parameterOf_some]
      exact .bind (fails_expression source context default) fun _ _ ↦ trivial
  | _ => exact rfl

end Expressions

end Analysis

/-! ### Failures for the place of a statement -/

/-- The flags of the current scope are what the nodes around say. -/
structure Context.Encloses (context : Context) (around : List Node) : Prop where
  function : context.current.function?.isSome = around.any Node.isFunction
  loop : context.current.inLoop = (Node.nearest? around).any Node.isLoop

/-- If the diagnostic is about the place of a statement, it stands at one in the tree that is placed
where it must not be: a `return` that no function is around, or a `yield` with no loop as the
nearest function or loop around it. -/
def Diagnostic.Blames (tree : Node) (diagnostic : Diagnostic) : Prop :=
  (diagnostic.cause = .returnOutsideFunction →
    ∃ around span value, tree.Within around (.returnStatement span value) ∧
      diagnostic.position = span.start ∧ ∀ outer ∈ around, outer.isFunction = false) ∧
  (diagnostic.cause = .yieldOutsideLoop →
    ∃ around span value, tree.Within around (.yieldStatement span value) ∧
      diagnostic.position = span.start ∧
      ∀ nearest ∈ Node.nearest? around, nearest.isLoop = false)

theorem Diagnostic.IsOfExpression.blames {diagnostic : Diagnostic}
    (h : diagnostic.IsOfExpression) (tree : Node) : diagnostic.Blames tree := by
  unfold Diagnostic.IsOfExpression at h
  constructor
  · intro hcause
    rw [hcause] at h
    cases h
  · intro hcause
    rw [hcause] at h
    cases h

namespace Analysis

variable {source : Source} {tree : Node}

theorem blames_expression (tree : Node) (source : Source) (context : Context) (node : Node) :
    FailsOnly (Diagnostic.Blames tree) (valueOf source context node) :=
  (fails_expression source context node).imp fun _ h ↦ h.blames tree

mutual

/-- Where the flags say what is around the node, the analysis of a statement blames only statements
that are placed where they must not be. -/
theorem blames_statement (node : Node) {analyzer : Analyzer} {around : List Node}
    (hwithin : tree.Within around node) (hencloses : analyzer.context.Encloses around) :
    FailsOnly (Diagnostic.Blames tree) (statement source analyzer node) := by
  cases node with
  | functionDefinition span name parameters body =>
    rw [statement_functionDefinition]
    refine .bind (.require fun _ ↦ ⟨nofun, nofun⟩) fun _ _ ↦ ?_
    have hparameters := (FailsOnly.mapM parameters (fails_parameterOf source analyzer.context)).imp
      fun _ h ↦ h.blames tree
    refine .bind hparameters fun results _ ↦ .bind ?_ fun _ _ ↦ trivial
    refine blames_statements body (fun child hchild ↦ hwithin.child ?_) ?_
    · exact List.mem_cons_of_mem _ (List.mem_append_right _ hchild)
    · obtain ⟨hfunction, hloop⟩ := flags_enterFunction
        (analyzer.declareFunction (name.text source) results none).2
        (analyzer.declareFunction (name.text source) results none).1
      exact ⟨by rw [hfunction]; rfl, by rw [hloop]; rfl⟩
  | predictiveLoop span name low high pattern body =>
    rw [statement_predictiveLoop]
    refine .bind (.require fun _ ↦ ⟨nofun, nofun⟩) fun _ _ ↦ ?_
    refine .bind (blames_expression tree source _ low) fun _ _ ↦ ?_
    refine .bind (blames_expression tree source _ high) fun _ _ ↦ ?_
    refine .bind (.require fun _ ↦ ⟨nofun, nofun⟩) fun _ _ ↦ ?_
    refine .bind (.require fun _ ↦ ⟨nofun, nofun⟩) fun _ _ ↦ .bind ?_ fun _ _ ↦ trivial
    refine blames_statements body (fun child hchild ↦ hwithin.child ?_) ?_
    · simp only [Node.children, List.mem_cons, hchild, or_true]
    · exact ⟨hencloses.function, rfl⟩
  | returnStatement span value =>
    rw [statement_return]
    refine .bind (blames_expression tree source _ value) fun _ _ ↦ ?_
    refine .bind (.require fun hflag ↦ ⟨fun _ ↦ ⟨around, span, value, hwithin, rfl, ?_⟩, nofun⟩)
      fun _ _ ↦ trivial
    rw [hencloses.function] at hflag
    simpa using hflag
  | yieldStatement span value =>
    rw [statement_yield]
    refine .bind (blames_expression tree source _ value) fun _ _ ↦ ?_
    refine .bind (.require fun hflag ↦ ⟨nofun, fun _ ↦ ⟨around, span, value, hwithin, rfl, ?_⟩⟩)
      fun _ _ ↦ trivial
    rw [hencloses.loop] at hflag
    intro nearest hnearest
    rw [Option.mem_def.mp hnearest] at hflag
    exact hflag
  | comparisonStatement span left right =>
    rw [statement_comparison]
    refine .bind (blames_expression tree source _ left) fun _ _ ↦ ?_
    refine .bind (blames_expression tree source _ right) fun _ _ ↦ ?_
    split
    · exact .bind (.require fun _ ↦ ⟨nofun, nofun⟩) fun _ _ ↦ trivial
    · trivial
  | printStatement span value =>
    rw [statement_print]
    exact .bind (blames_expression tree source _ value) fun _ _ ↦ trivial
  | variableDeclaration span name initializer =>
    rw [statement_variableDeclaration]
    exact .bind (.require fun _ ↦ ⟨nofun, nofun⟩) fun _ _ ↦
      .bind (blames_expression tree source _ initializer) fun _ _ ↦ trivial
  | variableReassignment span name value =>
    rw [statement_variableReassignment]
    refine .bind (blames_expression tree source _ value) fun _ _ ↦ ?_
    split <;> trivial
  | call span name arguments =>
    refine FailsOnly.imp ?_ fun _ (h : Diagnostic.IsOfExpression _) ↦ h.blames tree
    rw [statement_call]
    exact .bind (fails_callee source _ name) fun _ _ ↦
      .bind (fails_valuesOf source _ arguments) fun _ _ ↦
        .bind (fails_checkedCall source _ _ _ _) fun _ _ ↦ trivial
  | _ => exact ⟨nofun, nofun⟩
termination_by sizeOf node

theorem blames_statements (nodes : List Node) {analyzer : Analyzer} {around : List Node}
    (hwithin : ∀ node ∈ nodes, tree.Within around node)
    (hencloses : analyzer.context.Encloses around) :
    FailsOnly (Diagnostic.Blames tree) (statements source analyzer nodes) := by
  cases nodes with
  | nil =>
    simp only [statements]
    trivial
  | cons node rest =>
    obtain ⟨hnode, hrest⟩ := List.forall_mem_cons.mp hwithin
    simp only [statements]
    refine .bind (blames_statement node hnode hencloses) fun result hresult ↦ ?_
    have hnext : result.2.context.Encloses around := by
      rw [context_of_statement hresult]
      exact ⟨hencloses.function, hencloses.loop⟩
    exact .bind (blames_statements rest hrest hnext) fun _ _ ↦ trivial
termination_by sizeOf nodes

end

/-- Before anything is analysed, only the whole tree is around. -/
theorem encloses_initial (span : Span) (nodes : List Node) :
    Analyzer.initial.context.Encloses [.program span nodes] :=
  ⟨rfl, rfl⟩

theorem blames_program (source : Source) (tree : Node) :
    FailsOnly (Diagnostic.Blames tree) (program source .initial tree) := by
  unfold program
  split
  · next span nodes =>
    refine .bind (blames_statements nodes (fun node hnode ↦ ?_) (encloses_initial span nodes))
      fun _ _ ↦ trivial
    exact Node.Within.root.child hnode
  · exact ⟨nofun, nofun⟩

end Analysis

/-! ### Trees -/

/-- The program of a tree is the analysis of its statements. -/
theorem Program.exists_of_ofNode {source : Source} {tree : Node} {program : Program}
    (h : Program.ofNode source tree = .ok program) :
    ∃ span nodes last, tree = .program span nodes ∧
      Analysis.statements source .initial nodes = .ok (program.statements, last) := by
  unfold Program.ofNode at h
  cases tree with
  | program span nodes =>
    cases hresults : Analysis.statements source .initial nodes with
    | error diagnostic =>
      simp only [Analysis.program, hresults] at h
      cases h
    | ok results =>
      simp only [Analysis.program, hresults] at h
      obtain rfl := Except.ok.inj h
      exact ⟨span, nodes, results.2, rfl, hresults⟩
  | _ => cases h

/-- In the program of a tree, every `return` has a function around it and every `yield` stands in
the body of a loop. An analysis that fails for the place of a `return` or a `yield` fails at one in
the tree that has no function around it, or no loop as the nearest function or loop around it. -/
theorem placement_legal (source : Source) (tree : Node) :
    (∀ program, Program.ofNode source tree = .ok program →
      ∀ around statement, Statement.Within program.statements around statement →
        (∀ value, statement = .returnValue value → ∃ outer ∈ around, outer.isFunction = true) ∧
        (∀ value, statement = .yieldValue value →
          ∃ nearest ∈ around.head?, nearest.isLoop = true)) ∧
      ∀ diagnostic, Program.ofNode source tree = .error diagnostic → diagnostic.Blames tree := by
  constructor
  · intro program hprogram around statement hwithin
    obtain ⟨span, nodes, last, rfl, hresults⟩ := Program.exists_of_ofNode hprogram
    have hall : Statement.allPlaced false false program.statements = true :=
      Analysis.allPlaced_of_sequence (Analysis.hereditary_placed.statements nodes hresults)
    have hplaced := Statement.placed_of_within hall hwithin
    constructor
    · rintro value rfl
      exact List.any_eq_true.mp hplaced
    · rintro value rfl
      cases around with
      | nil => cases hplaced
      | cons nearest outer => exact ⟨nearest, rfl, hplaced⟩
  · intro diagnostic hdiagnostic
    have hblames := (Analysis.blames_program source tree).map Prod.fst
    change Analysis.FailsOnly _ (Program.ofNode source tree) at hblames
    rw [hdiagnostic] at hblames
    exact hblames

/-- The theorem at a loop with a function in it: a `yield` of the loop is accepted, and one of the
function is blamed. -/
theorem placement_legal_nested :
    (∃ source, source = Source.ofText "" ("for i in predictive_range(0, 3, prime) \x7b\n" ++
          "  define f(n) then return n\n  yield i\n\x7d") ∧
        ∃ tree, source.tree = .ok tree ∧ ∃ program, Program.ofNode source tree = .ok program ∧
          ∀ around statement, Statement.Within program.statements around statement →
            (∀ value, statement = .returnValue value →
              ∃ outer ∈ around, outer.isFunction = true) ∧
            (∀ value, statement = .yieldValue value →
              ∃ nearest ∈ around.head?, nearest.isLoop = true)) ∧
      ∃ source, source = Source.ofText "" ("for i in predictive_range(0, 3, prime) \x7b\n" ++
          "  define f(n) then yield n\n\x7d") ∧
        ∃ tree, source.tree = .ok tree ∧
          Program.ofNode source tree = .error ⟨.yieldOutsideLoop, ⟨60, 2, 20⟩⟩ ∧
          Diagnostic.Blames tree ⟨.yieldOutsideLoop, ⟨60, 2, 20⟩⟩ := by
  constructor
  · refine ⟨_, rfl, ?_⟩
    refine (exists_of_any ?_).imp fun tree h ↦ ⟨h.1, (exists_of_isOk h.2).imp fun program hprogram ↦
      ⟨hprogram, (placement_legal _ _).1 program hprogram⟩⟩
    decide +kernel
  · refine ⟨_, rfl, ?_⟩
    have hfails {source : Source} {tree : Node} {diagnostic : Diagnostic}
        (h : (Program.ofNode source tree).map (fun _ ↦ ()) = .error diagnostic) :
        Program.ofNode source tree = .error diagnostic := of_map_eq_error h
    refine (exists_of_any ?_).imp fun tree h ↦
      ⟨h.1, hfails h.2, (placement_legal _ _).2 _ (hfails h.2)⟩
    decide +kernel

end Presage
