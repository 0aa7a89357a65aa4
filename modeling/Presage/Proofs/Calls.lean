import Presage.Proofs.Lockstep

/-!
The calls of a source in its tree, its program and its script. Every call comes before those in its
arguments, and these in their order, so that the three lists go in step. The calls of a statement
are met with the statement: `Analysis.callsMet` lists those of a tree with the scopes that an
analysis meets them in, and `Emitter.callsMet` those of a program with the emitter that writes them.

Both lists are complete and in order (`Analysis.map_snd_callsMet`, `Emitter.map_snd_callsMet`), and
a script has exactly what the emitters of the second write (`Emitter.map_written_callsMet`). The
calls met by an analysis are accepted, one by one, as those met by the emitter
(`Analysis.hereditary_calls`); folding folds their arguments and keeps the rest
(`Emitter.callsMet_foldAll`).

`signatures` lists the functions that are declared, with the names of their parameters. A function
that is called is among them.
-/

set_option autoImplicit false
set_option relaxedAutoImplicit false

namespace Presage

/-! ### Calls of trees -/

mutual

/-- The calls in a tree, each as the name and the arguments. -/
def Node.calls : Node → List (Node × List Node)
  | .program _ statements => Node.callsAll statements
  | .functionDefinition _ _ parameters body => Node.callsAll parameters ++ Node.callsAll body
  | .predictiveLoop _ _ low high _ body =>
    Node.calls low ++ Node.calls high ++ Node.callsAll body
  | .comparisonStatement _ left right => Node.calls left ++ Node.calls right
  | .printStatement _ value | .returnStatement _ value | .yieldStatement _ value
  | .variableDeclaration _ _ value | .variableReassignment _ _ value | .keywordArgument _ _ value
  | .parenthesized _ value => Node.calls value
  | .parameter _ _ none => []
  | .parameter _ _ (some default) => Node.calls default
  | .call _ name arguments => (name, arguments) :: Node.callsAll arguments
  | .binary _ left _ right => Node.calls left ++ Node.calls right
  | .leaf _ _ => []

def Node.callsAll : List Node → List (Node × List Node)
  | [] => []
  | node :: rest => Node.calls node ++ Node.callsAll rest

end

/-- The calls in the expressions of a statement itself, without those of the statements inside. -/
def Node.ownCalls : Node → List (Node × List Node)
  | .functionDefinition _ _ parameters _ => Node.callsAll parameters
  | .predictiveLoop _ _ low high _ _ => low.calls ++ high.calls
  | node => node.calls

theorem Node.calls_argumentValue (node : Node) : node.argumentValue.calls = node.calls := by
  cases node with
  | keywordArgument span name value => simp only [argumentValue, calls]
  | _ => rfl

/-! ### Calls of programs -/

mutual

/-- The calls in an expression. -/
def Expr.calls : Expr → List Call
  | .call invocation => Call.calls invocation
  | .binary _ left right _ => Expr.calls left ++ Expr.calls right
  | .boolean _ | .number _ _ | .string _ _ | .reference _ | .functionReference _ => []

def Expr.callsAll : List Expr → List Call
  | [] => []
  | value :: rest => Expr.calls value ++ Expr.callsAll rest

/-- A call and the calls in its arguments. -/
def Call.calls : Call → List Call
  | ⟨callee, arguments, ty?⟩ => ⟨callee, arguments, ty?⟩ :: Expr.callsAll arguments

end

/-- The calls in the defaults of parameters. -/
def Parameter.callsAll (parameters : List Parameter) : List Call :=
  parameters.flatMap fun parameter ↦ (parameter.default?.map Expr.calls).getD []

mutual

/-- The calls in a statement. -/
def Statement.calls : Statement → List Call
  | .functionDeclaration _ _ parameters body =>
    Parameter.callsAll parameters ++ Statement.callsAll body
  | .predictiveLoop _ low high _ body => low.calls ++ high.calls ++ Statement.callsAll body
  | .comparison left right => left.calls ++ right.calls
  | .variableDeclaration _ value | .variableReassignment _ value | .print value
  | .returnValue value | .yieldValue value => value.calls
  | .call invocation => invocation.calls

def Statement.callsAll : List Statement → List Call
  | [] => []
  | statement :: rest => Statement.calls statement ++ Statement.callsAll rest

end

/-- The calls in the expressions of a statement itself, without those of the statements inside. -/
def Statement.ownCalls : Statement → List Call
  | .functionDeclaration _ _ parameters _ => Parameter.callsAll parameters
  | .predictiveLoop _ low high _ _ => low.calls ++ high.calls
  | statement => statement.calls

mutual

/-- The calls of statements are those of each of them and of those inside, in turn. -/
theorem Statement.flatMap_ownCalls_preorder : ∀ statement : Statement,
    statement.preorder.flatMap Statement.ownCalls = statement.calls
  | .functionDeclaration _ _ _ body | .predictiveLoop _ _ _ _ body => by
    simp only [Statement.preorder, List.flatMap_cons, Statement.ownCalls, Statement.calls,
      Statement.flatMap_ownCalls_preorderAll body]
  | .variableDeclaration _ _ | .variableReassignment _ _ | .comparison _ _ | .print _
  | .returnValue _ | .yieldValue _ | .call _ => List.flatMap_singleton _ _

theorem Statement.flatMap_ownCalls_preorderAll : ∀ statements : List Statement,
    (Statement.preorderAll statements).flatMap Statement.ownCalls = Statement.callsAll statements
  | [] => rfl
  | statement :: rest => by
    rw [Statement.preorderAll, List.flatMap_append, Statement.flatMap_ownCalls_preorder statement,
      Statement.flatMap_ownCalls_preorderAll rest, Statement.callsAll]

end

mutual

/-- The functions that a statement declares, with the names of their parameters. -/
def Statement.signatures : Statement → List (String × List String)
  | .functionDeclaration name _ parameters body =>
    (name, parameters.map Parameter.name) :: Statement.signaturesAll body
  | .predictiveLoop _ _ _ _ body => Statement.signaturesAll body
  | _ => []

def Statement.signaturesAll : List Statement → List (String × List String)
  | [] => []
  | statement :: rest => Statement.signatures statement ++ Statement.signaturesAll rest

end

def Func.signature (function : Func) : String × List String :=
  (function.name, function.parameters.map Parameter.name)

/-! ### Calls of scripts -/

mutual

/-- The calls in a term, each as the name and the arguments. -/
def Script.Term.calls : Script.Term → List (String × List Script.Term)
  | .call callee arguments | .construct callee arguments =>
    (callee, arguments) :: Script.Term.callsAll arguments
  | .binary _ left right => Script.Term.calls left ++ Script.Term.calls right
  | .name _ | .number _ | .boolean _ | .string _ => []

def Script.Term.callsAll : List Script.Term → List (String × List Script.Term)
  | [] => []
  | value :: rest => Script.Term.calls value ++ Script.Term.callsAll rest

end

/-- The calls in the defaults of parameters. -/
def Script.Parameter.callsAll (parameters : List Script.Parameter) :
    List (String × List Script.Term) :=
  parameters.flatMap fun parameter ↦ (parameter.default?.map Script.Term.calls).getD []

mutual

/-- The calls in a statement of a script. -/
def Script.Stmt.calls : Script.Stmt → List (String × List Script.Term)
  | .declare _ value | .assign _ value | .log value | .returnValue value | .yieldValue value
  | .evaluate value => value.calls
  | .logEqual left right => left.calls ++ right.calls
  | .function _ _ parameters body =>
    Script.Parameter.callsAll parameters ++ Script.Stmt.callsAll body
  | .loop _ _ low high body => low.calls ++ high.calls ++ Script.Stmt.callsAll body

def Script.Stmt.callsAll : List Script.Stmt → List (String × List Script.Term)
  | [] => []
  | line :: rest => Script.Stmt.calls line ++ Script.Stmt.callsAll rest

end

mutual

/-- The functions of a script, with the names of their parameters. -/
def Script.Stmt.signatures : Script.Stmt → List (String × List String)
  | .function _ name parameters body =>
    (name, parameters.map Script.Parameter.name) :: Script.Stmt.signaturesAll body
  | .loop _ _ _ _ body => Script.Stmt.signaturesAll body
  | _ => []

def Script.Stmt.signaturesAll : List Script.Stmt → List (String × List String)
  | [] => []
  | line :: rest => Script.Stmt.signatures line ++ Script.Stmt.signaturesAll rest

end

/-! ### Calls and folding -/

/-- A literal that folding makes has no calls, and comes from operands without any. -/
theorem calls_of_foldBinary {operator : String} {left right folded : Expr}
    (h : foldBinary operator left right = some folded) :
    folded.calls = left.calls ++ right.calls := by
  unfold foldBinary at h
  split at h
  · obtain ⟨value, -, rfl⟩ := Option.map_eq_some_iff.mp h
    simp only [Expr.calls, List.append_nil]
  · split at h
    · obtain rfl := Option.some.inj h
      simp only [Expr.calls, List.append_nil]
    · cases h
  · obtain ⟨value, -, rfl⟩ := Option.map_eq_some_iff.mp h
    simp only [Expr.calls, List.append_nil]
  · cases h

mutual

theorem Expr.calls_fold : ∀ value : Expr, value.fold.calls = value.calls.map Call.fold
  | .call invocation => by
    simp only [Expr.fold, Expr.calls]
    exact Call.calls_fold invocation
  | .binary operator left right ty? => by
    have hleft := Expr.calls_fold left
    have hright := Expr.calls_fold right
    simp only [Expr.fold, Expr.calls, List.map_append, ← hleft, ← hright]
    cases hfold : foldBinary operator left.fold right.fold with
    | none => simp only [Option.getD_none, Expr.calls]
    | some folded => exact calls_of_foldBinary hfold
  | .boolean _ | .number _ _ | .string _ _ | .reference _ | .functionReference _ => rfl

theorem Expr.callsAll_foldAll : ∀ values : List Expr,
    Expr.callsAll (Expr.foldAll values) = (Expr.callsAll values).map Call.fold
  | [] => rfl
  | value :: rest => by
    simp only [Expr.foldAll, Expr.callsAll, List.map_append]
    rw [Expr.calls_fold value, Expr.callsAll_foldAll rest]

theorem Call.calls_fold : ∀ invocation : Call,
    invocation.fold.calls = invocation.calls.map Call.fold
  | ⟨callee, arguments, ty?⟩ => by
    simp only [Call.fold, Call.calls, List.map_cons]
    rw [Expr.callsAll_foldAll arguments]

end

theorem Parameter.callsAll_fold (parameters : List Parameter) :
    Parameter.callsAll (parameters.map Parameter.fold) =
      (Parameter.callsAll parameters).map Call.fold := by
  unfold callsAll
  rw [List.flatMap_map, List.map_flatMap]
  refine List.flatMap_congr fun parameter _ ↦ ?_
  cases hdefault : parameter.default? with
  | none => simp [Parameter.fold, hdefault]
  | some default => simp [Parameter.fold, hdefault, Expr.calls_fold]

/-- Folding keeps the calls of a statement and folds their arguments. -/
theorem Statement.ownCalls_fold (statement : Statement) :
    statement.folded.ownCalls = statement.ownCalls.map Call.fold := by
  cases statement with
  | functionDeclaration name function parameters body => exact Parameter.callsAll_fold parameters
  | predictiveLoop iterator low high pattern body =>
    simp only [Statement.folded, Statement.ownCalls, List.map_append, Expr.calls_fold]
  | comparison left right =>
    simp only [Statement.folded, Statement.ownCalls, Statement.calls, List.map_append,
      Expr.calls_fold]
  | call invocation => exact Call.calls_fold invocation
  | variableDeclaration _ value | variableReassignment _ value | print value | returnValue value
  | yieldValue value => exact Expr.calls_fold value

mutual

theorem Statement.signatures_fold : ∀ statement : Statement,
    statement.folded.signatures = statement.signatures
  | .functionDeclaration name function parameters body => by
    simp only [Statement.folded, Statement.signatures, List.map_map]
    rw [Statement.signaturesAll_foldAll body]
    rfl
  | .predictiveLoop _ _ _ _ body => by
    simp only [Statement.folded, Statement.signatures]
    exact Statement.signaturesAll_foldAll body
  | .comparison _ _ | .variableDeclaration _ _ | .variableReassignment _ _ | .print _
  | .returnValue _ | .yieldValue _ | .call _ => rfl

theorem Statement.signaturesAll_foldAll : ∀ statements : List Statement,
    Statement.signaturesAll (Statement.foldedAll statements) = Statement.signaturesAll statements
  | [] => rfl
  | statement :: rest => by
    simp only [Statement.foldedAll, Statement.signaturesAll]
    rw [Statement.signatures_fold statement, Statement.signaturesAll_foldAll rest]

end

/-! ### Calls and emission -/

namespace Emitter

/-- How a call is written: under the name of its callee, with the arguments in turn. -/
def written (emitter : Emitter) (invocation : Call) : String × List Script.Term :=
  (invocation.callee.name, emitter.terms invocation.arguments)

theorem terms_eq_map (emitter : Emitter) (values : List Expr) :
    emitter.terms values = values.map emitter.term := by
  induction values with
  | nil => rfl
  | cons value rest ih => rw [terms, ih, List.map_cons]

mutual

theorem calls_term (emitter : Emitter) : ∀ value : Expr,
    (emitter.term value).calls = value.calls.map emitter.written
  | .call invocation => by
    simp only [term, Expr.calls]
    exact calls_callTerm emitter invocation
  | .binary _ left right _ => by
    simp only [term, Script.Term.calls, Expr.calls, List.map_append]
    rw [calls_term emitter left, calls_term emitter right]
  | .boolean _ | .number _ _ | .string _ _ | .reference _ | .functionReference _ => rfl

theorem callsAll_terms (emitter : Emitter) : ∀ values : List Expr,
    Script.Term.callsAll (emitter.terms values) = (Expr.callsAll values).map emitter.written
  | [] => rfl
  | value :: rest => by
    simp only [terms, Script.Term.callsAll, Expr.callsAll, List.map_append]
    rw [calls_term emitter value, callsAll_terms emitter rest]

theorem calls_callTerm (emitter : Emitter) : ∀ invocation : Call,
    (emitter.callTerm invocation).calls = invocation.calls.map emitter.written
  | ⟨.function target, arguments, _⟩ | ⟨.struct target, arguments, _⟩ => by
    simp only [callTerm, Script.Term.calls, Call.calls, List.map_cons]
    rw [callsAll_terms emitter arguments]
    rfl

end

theorem callsAll_parameters (emitter : Emitter) (parameters : List Parameter) :
    Script.Parameter.callsAll (parameters.map emitter.parameter) =
      (Parameter.callsAll parameters).map emitter.written := by
  unfold Script.Parameter.callsAll Parameter.callsAll
  rw [List.flatMap_map, List.map_flatMap]
  refine List.flatMap_congr fun parameter _ ↦ ?_
  cases hdefault : parameter.default? with
  | none => simp [Emitter.parameter, hdefault]
  | some default => simp [Emitter.parameter, hdefault, calls_term]

/-- The calls of a statement that is met, with the emitter that meets it. -/
def callsAt (met : Emitter × Statement) : List (Emitter × Call) :=
  met.2.ownCalls.map (Prod.mk met.1)

/-- The calls of statements, each with the emitter that meets the statement it stands in. -/
def callsMet (emitter : Emitter) (statements : List Statement) : List (Emitter × Call) :=
  (emitter.visitsAll statements).flatMap callsAt

theorem map_snd_callsMet (emitter : Emitter) (statements : List Statement) :
    (emitter.callsMet statements).map Prod.snd = Statement.callsAll statements := by
  rw [← Statement.flatMap_ownCalls_preorderAll, ← map_snd_visitsAll emitter, callsMet,
    List.map_flatMap, List.flatMap_map]
  refine List.flatMap_congr fun met _ ↦ ?_
  rw [callsAt, List.map_map]
  exact List.map_id _

/-- Folding changes neither the emitters nor the calls they meet, but for the arguments. -/
theorem callsMet_foldAll (emitter : Emitter) (statements : List Statement) :
    emitter.callsMet (Statement.foldedAll statements) =
      (emitter.callsMet statements).map (Prod.map id Call.fold) := by
  rw [callsMet, visitsAll_foldAll, callsMet, List.flatMap_map, List.map_flatMap]
  refine List.flatMap_congr fun met _ ↦ ?_
  simp only [callsAt, Prod.map_fst, Prod.map_snd, id_eq, Statement.ownCalls_fold, List.map_map]
  rfl

/-- How a call is written by the emitter that meets it. -/
def writtenAt (met : Emitter × Call) : String × List Script.Term := met.1.written met.2

theorem map_writtenAt_callsAt (met : Emitter × Statement) :
    (callsAt met).map writtenAt = met.2.ownCalls.map met.1.written := by
  rw [callsAt, List.map_map]
  rfl

mutual

/-- The script of a statement has the calls of the statement, each as it is written where it is
met. -/
theorem map_written_visits (emitter : Emitter) : ∀ statement : Statement,
    ((emitter.visits statement).flatMap callsAt).map writtenAt =
      (emitter.statement statement).1.calls
  | .functionDeclaration name function parameters body => by
    simp only [visits, List.flatMap_cons, List.map_append, map_writtenAt_callsAt,
      map_written_visitsAll _ body, Statement.ownCalls, Emitter.statement, Script.Stmt.calls,
      callsAll_parameters]
  | .predictiveLoop iterator low high _ body => by
    simp only [visits, List.flatMap_cons, List.map_append, map_writtenAt_callsAt,
      map_written_visitsAll _ body, Statement.ownCalls, Emitter.statement, Script.Stmt.calls,
      calls_term]
  | .comparison left right => by
    simp only [visits, List.flatMap_singleton, map_writtenAt_callsAt, Statement.ownCalls,
      Statement.calls, Emitter.statement, Script.Stmt.calls, List.map_append, calls_term]
  | .variableDeclaration _ value | .variableReassignment _ value | .print value
  | .returnValue value => by
    simp only [visits, List.flatMap_singleton, map_writtenAt_callsAt, Statement.ownCalls,
      Statement.calls, Emitter.statement, Script.Stmt.calls, calls_term]
  | .yieldValue value => by
    simp only [visits, List.flatMap_singleton, map_writtenAt_callsAt, Statement.ownCalls,
      Statement.calls, Emitter.statement]
    split <;> exact (calls_term emitter value).symm
  | .call invocation => by
    simp only [visits, List.flatMap_singleton, map_writtenAt_callsAt, Statement.ownCalls,
      Statement.calls, Emitter.statement, Script.Stmt.calls, calls_callTerm]

theorem map_written_visitsAll (emitter : Emitter) : ∀ statements : List Statement,
    ((emitter.visitsAll statements).flatMap callsAt).map writtenAt =
      Script.Stmt.callsAll (emitter.statements statements).1
  | [] => rfl
  | statement :: rest => by
    simp only [visitsAll, List.flatMap_append, List.map_append,
      map_written_visits emitter statement, map_written_visitsAll _ rest, Emitter.statements,
      Script.Stmt.callsAll]

end

theorem map_written_callsMet (emitter : Emitter) (statements : List Statement) :
    (emitter.callsMet statements).map writtenAt =
      Script.Stmt.callsAll (emitter.statements statements).1 :=
  map_written_visitsAll emitter statements

mutual

theorem signatures_statement (emitter : Emitter) : ∀ statement : Statement,
    (emitter.statement statement).1.signatures = statement.signatures
  | .functionDeclaration name function parameters body => by
    simp only [Emitter.statement, Statement.signatures, Script.Stmt.signatures, List.map_map]
    rw [signaturesAll_statements _ body]
    rfl
  | .predictiveLoop _ _ _ _ body => by
    simp only [Emitter.statement, Statement.signatures, Script.Stmt.signatures]
    exact signaturesAll_statements _ body
  | .yieldValue value => by
    simp only [Emitter.statement, Statement.signatures]
    split <;> rfl
  | .comparison _ _ | .variableDeclaration _ _ | .variableReassignment _ _ | .print _
  | .returnValue _ | .call _ => rfl

theorem signaturesAll_statements (emitter : Emitter) : ∀ statements : List Statement,
    Script.Stmt.signaturesAll (emitter.statements statements).1 =
      Statement.signaturesAll statements
  | [] => rfl
  | statement :: rest => by
    simp only [Emitter.statements, Statement.signaturesAll, Script.Stmt.signaturesAll]
    rw [signatures_statement emitter statement, signaturesAll_statements _ rest]

end

end Emitter

/-! ### Calls and analysis -/

theorem Call.calls_eq (invocation : Call) :
    invocation.calls = invocation :: Expr.callsAll invocation.arguments := by
  obtain ⟨callee, arguments, ty?⟩ := invocation
  rw [Call.calls]

namespace Analysis

variable {source : Source} {context : Context}

/-- A call of a tree is accepted as that of a program. -/
def CallAccepted (source : Source) (context : Context) (call : Node × List Node)
    (invocation : Call) : Prop :=
  CallRule source context call.1 call.2 invocation

mutual

/-- The calls of an analysed expression are those of its node, each accepted where it stands. -/
theorem calls_of_expression (node : Node) {value : Expr}
    (h : valueOf source context node = .ok value) :
    List.Forall₂ (CallAccepted source context) node.calls value.calls := by
  cases rule_of_valueOf h with
  | @call _ name arguments invocation hcall =>
    have haccepted : CallAccepted source context (name, arguments) invocation := hcall
    simp only [Node.calls, Expr.calls, Call.calls_eq]
    exact .cons haccepted (calls_of_valuesOf arguments hcall.valuesOf_eq)
  | @binary _ left _ right _ _ _ hleft hright _ =>
    simp only [Node.calls, Expr.calls]
    exact List.rel_append (calls_of_expression left hleft) (calls_of_expression right hright)
  | @parenthesized _ inner _ hinner =>
    simp only [Node.calls]
    exact calls_of_expression inner hinner
  | number | string | truth | falsity | reference | functionReference =>
    simp only [Node.calls, Expr.calls]
    exact .nil
termination_by sizeOf node

theorem calls_of_valuesOf : ∀ (nodes : List Node) {values : List Expr},
    valuesOf source context nodes = .ok values →
      List.Forall₂ (CallAccepted source context) (Node.callsAll nodes) (Expr.callsAll values)
  | [], _, h => by
    rw [valuesOf_nil] at h
    obtain rfl := Except.ok.inj h
    exact .nil
  | node :: rest, _, h => by
    rw [valuesOf_cons] at h
    obtain ⟨first, hfirst, h⟩ := exists_of_bind_eq_ok h
    obtain ⟨others, hothers, h⟩ := exists_of_bind_eq_ok h
    obtain rfl := Except.ok.inj h
    have hle := node.sizeOf_argumentValue_le
    have hcalls := calls_of_expression node.argumentValue hfirst
    rw [Node.calls_argumentValue] at hcalls
    simp only [Node.callsAll, Expr.callsAll]
    exact List.rel_append hcalls (calls_of_valuesOf rest hothers)
termination_by nodes => sizeOf nodes

end

theorem calls_of_parameters : ∀ (nodes : List Node) {parameters : List Parameter},
    nodes.mapM (parameterOf source context) = .ok parameters →
      List.Forall₂ (CallAccepted source context) (Node.callsAll nodes)
        (Parameter.callsAll parameters)
  | [], _, h => by
    rw [List.mapM_nil] at h
    obtain rfl := Except.ok.inj h
    exact .nil
  | node :: rest, _, h => by
    rw [List.mapM_cons] at h
    obtain ⟨first, hfirst, h⟩ := exists_of_bind_eq_ok h
    obtain ⟨others, hothers, h⟩ := exists_of_bind_eq_ok h
    obtain rfl := Except.ok.inj h
    have hrest := calls_of_parameters rest hothers
    rw [Node.callsAll, Parameter.callsAll, List.flatMap_cons]
    refine List.rel_append ?_ hrest
    cases rule_of_parameterOf hfirst with
    | required =>
      simp only [Node.calls]
      exact .nil
    | defaulted hdefault =>
      simp only [Node.calls]
      exact calls_of_expression _ hdefault

/-! ### Calls where they are met -/

/-- The calls of a node that is met, with the scopes that it is met in. -/
def callsAt (met : Analyzer × Node) : List (Context × (Node × List Node)) :=
  met.2.ownCalls.map (Prod.mk met.1.context)

/-- The calls of statements, each with the scopes in which the analysis meets the statement it
stands in. -/
def callsMet (source : Source) (analyzer : Analyzer) (nodes : List Node) :
    List (Context × (Node × List Node)) :=
  (visitsAll source analyzer nodes).flatMap callsAt

theorem map_snd_callsAt (met : Analyzer × Node) : (callsAt met).map Prod.snd = met.2.ownCalls := by
  rw [callsAt, List.map_map]
  exact List.map_id _

/-- The analysis comes to all calls of the statement. -/
def MeetsCalls (source : Source) (before : Analyzer) (node : Node) (_ : Statement)
    (_ : Analyzer) : Prop :=
  ((visits source before node).flatMap callsAt).map Prod.snd = node.calls

theorem meetsCalls_of_sequence {analyzer last : Analyzer} {nodes : List Node}
    {results : List Statement}
    (h : Sequence source (MeetsCalls source) analyzer nodes results last) :
    (callsMet source analyzer nodes).map Prod.snd = Node.callsAll nodes := by
  unfold callsMet
  induction h with
  | nil => rfl
  | cons hfirst hmotive _ ih =>
    simp only [visitsAll, hfirst, List.flatMap_append, List.map_append, Node.callsAll]
    rw [hmotive, ih]

theorem hereditary_meetsCalls : Hereditary source (MeetsCalls source) := by
  intro analyzer next node result hrule ih
  unfold MeetsCalls
  cases hrule with
  | functionDefinition hname hparameters hbody =>
    simp only [visits, parameters_eq, hparameters, Except.map, List.flatMap_cons, List.map_append,
      map_snd_callsAt, Node.calls]
    exact congrArg (_ ++ ·) (meetsCalls_of_sequence (ih hbody))
  | predictiveLoop hname hlow hhigh hlowTy hhighTy hbody =>
    simp only [visits, List.flatMap_cons, List.map_append, map_snd_callsAt, Node.calls]
    exact congrArg (_ ++ ·) (meetsCalls_of_sequence (ih hbody))
  | _ =>
    simp only [visits, List.flatMap_singleton, map_snd_callsAt, Node.ownCalls]

theorem map_snd_callsMet {analyzer last : Analyzer} {nodes : List Node} {results : List Statement}
    (h : statements source analyzer nodes = .ok (results, last)) :
    (callsMet source analyzer nodes).map Prod.snd = Node.callsAll nodes :=
  meetsCalls_of_sequence (hereditary_meetsCalls.statements nodes h)

/-! ### Called functions -/

/-- The call is accepted in the scopes it is met in as the one that the emitter meets, which is of a
function with one of the signatures. -/
structure CallKnown (source : Source) (signatures : List (String × List String))
    (analysed : Context × (Node × List Node)) (met : Emitter × Call) : Prop where
  accepted : CallAccepted source analysed.1 analysed.2 met.2
  known : ∃ target, met.2.callee = .function target ∧ target.signature ∈ signatures

/-- What is bound is no struct type, and a function that is bound has one of the signatures. -/
def Known (signatures : List (String × List String)) (_ : String) (entity : Entity) : Prop :=
  (∀ target, entity ≠ .type (.struct target)) ∧
    ∀ target, entity = .func target → target.signature ∈ signatures

variable {signatures : List (String × List String)}

theorem known_var (target : Variable) : Known signatures target.name (.var target) :=
  ⟨fun _ ↦ nofun, fun _ ↦ nofun⟩

theorem known_func {target : Func} (h : target.signature ∈ signatures) {name : String} :
    Known signatures name (.func target) := by
  refine ⟨fun _ ↦ nofun, fun other hother ↦ ?_⟩
  obtain rfl := Entity.func.inj hother
  exact h

theorem known_root : Frame.Each (Known signatures) [Frame.root] :=
  Frame.each_root fun _ htype ↦ ⟨Context.standardTypes_ne_struct htype, fun _ ↦ nofun⟩

theorem CallAccepted.known {call : Node × List Node} {invocation : Call}
    (hknown : Frame.Each (Known signatures) context.frames)
    (h : CallAccepted source context call invocation) (emitter : Emitter) :
    CallKnown source signatures (context, call) (emitter, invocation) := by
  refine ⟨h, ?_⟩
  cases h with
  | @function target _ hname _ _ _ => exact ⟨target, rfl, (each_lookup? hknown hname).2 target rfl⟩
  | @construct target _ hname _ => exact ((each_lookup? hknown hname).1 target rfl).elim

/-- The calls of one statement, all of them met in its scopes and by its emitter. -/
theorem known_of_accepted {analyzer : Analyzer} {node : Node} {result : Statement}
    (hknown : Frame.Each (Known signatures) analyzer.context.frames)
    (h : List.Forall₂ (CallAccepted source analyzer.context) node.ownCalls result.ownCalls)
    (emitter : Emitter) :
    List.Forall₂ (CallKnown source signatures) (callsAt (analyzer, node))
      (Emitter.callsAt (emitter, result)) := by
  rw [callsAt, Emitter.callsAt, List.forall₂_map_left_iff, List.forall₂_map_right_iff]
  exact h.imp fun _ _ haccepted ↦ haccepted.known hknown emitter

/-- The calls that the emitter meets in the statement are those that the analysis meets in its node,
once what is bound before it is known and what it declares. -/
def CallsKnown (source : Source) (signatures : List (String × List String)) (before : Analyzer)
    (node : Node) (result : Statement) (_ : Analyzer) : Prop :=
  Frame.Each (Known signatures) before.context.frames → result.signatures ⊆ signatures →
    ∀ emitter : Emitter, List.Forall₂ (CallKnown source signatures)
      ((visits source before node).flatMap callsAt)
      ((emitter.visits result).flatMap Emitter.callsAt)

/-- A function that is declared is among those that its statement declares. -/
theorem signature_mem_signatures {node : Node} {analyzer next : Analyzer} {result : Statement}
    (h : statement source analyzer node = .ok (result, next)) :
    ∀ name function parameters body, result = .functionDeclaration name function parameters body →
      function.signature ∈ result.signatures := by
  rintro name function parameters body rfl
  cases rule_of_statement h with
  | functionDefinition =>
    rw [Statement.signatures]
    exact List.mem_cons_self

theorem callsMet_of_sequence {analyzer last : Analyzer} {nodes : List Node}
    {results : List Statement}
    (h : Sequence source (CallsKnown source signatures) analyzer nodes results last)
    (hknown : Frame.Each (Known signatures) analyzer.context.frames)
    (hsignatures : Statement.signaturesAll results ⊆ signatures) (emitter : Emitter) :
    List.Forall₂ (CallKnown source signatures) (callsMet source analyzer nodes)
      (emitter.callsMet results) := by
  unfold callsMet Emitter.callsMet
  induction h generalizing emitter with
  | nil => exact .nil
  | @cons _ _ _ _ _ first _ hfirst hmotive _ ih =>
    rw [Statement.signaturesAll] at hsignatures
    obtain ⟨hfirstSignatures, hrestSignatures⟩ := List.append_subset.mp hsignatures
    have hdeclared : ∀ name function parameters body,
        first = .functionDeclaration name function parameters body →
          Known signatures function.name (.func function) := by
      intro name function parameters body hresult
      have hmem := signature_mem_signatures hfirst name function parameters body hresult
      exact known_func (hfirstSignatures hmem)
    simp only [visitsAll, hfirst, Emitter.visitsAll, List.flatMap_append]
    exact List.rel_append (hmotive hknown hfirstSignatures emitter)
      (ih (each_of_statement known_var hfirst hdeclared hknown) hrestSignatures _)

theorem hereditary_calls : Hereditary source (CallsKnown source signatures) := by
  intro analyzer next node result hrule ih hknown hsignatures emitter
  cases hrule with
  | functionDefinition hname hparameters hbody =>
    rw [Statement.signatures] at hsignatures
    obtain ⟨hfunction, hinner⟩ := List.cons_subset.mp hsignatures
    have hentered := each_enterFunction known_var (known_func hfunction) hknown
    simp only [visits, parameters_eq, hparameters, Except.map, Emitter.visits, List.flatMap_cons]
    exact List.rel_append (known_of_accepted hknown (calls_of_parameters _ hparameters) emitter)
      (callsMet_of_sequence (ih hbody) hentered hinner _)
  | predictiveLoop hname hlow hhigh _ _ hbody =>
    rw [Statement.signatures] at hsignatures
    have hbounds := List.rel_append (calls_of_expression _ hlow) (calls_of_expression _ hhigh)
    simp only [visits, Emitter.visits, List.flatMap_cons]
    exact List.rel_append (known_of_accepted hknown hbounds emitter)
      (callsMet_of_sequence (ih hbody) (each_enterLoop known_var _ _ hknown) hsignatures _)
  | comparison hleft hright =>
    simp only [visits, Emitter.visits, List.flatMap_singleton]
    refine known_of_accepted hknown ?_ emitter
    simp only [Node.ownCalls, Node.calls, Statement.ownCalls, Statement.calls]
    exact List.rel_append (calls_of_expression _ hleft) (calls_of_expression _ hright)
  | print hvalue | returnValue hvalue | yieldValue hvalue | variableDeclaration _ hvalue
  | rebinding _ hvalue | shadowing _ hvalue =>
    simp only [visits, Emitter.visits, List.flatMap_singleton]
    refine known_of_accepted hknown ?_ emitter
    simp only [Node.ownCalls, Node.calls, Statement.ownCalls, Statement.calls]
    exact calls_of_expression _ hvalue
  | @call _ name arguments invocation hcall =>
    have haccepted : CallAccepted source analyzer.context (name, arguments) invocation := hcall
    simp only [visits, Emitter.visits, List.flatMap_singleton]
    refine known_of_accepted hknown ?_ emitter
    simp only [Node.ownCalls, Node.calls, Statement.ownCalls, Statement.calls, Call.calls_eq]
    exact .cons haccepted (calls_of_valuesOf arguments hcall.valuesOf_eq)

end Analysis

/-! ### Calls of sources -/

/-- How a call of a source is compiled: in the scopes it is met in, it is accepted as a call of a
function that the script has, and the call that the emitter meets is that one, with its arguments
folded if `folded` asks for it. -/
def CompiledAs (source : Source) (folded : Bool) (script : List Script.Stmt)
    (analysed : Context × (Node × List Node)) (met : Emitter × Call) : Prop :=
  ∃ invocation, met.2 = (if folded then invocation.fold else invocation) ∧
    Analysis.CallKnown source (Script.Stmt.signaturesAll script) analysed (met.1, invocation)

/-- The calls that the analysis of a source meets and those that its emitter meets go in step. -/
theorem Source.calls_of_program {source : Source} {folded : Bool} {program : Program}
    (h : source.program folded = .ok program) :
    ∃ span nodes, source.tree = .ok (.program span nodes) ∧
      (Analysis.callsMet source .initial nodes).map Prod.snd = Node.callsAll nodes ∧
      List.Forall₂ (CompiledAs source folded program.script)
        (Analysis.callsMet source .initial nodes)
        (Emitter.initial.callsMet program.statements) := by
  obtain ⟨span, nodes, results, last, htree, hresults, hstatements⟩ := Source.exists_of_program h
  have hsignatures : Script.Stmt.signaturesAll program.script =
      Statement.signaturesAll results := by
    unfold Program.script
    rw [Emitter.signaturesAll_statements, hstatements]
    cases folded with
    | false => rfl
    | true => exact Statement.signaturesAll_foldAll results
  have hknown := Analysis.callsMet_of_sequence (Analysis.hereditary_calls.statements nodes hresults)
    Analysis.known_root (List.Subset.refl _) .initial
  rw [← hsignatures] at hknown
  refine ⟨span, nodes, htree, Analysis.map_snd_callsMet hresults, ?_⟩
  rw [hstatements]
  cases folded with
  | false => exact hknown.imp fun _ met hmet ↦ ⟨met.2, rfl, hmet⟩
  | true =>
    show List.Forall₂ _ _ (Emitter.initial.callsMet (Statement.foldedAll results))
    rw [Emitter.callsMet_foldAll, List.forall₂_map_right_iff]
    exact hknown.imp fun _ met hmet ↦ ⟨met.2, rfl, hmet⟩

end Presage
