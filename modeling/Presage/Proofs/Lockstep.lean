import Mathlib.Data.List.Forall2
import Presage.Proofs.NewNames

/-!
The scopes of an analysis beside the blocks of its script. `Analysis.visitsAll` lists the nodes of
statements that an analysis comes to, with the state it meets each of them in, and
`Emitter.visitsAll` does the same for the statements that an emitter comes to. `Emitter.InStep` says
that the open blocks bind, block by block, exactly the names that the open scopes bind to values.

One step keeps the two stacks in step (`InStep.statement`), and so does opening a block
(`InStep.enterFunction`, `InStep.enterLoop`), so every statement is met in states that are in step
(`metTogether_of_sequence`). A reassigned variable therefore finds the name of its binding in the
innermost block (`MetTogether.rebindsInPlace`), and in a script every assignment is to a name that
its own block binds before it (`Statement.allAssignBound`). `source_scopes_in_step` is the result
for the program of a source.
-/

set_option autoImplicit false
set_option relaxedAutoImplicit false

namespace Presage

/-! ### Statements in the order in which they are met -/

mutual

/-- The statement, and then those inside of it. -/
def Statement.preorder : Statement → List Statement
  | .functionDeclaration name function parameters body =>
    .functionDeclaration name function parameters body :: Statement.preorderAll body
  | .predictiveLoop iterator low high pattern body =>
    .predictiveLoop iterator low high pattern body :: Statement.preorderAll body
  | statement => [statement]

def Statement.preorderAll : List Statement → List Statement
  | [] => []
  | first :: rest => Statement.preorder first ++ Statement.preorderAll rest

end

namespace Script

mutual

/-- The statement of a script, and then those inside of it. -/
def Stmt.preorder : Stmt → List Stmt
  | .function generator name parameters body =>
    .function generator name parameters body :: Stmt.preorderAll body
  | .loop pattern iterator low high body =>
    .loop pattern iterator low high body :: Stmt.preorderAll body
  | statement => [statement]

def Stmt.preorderAll : List Stmt → List Stmt
  | [] => []
  | first :: rest => Stmt.preorder first ++ Stmt.preorderAll rest

end

end Script

namespace Analysis

mutual

/-- The nodes that the analysis of a statement comes to, its own first, each with the state that it
is met in. What stands after a failure is not met. -/
def visits (source : Source) (analyzer : Analyzer) : Node → List (Analyzer × Node)
  | .functionDefinition span name nodes body =>
    (analyzer, .functionDefinition span name nodes body) ::
      match parameters source analyzer nodes with
      | .ok (parameters, prepared) =>
        let (function, declared) := prepared.declareFunction (name.text source) parameters none
        visitsAll source (declared.enterFunction function) body
      | .error _ => []
  | .predictiveLoop span name low high pattern body =>
    (analyzer, .predictiveLoop span name low high pattern body) ::
      visitsAll source (analyzer.enterLoop.declareVariable (name.text source) (some .int)).2 body
  | node => [(analyzer, node)]

/-- Statements in turn, each in the state that the one before it leaves. -/
def visitsAll (source : Source) (analyzer : Analyzer) : List Node → List (Analyzer × Node)
  | [] => []
  | node :: rest =>
    visits source analyzer node ++
      match statement source analyzer node with
      | .ok (_, next) => visitsAll source next rest
      | .error _ => []

end

end Analysis

/-- Folding keeps the names of parameters. -/
theorem Parameter.map_name_fold (parameters : List Parameter) :
    (parameters.map Parameter.fold).map Parameter.name = parameters.map Parameter.name := by
  rw [List.map_map]
  rfl

namespace Emitter

mutual

/-- The statements that an emitter comes to in a statement, itself first, each with the state that
it is met in. -/
def visits (emitter : Emitter) : Statement → List (Emitter × Statement)
  | .functionDeclaration name function parameters body =>
    (emitter, .functionDeclaration name function parameters body) ::
      visitsAll ((emitter.bind name).enterFunction parameters) body
  | .predictiveLoop iterator low high pattern body =>
    (emitter, .predictiveLoop iterator low high pattern body) ::
      visitsAll (emitter.openBlock.declare iterator).2 body
  | statement => [(emitter, statement)]

def visitsAll (emitter : Emitter) : List Statement → List (Emitter × Statement)
  | [] => []
  | first :: rest => visits emitter first ++ visitsAll (emitter.statement first).2 rest

end

mutual

/-- An emitter comes to every statement, in the order of the program. -/
theorem map_snd_visits (emitter : Emitter) : ∀ statement : Statement,
    (emitter.visits statement).map Prod.snd = statement.preorder
  | .functionDeclaration _ _ _ body => congrArg (_ :: ·) (map_snd_visitsAll _ body)
  | .predictiveLoop _ _ _ _ body => congrArg (_ :: ·) (map_snd_visitsAll _ body)
  | .variableDeclaration _ _ => rfl
  | .variableReassignment _ _ => rfl
  | .comparison _ _ => rfl
  | .print _ => rfl
  | .returnValue _ => rfl
  | .yieldValue _ => rfl
  | .call _ => rfl

theorem map_snd_visitsAll (emitter : Emitter) : ∀ statements : List Statement,
    (emitter.visitsAll statements).map Prod.snd = Statement.preorderAll statements
  | [] => rfl
  | first :: rest => by
    rw [visitsAll, List.map_append, map_snd_visits emitter first, map_snd_visitsAll _ rest]
    rfl

end

/-- What the statement of a visit is written as. -/
def lineOf (met : Emitter × Statement) : Script.Stmt := (met.1.statement met.2).1

mutual

/-- The statements of a script are those that are written where they are met. -/
theorem map_lineOf_visits (emitter : Emitter) : ∀ statement : Statement,
    (emitter.visits statement).map lineOf = (emitter.statement statement).1.preorder
  | .functionDeclaration _ _ _ body => congrArg (_ :: ·) (map_lineOf_visitsAll _ body)
  | .predictiveLoop _ _ _ _ body => congrArg (_ :: ·) (map_lineOf_visitsAll _ body)
  | .variableDeclaration _ _ => rfl
  | .variableReassignment _ _ => rfl
  | .comparison _ _ => rfl
  | .print _ => rfl
  | .returnValue _ => rfl
  | .yieldValue value => by
    show [(emitter.statement (.yieldValue value)).1] = _
    simp only [statement]
    split <;> rfl
  | .call _ => rfl

theorem map_lineOf_visitsAll (emitter : Emitter) : ∀ statements : List Statement,
    (emitter.visitsAll statements).map lineOf =
      Script.Stmt.preorderAll (emitter.statements statements).1
  | [] => rfl
  | first :: rest => by
    rw [visitsAll, List.map_append, map_lineOf_visits emitter first,
      map_lineOf_visitsAll _ rest]
    rfl

end

mutual

/-- Names are chosen for variables and not for their values, so folding a statement changes nothing
in the state that it leaves. -/
theorem state_fold (emitter : Emitter) : ∀ statement : Statement,
    (emitter.statement statement.folded).2 = (emitter.statement statement).2
  | .functionDeclaration name function parameters body => by
    simp only [Statement.folded, statement,
      enterFunction_congr _ (Parameter.map_name_fold parameters), state_foldAll _ body]
  | .predictiveLoop iterator _ _ _ body => by
    simp only [Statement.folded, statement, state_foldAll _ body]
  | .variableDeclaration _ _ => rfl
  | .variableReassignment _ _ => rfl
  | .comparison _ _ => rfl
  | .print _ => rfl
  | .returnValue _ => rfl
  | .yieldValue _ => rfl
  | .call _ => rfl

theorem state_foldAll (emitter : Emitter) : ∀ statements : List Statement,
    (emitter.statements (Statement.foldedAll statements)).2 = (emitter.statements statements).2
  | [] => rfl
  | first :: rest => by
    simp only [Statement.foldedAll, statements, state_fold emitter first, state_foldAll _ rest]

end

mutual

/-- The statements of a folded program are met in the states in which those of the program are. -/
theorem visits_fold (emitter : Emitter) : ∀ statement : Statement,
    emitter.visits statement.folded = (emitter.visits statement).map (Prod.map id Statement.folded)
  | .functionDeclaration name function parameters body => by
    simp only [Statement.folded, visits,
      enterFunction_congr _ (Parameter.map_name_fold parameters), visitsAll_foldAll _ body,
      List.map_cons, Prod.map_apply, id_eq]
  | .predictiveLoop iterator _ _ _ body => by
    simp only [Statement.folded, visits, visitsAll_foldAll _ body, List.map_cons, Prod.map_apply,
      id_eq]
  | .variableDeclaration _ _ => rfl
  | .variableReassignment _ _ => rfl
  | .comparison _ _ => rfl
  | .print _ => rfl
  | .returnValue _ => rfl
  | .yieldValue _ => rfl
  | .call _ => rfl

theorem visitsAll_foldAll (emitter : Emitter) : ∀ statements : List Statement,
    emitter.visitsAll (Statement.foldedAll statements) =
      (emitter.visitsAll statements).map (Prod.map id Statement.folded)
  | [] => rfl
  | first :: rest => by
    simp only [Statement.foldedAll, visitsAll, state_fold emitter first, visits_fold emitter first,
      visitsAll_foldAll _ rest, List.map_append]

end

end Emitter

/-! ### Blocks in step with scopes -/

/-- The block of a function's body binds what the frame of the body binds, as the declaration and
the function have the same names of parameters. -/
theorem Emitter.mirrors_enterFunction (emitter : Emitter) {parameters others : List Parameter}
    (h : parameters.map Parameter.name = others.map Parameter.name) (next : Nat) :
    (emitter.enterFunction parameters).block.Mirrors
      (Frame.withParameters .empty next others) := by
  have hbind : ∀ (parameters : List Parameter) (state : Emitter) (frame : Frame) (next : Nat),
      state.block.Mirrors frame →
        (parameters.foldl (fun state parameter ↦ state.bind parameter.name) state).block.Mirrors
          (frame.withParameters next parameters) := by
    intro parameters
    induction parameters with
    | nil => exact fun state frame next h ↦ h
    | cons parameter rest ih =>
      intro state frame next h
      exact ih (state.bind parameter.name) _ (next + 1) (h.insert _ _ trivial)
  rw [enterFunction_congr emitter h]
  refine hbind others emitter.openBlock .empty next (.empty_of_not_bindsValue fun name ↦ ?_)
  exact Analysis.not_bindsValue_of_unbound (Bindings.get?_empty name)

/-- The block of a loop's body binds its iterator. -/
theorem Emitter.mirrors_openBlock_declare (emitter : Emitter) (iterator : Variable) :
    (emitter.openBlock.declare iterator).2.block.Mirrors
      (Bindings.empty.insert iterator.name (.var iterator)) := by
  refine Bindings.Mirrors.insert (.empty_of_not_bindsValue fun name ↦ ?_) _ _ trivial
  exact Analysis.not_bindsValue_of_unbound (Bindings.get?_empty name)

/-- The open blocks bind, block by block from the inside out, exactly the names that the open scopes
bind to variables and functions. -/
def Emitter.InStep (emitter : Emitter) (context : Context) : Prop :=
  List.Forall₂ Bindings.Mirrors (emitter.block :: emitter.outer) context.frames

namespace Emitter.InStep

variable {source : Source} {emitter : Emitter} {analyzer : Analyzer}

theorem initial : Emitter.initial.InStep Analyzer.initial.context :=
  .cons (.empty_of_not_bindsValue Frame.not_bindsValue_root) .nil

/-- Meeting a statement, which may bind a name in the innermost block. -/
theorem statement (h : emitter.InStep analyzer.context)
    (hnamed : Frame.AllNamed analyzer.context.frames) {node : Node} {result : Statement}
    {next : Analyzer} (hresult : Analysis.statement source analyzer node = .ok (result, next)) :
    (emitter.statement result).2.InStep next.context := by
  have hscoped := Analysis.hereditary_scoped.statement node hresult hnamed
  obtain ⟨hblock, houter⟩ := List.forall₂_cons.mp h
  rw [Analysis.context_of_statement hresult]
  refine .cons (hblock.step hscoped) ?_
  rw [outer_statement]
  exact houter

/-- Entering the body of a function, which is bound around it. -/
theorem enterFunction (h : emitter.InStep analyzer.context) (name : String)
    (parameters : List Parameter) :
    ((emitter.bind name).enterFunction parameters).InStep
      ((analyzer.declareFunction name parameters none).2.enterFunction
        (analyzer.declareFunction name parameters none).1).context := by
  obtain ⟨hblock, houter⟩ := List.forall₂_cons.mp h
  refine .cons ?_ ?_
  · rw [Analyzer.locals_enterFunction]
    exact mirrors_enterFunction _ rfl _
  · rw [enterFunction_outer, Analyzer.outer_enterFunction]
    exact .cons (hblock.insert _ _ trivial) houter

/-- Entering the body of a loop, which binds the iterator. -/
theorem enterLoop (h : emitter.InStep analyzer.context) (name : String) (ty? : Option Ty) :
    (emitter.openBlock.declare (analyzer.enterLoop.declareVariable name ty?).1).2.InStep
      (analyzer.enterLoop.declareVariable name ty?).2.context :=
  .cons (mirrors_openBlock_declare emitter _) h

end Emitter.InStep

/-- The analysis makes the statement that the emitter meets, folded or not, of the node that it
meets, and the two meet them in states that are in step. -/
structure MetTogether (source : Source) (folded : Bool) (analysed : Analyzer × Node)
    (emitted : Emitter × Statement) : Prop where
  statement : ∃ result next,
    Analysis.statement source analysed.1 analysed.2 = .ok (result, next) ∧
      emitted.2 = if folded then result.folded else result
  inStep : emitted.1.InStep analysed.1.context

namespace Analysis

variable {source : Source}

/-- From states that are in step, the statement and those inside of it are met in step. -/
def MeetsInStep (source : Source) (before : Analyzer) (node : Node) (result : Statement)
    (after : Analyzer) : Prop :=
  statement source before node = .ok (result, after) → Frame.AllNamed before.context.frames →
    ∀ emitter : Emitter, emitter.InStep before.context →
      List.Forall₂ (MetTogether source false) (visits source before node) (emitter.visits result)

theorem metTogether_of_sequence {analyzer last : Analyzer} {nodes : List Node}
    {results : List Statement}
    (h : Sequence source (MeetsInStep source) analyzer nodes results last)
    (hnamed : Frame.AllNamed analyzer.context.frames) {emitter : Emitter}
    (hstep : emitter.InStep analyzer.context) :
    List.Forall₂ (MetTogether source false) (visitsAll source analyzer nodes)
      (emitter.visitsAll results) := by
  induction h generalizing emitter with
  | nil => exact .nil
  | cons hfirst hmotive _ ih =>
    have hrest := ih (each_of_statement (fun _ ↦ rfl) hfirst (fun _ _ _ _ _ ↦ rfl) hnamed)
      (hstep.statement hnamed hfirst)
    simp only [visitsAll, hfirst, Emitter.visitsAll]
    exact List.rel_append (hmotive hfirst hnamed emitter hstep) hrest

/-- The statements of a body are met in step because the body is entered in step. -/
theorem hereditary_meetsInStep : Hereditary source (MeetsInStep source) := by
  intro analyzer next node result hrule ih hresult hnamed emitter hstep
  have hmet : MetTogether source false (analyzer, node) (emitter, result) :=
    ⟨⟨result, next, hresult, rfl⟩, hstep⟩
  cases hrule with
  | functionDefinition hname hparameters hbody =>
    simp only [visits, parameters_eq, hparameters, Except.map, Emitter.visits]
    exact .cons hmet (metTogether_of_sequence (ih hbody)
      (each_enterFunction (fun _ ↦ rfl) rfl hnamed) (hstep.enterFunction _ _))
  | predictiveLoop hname hlow hhigh hlowTy hhighTy hbody =>
    exact .cons hmet (metTogether_of_sequence (ih hbody)
      (each_enterLoop (fun _ ↦ rfl) _ _ hnamed) (hstep.enterLoop _ _))
  | _ => exact .cons hmet .nil

/-- All statements of a program are met in step, also when the emitter meets them folded. -/
theorem metTogether_of_program {folded : Bool} {program : Program}
    (h : source.program folded = .ok program) :
    ∃ span nodes, source.tree = .ok (.program span nodes) ∧
      List.Forall₂ (MetTogether source folded) (visitsAll source .initial nodes)
        (Emitter.initial.visitsAll program.statements) := by
  obtain ⟨span, nodes, results, last, htree, hresults, hstatements⟩ := Source.exists_of_program h
  have hmet := metTogether_of_sequence (hereditary_meetsInStep.statements nodes hresults)
    Frame.allNamed_root Emitter.InStep.initial
  refine ⟨span, nodes, htree, ?_⟩
  rw [hstatements]
  cases folded with
  | false => exact hmet
  | true =>
    show List.Forall₂ _ _ (Emitter.initial.visitsAll (Statement.foldedAll results))
    rw [Emitter.visitsAll_foldAll, List.forall₂_map_right_iff]
    refine hmet.imp fun analysed emitted htogether ↦ ?_
    obtain ⟨result, next, hresult, hemitted⟩ := htogether.statement
    exact ⟨⟨result, next, hresult, congrArg Statement.folded hemitted⟩, htogether.inStep⟩

end Analysis

/-! ### Reassigned variables -/

/-- A reassigned variable takes the name that the innermost block binds already, and nothing is
declared for it. -/
def Emitter.RebindsInPlace (emitter : Emitter) (statement : Statement) : Prop :=
  ∀ target value, statement = .variableReassignment target value →
    ∃ written, emitter.block.get? target.name = some written ∧
      emitter.statement statement = (.assign written (emitter.term value),
        { emitter with names := emitter.names.insert target.id written })

/-- What is analysed to a reassignment names a value of the innermost scope. -/
theorem Analysis.bindsValue_of_reassignment {source : Source} {analyzer next : Analyzer}
    {node : Node} {target : Variable} {value : Expr}
    (h : statement source analyzer node = .ok (.variableReassignment target value, next)) :
    Frame.BindsValue analyzer.context.current.locals target.name := by
  cases rule_of_statement h with
  | rebinding hname _ => exact bindsValue_of_rebinds hname

theorem MetTogether.rebindsInPlace {source : Source} {folded : Bool} {analysed : Analyzer × Node}
    {emitted : Emitter × Statement} (h : MetTogether source folded analysed emitted) :
    emitted.1.RebindsInPlace emitted.2 := by
  intro target value hemitted
  obtain ⟨result, next, hresult, hstatement⟩ := h.statement
  have horiginal : ∃ original, result = .variableReassignment target original := by
    rw [hemitted] at hstatement
    cases folded with
    | false => exact ⟨value, hstatement.symm⟩
    | true => cases result <;> cases hstatement; exact ⟨_, rfl⟩
  obtain ⟨original, rfl⟩ := horiginal
  obtain ⟨hblock, -⟩ := List.forall₂_cons.mp h.inStep
  obtain ⟨written, hwritten, hrebind⟩ :=
    hblock.rebind_eq (Analysis.bindsValue_of_reassignment hresult)
  refine ⟨written, hwritten, ?_⟩
  rw [hemitted]
  simp only [Emitter.statement, hrebind]

namespace Script

mutual

/-- Where the block of the statement binds the given names so far, an assignment is to one of them,
and so inside of the statement, where a body binds its parameters or its iterator at first. -/
def Stmt.AssignsBound (bound : List String) : Stmt → Prop
  | .assign name _ => name ∈ bound
  | .function _ _ parameters body => Stmt.AllAssignBound (parameters.map Parameter.name) body
  | .loop _ iterator _ _ body => Stmt.AllAssignBound [iterator] body
  | _ => True

/-- Statements of one block in turn. -/
def Stmt.AllAssignBound (bound : List String) : List Stmt → Prop
  | [] => True
  | first :: rest => Stmt.AssignsBound bound first ∧ Stmt.AllAssignBound (first.binds ++ bound) rest

end

end Script

/-- Binding a key adds its value at most. -/
theorem Bindings.values_insert_subset {κ α : Type} [BEq κ] (bindings : Bindings κ α) (key : κ)
    (value : α) : (bindings.insert key value).values ⊆ value :: bindings.values :=
  List.cons_subset_cons value (List.map_subset Prod.snd (List.filter_subset_self _))

namespace Emitter

/-- The block of a function's body holds the names of its parameters alone. -/
theorem values_enterFunction_subset (emitter : Emitter) (parameters : List Parameter) :
    (emitter.enterFunction parameters).block.values ⊆ parameters.map Parameter.name := by
  have hbind : ∀ (parameters : List Parameter) (state : Emitter),
      (parameters.foldl (fun state parameter ↦ state.bind parameter.name) state).block.values ⊆
        parameters.map Parameter.name ++ state.block.values := by
    intro parameters
    induction parameters with
    | nil => exact fun state ↦ List.Subset.refl _
    | cons parameter rest ih =>
      intro state
      have hinsert := Bindings.values_insert_subset state.block parameter.name parameter.name
      intro name hname
      rcases List.mem_append.mp (ih (state.bind parameter.name) hname) with hrest | hbound
      · exact List.mem_cons_of_mem _ (List.mem_append_left _ hrest)
      · exact (List.mem_cons.mp (hinsert hbound)).elim (fun heq ↦ heq ▸ List.mem_cons_self)
          fun hold ↦ List.mem_cons_of_mem _ (List.mem_append_right _ hold)
  have hopened := hbind parameters emitter.openBlock
  rwa [show emitter.openBlock.block.values = [] from rfl, List.append_nil] at hopened

/-- After a statement the block holds what it held and what the statement binds. -/
theorem values_statement_subset {emitter : Emitter} {frame : Frame}
    (h : emitter.block.Mirrors frame) {statement : Statement} {outer : List Frame}
    {next last : Nat} (hscoped : statement.Scoped frame outer next last) :
    (emitter.statement statement).2.block.values ⊆
      (emitter.statement statement).1.binds ++ emitter.block.values := by
  rw [block_statement]
  cases statement with
  | functionDeclaration name function parameters body => exact Bindings.values_insert_subset _ _ _
  | variableDeclaration target initializer => exact Bindings.values_insert_subset _ _ _
  | variableReassignment target value =>
    obtain ⟨written, -, hrebind⟩ := h.rebind_eq hscoped.1
    simp only [blockAfter, hrebind]
    exact List.subset_append_right _ _
  | _ => exact List.subset_append_right _ _

end Emitter

mutual

/-- In the script of a scoped statement, assignments are to names that their blocks bind. -/
theorem Statement.assignsBound : ∀ (statement : Statement) {emitter : Emitter} {next last : Nat}
    {frame : Frame} {outer : List Frame} {bound : List String}, emitter.block.Mirrors frame →
    emitter.block.values ⊆ bound → statement.Scoped frame outer next last →
      (emitter.statement statement).1.AssignsBound bound
  | .functionDeclaration name function parameters body, emitter, next, _, _, _, _, _, _,
      ⟨_, _, _, hnames, _, hbody⟩ => by
    have hmirrors := (emitter.bind name).mirrors_enterFunction hnames (next + 1)
    have hassigns := Statement.allAssignBound body hmirrors
      (Emitter.values_enterFunction_subset _ parameters) hbody
    have hwritten : (parameters.map emitter.parameter).map Script.Parameter.name =
        parameters.map Parameter.name := by
      rw [List.map_map]
      rfl
    simp only [Emitter.statement, Script.Stmt.AssignsBound, hwritten]
    exact hassigns
  | .predictiveLoop iterator _ _ _ body, emitter, _, _, _, _, _, _, _, ⟨_, _, _, _, hbody⟩ =>
    Statement.allAssignBound body (Emitter.mirrors_openBlock_declare emitter iterator)
      (Bindings.values_insert_subset _ _ _) hbody
  | .variableReassignment target _, _, _, _, _, _, _, hmirrors, hbound, hscoped => by
    obtain ⟨written, hwritten, hrebind⟩ := hmirrors.rebind_eq hscoped.1
    simp only [Emitter.statement, hrebind]
    exact hbound (Bindings.mem_values_of_get? hwritten)
  | .variableDeclaration _ _, _, _, _, _, _, _, _, _, _ => trivial
  | .comparison _ _, _, _, _, _, _, _, _, _, _ => trivial
  | .print _, _, _, _, _, _, _, _, _, _ => trivial
  | .returnValue _, _, _, _, _, _, _, _, _, _ => trivial
  | .yieldValue _, _, _, _, _, _, _, _, _, _ => by
    simp only [Emitter.statement]
    split <;> trivial
  | .call _, _, _, _, _, _, _, _, _, _ => trivial

theorem Statement.allAssignBound : ∀ (statements : List Statement) {emitter : Emitter}
    {next last : Nat} {frame : Frame} {outer : List Frame} {bound : List String},
    emitter.block.Mirrors frame → emitter.block.values ⊆ bound →
    Statement.AllScoped frame outer next last statements →
      Script.Stmt.AllAssignBound bound (emitter.statements statements).1
  | [], _, _, _, _, _, _, _, _, _ => trivial
  | first :: rest, _, _, _, _, _, bound, hmirrors, hbound, ⟨_, hfirst, hrest⟩ => by
    refine ⟨Statement.assignsBound first hmirrors hbound hfirst,
      Statement.allAssignBound rest (hmirrors.step hfirst) (fun name hname ↦ ?_) hrest⟩
    have hafter := Emitter.values_statement_subset hmirrors hfirst hname
    exact List.mem_append.mpr ((List.mem_append.mp hafter).imp_right fun hold ↦ hbound hold)

end

/-! ### Programs of sources -/

/-- The statements of an accepted source are met by the emitter in the order of the program and of
its script, each in blocks that bind exactly the names that the scopes bound to values when it was
analysed. So every reassigned variable is assigned to under a name that its own block binds before,
and none is declared in place of being rebound. -/
theorem source_scopes_in_step {source : Source} {folded : Bool} {program : Program}
    (h : source.program folded = .ok program) :
    (∃ span nodes, source.tree = .ok (.program span nodes) ∧
      List.Forall₂ (MetTogether source folded) (Analysis.visitsAll source .initial nodes)
        (Emitter.initial.visitsAll program.statements)) ∧
      (Emitter.initial.visitsAll program.statements).map Prod.snd =
        Statement.preorderAll program.statements ∧
      (Emitter.initial.visitsAll program.statements).map Emitter.lineOf =
        Script.Stmt.preorderAll program.script ∧
      (∀ met ∈ Emitter.initial.visitsAll program.statements, met.1.RebindsInPlace met.2) ∧
      Script.Stmt.AllAssignBound [] program.script := by
  obtain ⟨span, nodes, htree, hmet⟩ := Analysis.metTogether_of_program h
  obtain ⟨last, hscoped⟩ := Source.scoped_of_program h
  refine ⟨⟨span, nodes, htree, hmet⟩, Emitter.map_snd_visitsAll _ _,
    Emitter.map_lineOf_visitsAll _ _, ?_, ?_⟩
  · have hrebinds := hmet.flip.imp fun _ _ htogether ↦ And.intro htogether.rebindsInPlace htogether
    exact ((List.forall₂_and_left _ _).mp hrebinds).1
  · exact Statement.allAssignBound program.statements
      (.empty_of_not_bindsValue Frame.not_bindsValue_root) (List.Subset.refl _) hscoped

/-- The theorem at a source with a loop in a function: the parameter and the iterator are reassigned
in their own blocks, and the loop has a variable of its own in place of that of the function. -/
theorem source_scopes_in_step_nested :
    ∃ source, source = Source.ofText ""
        ("define f(n) then\n  let m = n\n  n = m + 1\n" ++
          "  for i in predictive_range(0, 3, prime) \x7b\n    i = i + 1\n    m = i\n    m = 2\n" ++
          "  \x7d\n  return n") ∧
      ∃ program, source.program true = .ok program ∧
        (∃ span nodes, source.tree = .ok (.program span nodes) ∧
          List.Forall₂ (MetTogether source true) (Analysis.visitsAll source .initial nodes)
            (Emitter.initial.visitsAll program.statements)) ∧
        (Emitter.initial.visitsAll program.statements).map Prod.snd =
          Statement.preorderAll program.statements ∧
        (Emitter.initial.visitsAll program.statements).map Emitter.lineOf =
          Script.Stmt.preorderAll program.script ∧
        (∀ met ∈ Emitter.initial.visitsAll program.statements, met.1.RebindsInPlace met.2) ∧
        Script.Stmt.AllAssignBound [] program.script :=
  ⟨_, rfl, Exists.imp (fun _ hprogram ↦ ⟨hprogram, source_scopes_in_step hprogram⟩)
    (exists_of_isOk (by decide +kernel))⟩

end Presage
