import Presage.Proofs.Scoping

/-!
Names and identities along the walk of a tree. `Walk` goes through a tree and its program side by
side, with the stack of open frames, and lists the identities that are introduced in the order in
which they are. It keeps apart what a program alone does not show: a variable that is declared by
`let` and one that is declared because it was given a value where its name had none.

Identities are handed out by counting, so a walk from a state to a later one introduces those in
between (`hereditary_walk`). `program_walk` is the result for the program of a source: it is walked
from the outermost frame, and no identity is introduced twice.
-/

set_option autoImplicit false
set_option relaxedAutoImplicit false

namespace Presage

/-! ### The walk -/

/-- The frame of the given variables, where the last one of a name counts. -/
def Frame.ofVariables (targets : List Variable) : Frame :=
  targets.foldl (fun frame target ↦ frame.insert target.name (.var target)) .empty

mutual

/-- A statement and the node it was made from, met in a frame with others around it, with the
identities that they introduce. Every use holds the entity that its own name means there. A function
is bound before its body and after its defaults, and its body has a frame with one variable for each
parameter; the body of a loop has a frame with the iterator. -/
inductive Walk (source : Source) :
    Frame → List Frame → Node → Statement → List Nat → Prop
  | functionDefinition {frame : Frame} {outer : List Frame} {span : Span} {name : Node}
      {nodes bodyNodes : List Node} {function : Func} {parameters : List Parameter}
      {targets : List Variable} {body : List Statement} {inside : List Nat}
      (hname : function.name = name.text source) (hunbound : frame.get? function.name = none)
      (hdefaults : ∀ parameter ∈ parameters, ∀ default ∈ parameter.default?,
        default.FoundIn (frame :: outer))
      (hnames : targets.map Variable.name = parameters.map Parameter.name)
      (htys : targets.map Variable.ty? = parameters.map Parameter.ty?)
      (hbody : WalkAll source (Frame.ofVariables targets)
        (frame.insert function.name (.func function) :: outer) bodyNodes body inside) :
      Walk source frame outer (.functionDefinition span name nodes bodyNodes)
        (.functionDeclaration (name.text source) function parameters body)
        (function.id :: (targets.map Variable.id ++ inside))
  | predictiveLoop {frame : Frame} {outer : List Frame} {span : Span}
      {name lowNode highNode patternNode : Node} {bodyNodes : List Node} {iterator : Variable}
      {low high : Expr} {pattern : String} {body : List Statement} {inside : List Nat}
      (hname : iterator.name = name.text source) (hunbound : frame.get? iterator.name = none)
      (hlow : low.FoundIn (frame :: outer)) (hhigh : high.FoundIn (frame :: outer))
      (hbody : WalkAll source (Frame.ofVariables [iterator]) (frame :: outer) bodyNodes body
        inside) :
      Walk source frame outer (.predictiveLoop span name lowNode highNode patternNode bodyNodes)
        (.predictiveLoop iterator low high pattern body) (iterator.id :: inside)
  | declaration {frame : Frame} {outer : List Frame} {span : Span} {name node : Node}
      {target : Variable} {value : Expr} (hname : target.name = name.text source)
      (hunbound : frame.get? target.name = none) (hvalue : value.FoundIn (frame :: outer)) :
      Walk source frame outer (.variableDeclaration span name node)
        (.variableDeclaration target value) [target.id]
  | reassignment {frame : Frame} {outer : List Frame} {span : Span} {name node : Node}
      {target : Variable} {value : Expr} (hname : target.name = name.text source)
      (hbound : frame.BindsValue target.name) (hvalue : value.FoundIn (frame :: outer)) :
      Walk source frame outer (.variableReassignment span name node)
        (.variableReassignment target value) [target.id]
  | firstAssignment {frame : Frame} {outer : List Frame} {span : Span} {name node : Node}
      {target : Variable} {value : Expr} (hname : target.name = name.text source)
      (hbound : ¬ frame.BindsValue target.name) (hvalue : value.FoundIn (frame :: outer)) :
      Walk source frame outer (.variableReassignment span name node)
        (.variableDeclaration target value) [target.id]
  | comparison {frame : Frame} {outer : List Frame} {span : Span} {leftNode rightNode : Node}
      {left right : Expr} (hleft : left.FoundIn (frame :: outer))
      (hright : right.FoundIn (frame :: outer)) :
      Walk source frame outer (.comparisonStatement span leftNode rightNode)
        (.comparison left right) []
  | print {frame : Frame} {outer : List Frame} {span : Span} {node : Node} {value : Expr}
      (hvalue : value.FoundIn (frame :: outer)) :
      Walk source frame outer (.printStatement span node) (.print value) []
  | returnValue {frame : Frame} {outer : List Frame} {span : Span} {node : Node} {value : Expr}
      (hvalue : value.FoundIn (frame :: outer)) :
      Walk source frame outer (.returnStatement span node) (.returnValue value) []
  | yieldValue {frame : Frame} {outer : List Frame} {span : Span} {node : Node} {value : Expr}
      (hvalue : value.FoundIn (frame :: outer)) :
      Walk source frame outer (.yieldStatement span node) (.yieldValue value) []
  | call {frame : Frame} {outer : List Frame} {span : Span} {name : Node} {arguments : List Node}
      {invocation : Call} (hcall : invocation.FoundIn (frame :: outer)) :
      Walk source frame outer (.call span name arguments) (.call invocation) []

/-- Statements in turn. Each one binds in the frame of those after it. -/
inductive WalkAll (source : Source) :
    Frame → List Frame → List Node → List Statement → List Nat → Prop
  | nil {frame : Frame} {outer : List Frame} : WalkAll source frame outer [] [] []
  | cons {frame : Frame} {outer : List Frame} {node : Node} {nodes : List Node}
      {first : Statement} {others : List Statement} {introduced later : List Nat}
      (hfirst : Walk source frame outer node first introduced)
      (hothers : WalkAll source (frame.after first) outer nodes others later) :
      WalkAll source frame outer (node :: nodes) (first :: others) (introduced ++ later)

end

/-! ### The variables of parameters -/

namespace Parameter

/-- One variable for each parameter, with identities from `next` on. -/
def targets (next : Nat) : List Parameter → List Variable
  | [] => []
  | parameter :: rest => ⟨next, parameter.name, parameter.ty?⟩ :: targets (next + 1) rest

theorem map_name_targets (next : Nat) (parameters : List Parameter) :
    (targets next parameters).map Variable.name = parameters.map Parameter.name := by
  induction parameters generalizing next with
  | nil => rfl
  | cons parameter rest ih => rw [targets, List.map_cons, List.map_cons, ih]

theorem map_ty?_targets (next : Nat) (parameters : List Parameter) :
    (targets next parameters).map Variable.ty? = parameters.map Parameter.ty? := by
  induction parameters generalizing next with
  | nil => rfl
  | cons parameter rest ih => rw [targets, List.map_cons, List.map_cons, ih]

theorem map_id_targets (next : Nat) (parameters : List Parameter) :
    (targets next parameters).map Variable.id = List.range' next parameters.length := by
  induction parameters generalizing next with
  | nil => rfl
  | cons parameter rest ih => rw [targets, List.map_cons, ih, List.length_cons, List.range'_succ]

/-- The frame that an analysis gives to a function's body is that of the variables. -/
theorem ofVariables_targets (next : Nat) (parameters : List Parameter) :
    Frame.ofVariables (targets next parameters) =
      Frame.withParameters .empty next parameters := by
  unfold Frame.ofVariables
  generalize (Bindings.empty : Frame) = frame
  induction parameters generalizing frame next with
  | nil => rfl
  | cons parameter rest ih => exact ih (next + 1) _

end Parameter

/-! ### Analysed statements are walked -/

namespace Analysis

variable {source : Source}

/-- The statement is walked in the frames of the analyzer before it, and introduces the identities
up to those of the analyzer after it. -/
def WalkedFrom (source : Source) (before : Analyzer) (node : Node) (result : Statement)
    (after : Analyzer) : Prop :=
  Frame.AllNamed before.context.frames →
    ∃ count, after.nextId = before.nextId + count ∧
      Walk source before.context.current.locals (before.context.outer.map Scope.locals) node result
        (List.range' before.nextId count)

theorem walkAll_of_sequence {analyzer last : Analyzer} {nodes : List Node}
    {results : List Statement} (h : Sequence source (WalkedFrom source) analyzer nodes results last)
    (hnamed : Frame.AllNamed analyzer.context.frames) :
    ∃ count, last.nextId = analyzer.nextId + count ∧
      WalkAll source analyzer.context.current.locals (analyzer.context.outer.map Scope.locals)
        nodes results (List.range' analyzer.nextId count) := by
  induction h with
  | nil => exact ⟨0, rfl, .nil⟩
  | @cons analyzer middle last _ _ _ _ hfirst hmotive _ ih =>
    obtain ⟨count, hmiddle, hwalk⟩ := hmotive hnamed
    obtain ⟨later, hlast, hothers⟩ :=
      ih (each_of_statement (fun _ ↦ rfl) hfirst (fun _ _ _ _ _ ↦ rfl) hnamed)
    refine ⟨count + later, by omega, ?_⟩
    rw [context_of_statement hfirst, hmiddle] at hothers
    rw [← List.range'_append_1]
    exact .cons hwalk hothers

/-- Analysed statements are walked side by side with their nodes. -/
theorem hereditary_walk : Hereditary source (WalkedFrom source) := by
  intro analyzer next node result hrule ih hnamed
  cases hrule with
  | @functionDefinition _ name _ _ parameters _ finished hname hparameters hbody =>
    obtain ⟨count, hcount, hwalk⟩ :=
      walkAll_of_sequence (ih hbody) (each_enterFunction (fun _ ↦ rfl) rfl hnamed)
    rw [Analyzer.nextId_enterFunction] at hcount
    rw [Analyzer.locals_enterFunction, Analyzer.outer_enterFunction, Analyzer.nextId_enterFunction,
      ← Parameter.ofVariables_targets] at hwalk
    have hnext : finished.leave.nextId = analyzer.nextId + (parameters.length + count + 1) := by
      rw [Analyzer.leave, hcount]
      omega
    refine ⟨parameters.length + count + 1, hnext, ?_⟩
    -- The function comes first, then its parameters, then what its body introduces.
    rw [List.range'_succ, ← List.range'_append_1, ← Parameter.map_id_targets]
    exact .functionDefinition rfl hname (found_of_parameters hnamed hparameters)
      (Parameter.map_name_targets _ parameters) (Parameter.map_ty?_targets _ parameters) hwalk
  | @predictiveLoop _ _ _ _ _ _ _ _ _ finished hname hlow hhigh _ _ hbody =>
    obtain ⟨count, hcount, hwalk⟩ :=
      walkAll_of_sequence (ih hbody) (each_enterLoop (fun _ ↦ rfl) _ _ hnamed)
    have hnext : finished.leave.nextId = analyzer.nextId + (count + 1) := by
      rw [Analyzer.leave, hcount, Nat.add_comm count, ← Nat.add_assoc]
      rfl
    refine ⟨count + 1, hnext, ?_⟩
    rw [List.range'_succ]
    exact .predictiveLoop rfl hname (found_of_expression hnamed hlow)
      (found_of_expression hnamed hhigh) hwalk
  | comparison hleft hright =>
    exact ⟨0, rfl, .comparison (found_of_expression hnamed hleft)
      (found_of_expression hnamed hright)⟩
  | print hvalue => exact ⟨0, rfl, .print (found_of_expression hnamed hvalue)⟩
  | returnValue hvalue => exact ⟨0, rfl, .returnValue (found_of_expression hnamed hvalue)⟩
  | yieldValue hvalue => exact ⟨0, rfl, .yieldValue (found_of_expression hnamed hvalue)⟩
  | variableDeclaration hname hvalue =>
    exact ⟨1, rfl, .declaration rfl hname (found_of_expression hnamed hvalue)⟩
  | rebinding hname hvalue =>
    exact ⟨1, rfl, .reassignment rfl (bindsValue_of_rebinds hname)
      (found_of_expression hnamed hvalue)⟩
  | shadowing hname hvalue =>
    exact ⟨1, rfl, .firstAssignment rfl (not_bindsValue_of_not_rebinds hname)
      (found_of_expression hnamed hvalue)⟩
  | call hcall => exact ⟨0, rfl, .call (found_of_accepted hnamed hcall.accepted)⟩

end Analysis

/-! ### Programs of sources -/

/-- The tree and the program of a source are walked side by side from the outermost frame on, and
the identities that are introduced are pairwise distinct. -/
theorem program_walk {source : Source} {program : Program}
    (h : source.program false = .ok program) :
    ∃ span nodes introduced, source.tree = .ok (.program span nodes) ∧
      WalkAll source Frame.root [] nodes program.statements introduced ∧ introduced.Nodup := by
  obtain ⟨span, nodes, results, last, htree, hresults, hstatements⟩ := Source.exists_of_program h
  obtain ⟨count, -, hwalk⟩ := Analysis.walkAll_of_sequence
    (Analysis.hereditary_walk.statements nodes hresults) Frame.allNamed_root
  refine ⟨span, nodes, List.range' 0 count, htree, ?_, List.nodup_range'⟩
  rw [hstatements]
  exact hwalk

/-- The theorem at a source where a variable, a parameter and a reassigned variable share a name,
and where a variable takes the name of a type. -/
theorem program_walk_shadowing :
    ∃ source, source =
        Source.ofText "" "let a = 1\ndefine g(a, b = a) then\n  a = a\n  return g\nint = a" ∧
      ∃ program, source.program false = .ok program ∧
        ∃ span nodes introduced, source.tree = .ok (.program span nodes) ∧
          WalkAll source Frame.root [] nodes program.statements introduced ∧
          introduced.Nodup :=
  ⟨_, rfl, Exists.imp (fun _ hprogram ↦ ⟨hprogram, program_walk hprogram⟩)
    (exists_of_isOk (by decide +kernel))⟩

end Presage
