import Presage.Proofs.Folding
import Presage.Proofs.Inversion
import Presage.Proofs.Uses

/-!
Scoping by identity. A program is walked with a stack of frames: the outermost frame binds the
standard types, a function body opens a frame with one new variable for each parameter, and a loop
opens a frame with its iterator. Declarations, reassignments and function declarations bind in the
innermost frame when they are met, a function before its body and after its defaults.

`Statement.Scoped` says what holds at every point of the walk: each use holds the entity that the
innermost lookup of its own name finds; a function, an iterator and a declared variable take a name
that the frame does not bind to a value, a reassigned variable one that it does; and identities are
handed out in turn from `next` up to `last`, so that no two entities share one.

`context_of_statement` says that an analysed statement changes nothing but the innermost scope, and
that only by the name it binds. `hereditary_scoped` says that analysed statements are scoped, and
`Statement.scoped_fold` that folded ones are. `Source.scoped_of_program` puts the two together for
the programs of sources.
-/

set_option autoImplicit false
set_option relaxedAutoImplicit false

namespace Presage

/-! ### Frames -/

/-- What the names of one open scope mean. -/
abbrev Frame := Bindings String Entity

/-- What a name means in open frames, given from the inside out. -/
def Frame.lookup? (frames : List Frame) (name : String) : Option Entity :=
  frames.findSome? fun frame ↦ frame.get? name

namespace Entity

/-- Variables and functions are values, types are not. -/
def IsValue : Entity → Prop
  | var _ | func _ => True
  | type _ => False

/-- The entity has this name, if it has one of its own. -/
def Named (name : String) : Entity → Prop
  | var target => target.name = name
  | func target => target.name = name
  | type _ => True

end Entity

namespace Frame

/-- The frame binds the name to a value. -/
def BindsValue (frame : Frame) (name : String) : Prop :=
  ∃ entity, frame.get? name = some entity ∧ entity.IsValue

/-- Every name is bound to an entity of that name. -/
def AllNamed (frames : List Frame) : Prop :=
  ∀ frame ∈ frames, ∀ name entity, frame.get? name = some entity → entity.Named name

/-- The frame after a statement that was met in it. -/
def after (frame : Frame) : Statement → Frame
  | .functionDeclaration _ function _ _ => frame.insert function.name (.func function)
  | .variableDeclaration target _ | .variableReassignment target _ =>
    frame.insert target.name (.var target)
  | _ => frame

/-- Adds a variable for each parameter, with identities from `next` on. -/
def withParameters (frame : Frame) (next : Nat) : List Parameter → Frame
  | [] => frame
  | parameter :: rest =>
    withParameters (frame.insert parameter.name (.var ⟨next, parameter.name, parameter.ty?⟩))
      (next + 1) rest

/-- Everything that the frames bind has the property, with the name it is bound to. -/
def Each (property : String → Entity → Prop) (frames : List Frame) : Prop :=
  ∀ frame ∈ frames, ∀ name entity, frame.get? name = some entity → property name entity

section Each

variable {property : String → Entity → Prop} {frame : Frame}

theorem each_cons {outer : List Frame} :
    Each property (frame :: outer) ↔ Each property [frame] ∧ Each property outer := by
  simp only [Each, List.mem_cons, List.not_mem_nil, or_false, forall_eq, forall_eq_or_imp]

theorem each_empty : Each property [(Bindings.empty : Frame)] := by
  intro frame hframe name entity hentity
  rw [List.mem_singleton.mp hframe, Bindings.get?_empty] at hentity
  cases hentity

theorem Each.insert (h : Each property [frame]) {name : String} {entity : Entity}
    (hentity : property name entity) : Each property [frame.insert name entity] := by
  intro other hother bound found hfound
  rw [List.mem_singleton.mp hother, Bindings.get?_insert] at hfound
  split at hfound
  · next hname =>
    obtain rfl := Option.some.inj hfound
    rw [eq_of_beq hname]
    exact hentity
  · exact h frame (List.mem_singleton_self frame) bound found hfound

/-- What holds of everything that is bound holds of what a name means. -/
theorem Each.of_lookup? {frames : List Frame} (h : Each property frames) {name : String}
    {entity : Entity} (hlookup : lookup? frames name = some entity) : property name entity := by
  obtain ⟨frame, hframe, hentity⟩ := List.exists_of_findSome?_eq_some hlookup
  exact h frame hframe name entity hentity

/-- What holds of the names, types and identities that parameters get holds of their variables. -/
theorem Each.withParameters_of {next : Nat} {parameters : List Parameter}
    (h : Each property [frame])
    (hparameters : ∀ parameter ∈ parameters, ∀ id, next ≤ id → id < next + parameters.length →
      property parameter.name (.var ⟨id, parameter.name, parameter.ty?⟩)) :
    Each property [frame.withParameters next parameters] := by
  induction parameters generalizing frame next with
  | nil => exact h
  | cons parameter rest ih =>
    rw [List.length_cons] at hparameters
    obtain ⟨hfirst, hrest⟩ := List.forall_mem_cons.mp hparameters
    refine ih (h.insert (hfirst next (by omega) (by omega))) ?_
    intro other hother id hnext hlast
    exact hrest other hother id (by omega) (by omega)

variable (hvariable : ∀ target : Variable, property target.name (.var target))

include hvariable

theorem Each.after (h : Each property [frame]) {statement : Statement}
    (hfunction : ∀ name function parameters body,
      statement = .functionDeclaration name function parameters body →
        property function.name (.func function)) :
    Each property [frame.after statement] := by
  cases statement with
  | functionDeclaration name function parameters body =>
    exact h.insert (hfunction name function parameters body rfl)
  | variableDeclaration target initializer => exact h.insert (hvariable target)
  | variableReassignment target value => exact h.insert (hvariable target)
  | _ => exact h

theorem Each.withParameters (h : Each property [frame]) (next : Nat)
    (parameters : List Parameter) : Each property [frame.withParameters next parameters] :=
  h.withParameters_of fun parameter _ id _ _ ↦ hvariable ⟨id, parameter.name, parameter.ty?⟩

end Each

end Frame

/-! ### Scoped programs -/

/-- The use holds the entity that its own name means. A struct type may go by another name. -/
def Use.FoundIn (frames : List Frame) : Use → Prop
  | .reference target => Frame.lookup? frames target.name = some (.var target)
  | .functionReference target | .call target =>
    Frame.lookup? frames target.name = some (.func target)
  | .construct target => ∃ name, Frame.lookup? frames name = some (.type (.struct target))

/-- Every use in the expression holds the entity that its name means. -/
def Expr.FoundIn (frames : List Frame) (value : Expr) : Prop :=
  ∀ use ∈ value.uses, use.FoundIn frames

def Call.FoundIn (frames : List Frame) (invocation : Call) : Prop :=
  ∀ use ∈ invocation.uses, use.FoundIn frames

mutual

/-- The statement is scoped in the given frames, and the identities it hands out are those from
`next` up to `last`. -/
def Statement.Scoped (frame : Frame) (outer : List Frame) (next last : Nat) : Statement → Prop
  | .functionDeclaration name function parameters body =>
    name = function.name ∧ frame.get? function.name = none ∧ function.id = next ∧
      parameters.map Parameter.name = function.parameters.map Parameter.name ∧
      (∀ parameter ∈ parameters, ∀ default ∈ parameter.default?, default.FoundIn (frame :: outer)) ∧
      Statement.AllScoped (Frame.withParameters .empty (next + 1) function.parameters)
        (frame.insert function.name (.func function) :: outer)
        (next + 1 + function.parameters.length) last body
  | .variableDeclaration target initializer =>
    ¬ frame.BindsValue target.name ∧ target.id = next ∧ last = next + 1 ∧
      initializer.FoundIn (frame :: outer)
  | .variableReassignment target value =>
    frame.BindsValue target.name ∧ target.id = next ∧ last = next + 1 ∧
      value.FoundIn (frame :: outer)
  | .predictiveLoop iterator low high _ body =>
    frame.get? iterator.name = none ∧ iterator.id = next ∧ low.FoundIn (frame :: outer) ∧
      high.FoundIn (frame :: outer) ∧
      Statement.AllScoped (Bindings.empty.insert iterator.name (.var iterator)) (frame :: outer)
        (next + 1) last body
  | .comparison left right =>
    last = next ∧ left.FoundIn (frame :: outer) ∧ right.FoundIn (frame :: outer)
  | .print value | .returnValue value | .yieldValue value =>
    last = next ∧ value.FoundIn (frame :: outer)
  | .call invocation => last = next ∧ invocation.FoundIn (frame :: outer)

/-- The statements are scoped in turn. -/
def Statement.AllScoped (frame : Frame) (outer : List Frame) (next last : Nat) :
    List Statement → Prop
  | [] => last = next
  | statement :: rest =>
    ∃ middle, Statement.Scoped frame outer next middle statement ∧
      Statement.AllScoped (frame.after statement) outer middle last rest

end

/-! ### The context of an analysis -/

namespace Context

/-- The frames of the open scopes. -/
def frames (context : Context) : List Frame := context.scopes.map Scope.locals

theorem lookup?_eq (context : Context) (name : String) :
    context.lookup? name = Frame.lookup? context.frames name := by
  unfold lookup? Frame.lookup? frames
  rw [List.findSome?_map]
  rfl

/-- The context with other bindings in the innermost scope. -/
def withLocals (context : Context) (locals : Frame) : Context :=
  { context with current := { context.current with locals := locals } }

/-- The context after a statement that was analysed in it. -/
def after (context : Context) (statement : Statement) : Context :=
  context.withLocals (Frame.after context.current.locals statement)

/-- Binding in the innermost scope leaves the scopes around it as they are. -/
theorem leave_withLocals (context : Context) {scope : Scope} {outer : List Scope}
    (h : context.outer = scope :: outer) (locals : Frame) :
    (context.withLocals locals).leave = context.leave := by
  simp only [leave, withLocals, h]

theorem leave_foldl_after {context : Context} {scope : Scope} {outer : List Scope}
    (h : context.outer = scope :: outer) (statements : List Statement) :
    (statements.foldl after context).leave = context.leave := by
  induction statements generalizing context with
  | nil => rfl
  | cons statement rest ih =>
    have hstep : (context.after statement).outer = scope :: outer := h
    rw [List.foldl_cons, ih hstep, after, leave_withLocals context h]

end Context

namespace Analyzer

/-- Parameters are bound in the innermost scope, with the next identities in turn. -/
theorem declareParameters_eq (analyzer : Analyzer) (parameters : List Parameter) :
    analyzer.declareParameters parameters =
      ⟨analyzer.context.withLocals
          (Frame.withParameters analyzer.context.current.locals analyzer.nextId parameters),
        analyzer.nextId + parameters.length, analyzer.bodies⟩ := by
  induction parameters generalizing analyzer with
  | nil => rfl
  | cons parameter rest ih =>
    have hstep : analyzer.declareParameters (parameter :: rest) =
        (analyzer.declareVariable parameter.name parameter.ty?).2.declareParameters rest := rfl
    rw [hstep, ih, List.length_cons]
    simp only [declareVariable, Context.bind, Context.withLocals, Frame.withParameters]
    rw [Nat.add_assoc, Nat.add_comm 1]

section EnterFunction

variable (analyzer : Analyzer) (name : String) (parameters : List Parameter)

/-- The body of a function has a frame of its own, with its parameters. -/
theorem locals_enterFunction :
    ((analyzer.declareFunction name parameters none).2.enterFunction
      (analyzer.declareFunction name parameters none).1).context.current.locals =
      Frame.withParameters .empty (analyzer.nextId + 1) parameters := by
  rw [enterFunction, declareParameters_eq]
  rfl

/-- The frames around the body of a function bind the function itself. -/
theorem outer_enterFunction :
    ((analyzer.declareFunction name parameters none).2.enterFunction
      (analyzer.declareFunction name parameters none).1).context.outer.map Scope.locals =
      analyzer.context.current.locals.insert name
        (.func (analyzer.declareFunction name parameters none).1) ::
          analyzer.context.outer.map Scope.locals := by
  rw [enterFunction, declareParameters_eq]
  rfl

/-- A function and its parameters take one identity each. -/
theorem nextId_enterFunction :
    ((analyzer.declareFunction name parameters none).2.enterFunction
      (analyzer.declareFunction name parameters none).1).nextId =
      analyzer.nextId + 1 + parameters.length := by
  rw [enterFunction, declareParameters_eq]
  rfl

end EnterFunction

end Analyzer

namespace Analysis

variable {source : Source}

theorem context_of_sequence {analyzer last : Analyzer} {nodes : List Node}
    {results : List Statement}
    (h : Sequence source (fun before _ result after ↦ after.context = before.context.after result)
      analyzer nodes results last) :
    last.context = results.foldl Context.after analyzer.context := by
  induction h with
  | nil => rfl
  | cons _ hmotive _ ih => rw [ih, hmotive, List.foldl_cons]

theorem hereditary_context :
    Hereditary source fun before _ result after ↦ after.context = before.context.after result := by
  intro analyzer next node result hrule ih
  cases hrule with
  | functionDefinition _ _ hbody =>
    have hcontext := context_of_sequence (ih hbody)
    rw [Analyzer.enterFunction, Analyzer.declareParameters_eq] at hcontext
    simp only [Analyzer.leave, Analyzer.attachBody, hcontext]
    exact Context.leave_foldl_after rfl _
  | predictiveLoop _ _ _ _ _ hbody =>
    simp only [Analyzer.leave, context_of_sequence (ih hbody)]
    exact Context.leave_foldl_after rfl _
  | _ => rfl

/-- An analysed statement changes the innermost scope by what it binds there, and nothing else. -/
theorem context_of_statement {node : Node} {analyzer next : Analyzer} {result : Statement}
    (h : statement source analyzer node = .ok (result, next)) :
    next.context = analyzer.context.after result :=
  hereditary_context.statement node h

section Each

variable {property : String → Entity → Prop} {analyzer next : Analyzer}

variable (hvariable : ∀ target : Variable, property target.name (.var target))

include hvariable

/-- What holds of everything that is bound goes on to hold when a statement has been analysed, if it
holds of a function that the statement declares. -/
theorem each_of_statement {node : Node} {result : Statement}
    (h : statement source analyzer node = .ok (result, next))
    (hfunction : ∀ name function parameters body,
      result = .functionDeclaration name function parameters body →
        property function.name (.func function))
    (heach : Frame.Each property analyzer.context.frames) :
    Frame.Each property next.context.frames := by
  obtain ⟨hframe, houter⟩ := Frame.each_cons.mp heach
  rw [context_of_statement h]
  exact Frame.each_cons.mpr ⟨hframe.after hvariable hfunction, houter⟩

theorem each_enterFunction {name : String} {parameters : List Parameter}
    (hfunction : property name (.func (analyzer.declareFunction name parameters none).1))
    (heach : Frame.Each property analyzer.context.frames) :
    Frame.Each property
      ((analyzer.declareFunction name parameters none).2.enterFunction
        (analyzer.declareFunction name parameters none).1).context.frames := by
  obtain ⟨hframe, houter⟩ := Frame.each_cons.mp heach
  refine Frame.each_cons.mpr ⟨?_, ?_⟩
  · rw [Analyzer.locals_enterFunction]
    exact Frame.each_empty.withParameters hvariable (analyzer.nextId + 1) parameters
  · rw [Analyzer.outer_enterFunction]
    exact Frame.each_cons.mpr ⟨hframe.insert hfunction, houter⟩

theorem each_enterLoop (name : String) (ty? : Option Ty)
    (heach : Frame.Each property analyzer.context.frames) :
    Frame.Each property (analyzer.enterLoop.declareVariable name ty?).2.context.frames :=
  Frame.each_cons.mpr ⟨Frame.each_empty.insert (hvariable ⟨analyzer.nextId, name, ty?⟩), heach⟩

end Each

/-! ### Analysed programs are scoped -/

variable {context : Context}

theorem each_lookup? {property : String → Entity → Prop}
    (heach : Frame.Each property context.frames) {name : String} {entity : Entity}
    (h : context.lookup? name = some entity) : property name entity := by
  rw [Context.lookup?_eq] at h
  exact heach.of_lookup? h

/-- The uses of an accepted expression hold what their names mean in its context. -/
theorem found_of_accepted (hnamed : Frame.AllNamed context.frames) {value : Expr}
    (h : Accepted source context value) : value.FoundIn context.frames := by
  intro use huse
  induction h with
  | @call _ _ invocation hcall _ ih =>
    rcases Call.mem_uses_iff.mp huse with rfl | ⟨argument, hargument, hmem⟩
    · cases hcall with
      | @function target _ hname _ _ _ =>
        have htarget : target.name = _ := each_lookup? hnamed hname
        rw [← htarget, Context.lookup?_eq] at hname
        exact hname
      | construct hname _ =>
        rw [Context.lookup?_eq] at hname
        exact ⟨_, hname⟩
    · exact ih argument hargument hmem
  | binary _ _ _ ihleft ihright =>
    rcases List.mem_append.mp huse with hmem | hmem
    · exact ihleft hmem
    · exact ihright hmem
  | @reference name target hname =>
    have htarget : target.name = name := each_lookup? hnamed hname
    rw [List.mem_singleton.mp huse]
    rw [← htarget, Context.lookup?_eq] at hname
    exact hname
  | @functionReference name target hname =>
    have htarget : target.name = name := each_lookup? hnamed hname
    rw [List.mem_singleton.mp huse]
    rw [← htarget, Context.lookup?_eq] at hname
    exact hname
  | _ => cases huse

theorem found_of_expression (hnamed : Frame.AllNamed context.frames) {node : Node} {value : Expr}
    (h : valueOf source context node = .ok value) : value.FoundIn context.frames :=
  found_of_accepted hnamed (accepted_of_valueOf node h)

theorem found_of_parameters (hnamed : Frame.AllNamed context.frames) {nodes : List Node}
    {parameters : List Parameter} (h : nodes.mapM (parameterOf source context) = .ok parameters) :
    ∀ parameter ∈ parameters, ∀ default ∈ parameter.default?, default.FoundIn context.frames :=
  fun parameter hparameter default hdefault ↦
    found_of_accepted hnamed (accepted_of_parameters h parameter hparameter default hdefault)

theorem bindsValue_of_rebinds {name : String} (h : rebinds context name = true) :
    Frame.BindsValue context.current.locals name := by
  unfold rebinds at h
  split at h
  · next target htarget => exact ⟨.var target, htarget, trivial⟩
  · next target htarget => exact ⟨.func target, htarget, trivial⟩
  · cases h

theorem not_bindsValue_of_not_rebinds {name : String} (h : rebinds context name = false) :
    ¬ Frame.BindsValue context.current.locals name := by
  rintro ⟨entity, hentity, hvalue⟩
  have hlocal : context.lookupLocal? name = some entity := hentity
  unfold rebinds at h
  rw [hlocal] at h
  cases entity with
  | var target => cases h
  | func target => cases h
  | type ty => exact hvalue

theorem not_bindsValue_of_unbound {frame : Frame} {name : String} (h : frame.get? name = none) :
    ¬ frame.BindsValue name := by
  rintro ⟨entity, hentity, -⟩
  rw [h] at hentity
  cases hentity

/-- The statement is scoped in the frames that the analyzer before it has, and hands out the
identities up to those of the analyzer after it. -/
def ScopedFrom (before : Analyzer) (_ : Node) (result : Statement) (after : Analyzer) : Prop :=
  Frame.AllNamed before.context.frames →
    result.Scoped before.context.current.locals (before.context.outer.map Scope.locals)
      before.nextId after.nextId

theorem allScoped_of_sequence {analyzer last : Analyzer} {nodes : List Node}
    {results : List Statement} (h : Sequence source ScopedFrom analyzer nodes results last)
    (hnamed : Frame.AllNamed analyzer.context.frames) :
    Statement.AllScoped analyzer.context.current.locals
      (analyzer.context.outer.map Scope.locals) analyzer.nextId last.nextId results := by
  induction h with
  | nil => rfl
  | @cons _ middle _ _ _ _ _ hfirst hmotive _ ih =>
    have hscoped := ih (each_of_statement (fun _ ↦ rfl) hfirst (fun _ _ _ _ _ ↦ rfl) hnamed)
    rw [context_of_statement hfirst] at hscoped
    exact ⟨middle.nextId, hmotive hnamed, hscoped⟩

/-- Analysed statements are scoped where they stand. -/
theorem hereditary_scoped : Hereditary source ScopedFrom := by
  intro analyzer next node result hrule ih hnamed
  cases hrule with
  | functionDefinition hname hparameters hbody =>
    have hscoped := allScoped_of_sequence (ih hbody) (each_enterFunction (fun _ ↦ rfl) rfl hnamed)
    rw [Analyzer.locals_enterFunction, Analyzer.outer_enterFunction,
      Analyzer.nextId_enterFunction] at hscoped
    exact ⟨rfl, hname, rfl, rfl, found_of_parameters hnamed hparameters, hscoped⟩
  | predictiveLoop hname hlow hhigh _ _ hbody =>
    have hscoped := allScoped_of_sequence (ih hbody) (each_enterLoop (fun _ ↦ rfl) _ _ hnamed)
    exact ⟨hname, rfl, found_of_expression hnamed hlow, found_of_expression hnamed hhigh, hscoped⟩
  | comparison hleft hright =>
    exact ⟨rfl, found_of_expression hnamed hleft, found_of_expression hnamed hright⟩
  | print hvalue => exact ⟨rfl, found_of_expression hnamed hvalue⟩
  | returnValue hvalue => exact ⟨rfl, found_of_expression hnamed hvalue⟩
  | yieldValue hvalue => exact ⟨rfl, found_of_expression hnamed hvalue⟩
  | variableDeclaration hname hvalue =>
    exact ⟨not_bindsValue_of_unbound hname, rfl, rfl, found_of_expression hnamed hvalue⟩
  | rebinding hname hvalue =>
    exact ⟨bindsValue_of_rebinds hname, rfl, rfl, found_of_expression hnamed hvalue⟩
  | shadowing hname hvalue =>
    exact ⟨not_bindsValue_of_not_rebinds hname, rfl, rfl, found_of_expression hnamed hvalue⟩
  | call hcall => exact ⟨rfl, found_of_accepted hnamed hcall.accepted⟩

theorem allScoped_of_statements {nodes : List Node} {analyzer next : Analyzer}
    {results : List Statement} (h : statements source analyzer nodes = .ok (results, next))
    (hnamed : Frame.AllNamed analyzer.context.frames) :
    Statement.AllScoped analyzer.context.current.locals
      (analyzer.context.outer.map Scope.locals) analyzer.nextId next.nextId results :=
  allScoped_of_sequence (hereditary_scoped.statements nodes h) hnamed

end Analysis

/-! ### Folded programs are scoped -/

theorem Expr.FoundIn.fold {frames : List Frame} {value : Expr} (h : value.FoundIn frames) :
    value.fold.FoundIn frames := by
  unfold Expr.FoundIn
  rw [Expr.uses_fold]
  exact h

theorem Call.FoundIn.fold {frames : List Frame} {invocation : Call}
    (h : invocation.FoundIn frames) : invocation.fold.FoundIn frames := by
  unfold Call.FoundIn
  rw [Call.uses_fold]
  exact h

theorem Frame.after_fold (frame : Frame) (statement : Statement) :
    frame.after statement.folded = frame.after statement := by
  cases statement <;> simp only [Statement.folded, Frame.after]

/-- The defaults of folded parameters are the folded defaults. -/
theorem Parameter.found_fold {frames : List Frame} {parameters : List Parameter}
    (h : ∀ parameter ∈ parameters, ∀ default ∈ parameter.default?, default.FoundIn frames) :
    ∀ parameter ∈ parameters.map Parameter.fold, ∀ default ∈ parameter.default?,
      default.FoundIn frames := by
  intro parameter hparameter default hdefault
  obtain ⟨original, horiginal, rfl⟩ := List.mem_map.mp hparameter
  obtain ⟨value, hvalue, rfl⟩ := Option.map_eq_some_iff.mp hdefault
  exact (h original horiginal value hvalue).fold

mutual

/-- Folding keeps a statement scoped: it keeps the uses of the expressions and all entities. -/
theorem Statement.scoped_fold : ∀ (statement : Statement) {frame : Frame} {outer : List Frame}
    {next last : Nat}, statement.Scoped frame outer next last →
      statement.folded.Scoped frame outer next last
  | .functionDeclaration _ _ parameters body, _, _, _, _,
      ⟨hown, hname, hid, hnames, hdefaults, hbody⟩ => by
    have hfolded : (parameters.map Parameter.fold).map Parameter.name =
        parameters.map Parameter.name := by
      rw [List.map_map]
      rfl
    exact ⟨hown, hname, hid, hfolded.trans hnames, Parameter.found_fold hdefaults,
      Statement.allScoped_foldAll body hbody⟩
  | .variableDeclaration _ _, _, _, _, _, ⟨hname, hid, hlast, hvalue⟩ =>
    ⟨hname, hid, hlast, hvalue.fold⟩
  | .variableReassignment _ _, _, _, _, _, ⟨hname, hid, hlast, hvalue⟩ =>
    ⟨hname, hid, hlast, hvalue.fold⟩
  | .predictiveLoop _ _ _ _ body, _, _, _, _, ⟨hname, hid, hlow, hhigh, hbody⟩ =>
    ⟨hname, hid, hlow.fold, hhigh.fold, Statement.allScoped_foldAll body hbody⟩
  | .comparison _ _, _, _, _, _, ⟨hlast, hleft, hright⟩ => ⟨hlast, hleft.fold, hright.fold⟩
  | .print _, _, _, _, _, ⟨hlast, hvalue⟩ => ⟨hlast, hvalue.fold⟩
  | .returnValue _, _, _, _, _, ⟨hlast, hvalue⟩ => ⟨hlast, hvalue.fold⟩
  | .yieldValue _, _, _, _, _, ⟨hlast, hvalue⟩ => ⟨hlast, hvalue.fold⟩
  | .call _, _, _, _, _, ⟨hlast, hcall⟩ => ⟨hlast, hcall.fold⟩

theorem Statement.allScoped_foldAll : ∀ (statements : List Statement) {frame : Frame}
    {outer : List Frame} {next last : Nat}, Statement.AllScoped frame outer next last statements →
      Statement.AllScoped frame outer next last (Statement.foldedAll statements)
  | [], _, _, _, _, h => h
  | statement :: rest, frame, _, _, _, ⟨middle, hfirst, hrest⟩ => by
    refine ⟨middle, Statement.scoped_fold statement hfirst, ?_⟩
    rw [Frame.after_fold]
    exact Statement.allScoped_foldAll rest hrest

end

/-! ### Programs of sources -/

/-- The outermost frame, with the standard types. -/
def Frame.root : Frame := Context.root.current.locals

/-- None of the types that have names from the start is a struct type. -/
theorem Context.standardTypes_ne_struct {type : String × Ty} (h : type ∈ standardTypes)
    (target : StructType) : Entity.type type.2 ≠ .type (.struct target) := by
  have huncallable : ∀ type ∈ standardTypes, (Entity.type type.2).isCallable = false := by decide
  intro heq
  have hcallable := huncallable type h
  rw [heq] at hcallable
  cases hcallable

/-- What holds of the standard types holds of everything that the outermost frame binds. -/
theorem Frame.each_root {property : String → Entity → Prop}
    (h : ∀ type ∈ Context.standardTypes, property type.1 (.type type.2)) :
    Frame.Each property [Frame.root] := by
  have hinsert : ∀ (types : List (String × Ty)) (locals : Frame),
      (∀ type ∈ types, property type.1 (.type type.2)) → Frame.Each property [locals] →
        Frame.Each property
          [types.foldl (fun locals type ↦ locals.insert type.1 (.type type.2)) locals] := by
    intro types
    induction types with
    | nil => exact fun locals _ hlocals ↦ hlocals
    | cons first rest ih =>
      intro locals htypes hlocals
      obtain ⟨hfirst, hrest⟩ := List.forall_mem_cons.mp htypes
      exact ih _ hrest (hlocals.insert hfirst)
  exact hinsert Context.standardTypes .empty h Frame.each_empty

/-- The outermost frame binds no name to a value. -/
theorem Frame.not_bindsValue_root (name : String) : ¬ Frame.root.BindsValue name := by
  have htypes : Frame.Each (fun _ entity ↦ ¬ entity.IsValue) [Frame.root] :=
    Frame.each_root fun type _ ↦ id
  rintro ⟨entity, hentity, hvalue⟩
  exact htypes Frame.root (List.mem_singleton_self _) name entity hentity hvalue

theorem Frame.allNamed_root : Frame.AllNamed [Frame.root] :=
  Frame.each_root fun _ _ ↦ trivial

/-- The program of a source is the analysis of the statements of its tree, folded or not. -/
theorem Source.exists_of_program {source : Source} {folded : Bool} {program : Program}
    (h : source.program folded = .ok program) :
    ∃ span nodes results last, source.tree = .ok (.program span nodes) ∧
      Analysis.statements source .initial nodes = .ok (results, last) ∧
      program.statements = if folded then Statement.foldedAll results else results := by
  rw [Source.program_eq] at h
  obtain ⟨tree, htree, h⟩ := exists_of_bind_eq_ok h
  obtain ⟨analysed, hanalysed, h⟩ := exists_of_bind_eq_ok h
  unfold Program.ofNode at hanalysed
  cases hresult : Analysis.program source .initial tree with
  | error diagnostic =>
    rw [hresult] at hanalysed
    cases hanalysed
  | ok result =>
    rw [hresult] at hanalysed
    obtain rfl := Except.ok.inj hanalysed
    unfold Analysis.program at hresult
    split at hresult
    · next span nodes =>
      obtain ⟨⟨results, last⟩, hresults, hresult⟩ := exists_of_bind_eq_ok hresult
      obtain rfl := Except.ok.inj hresult
      obtain rfl := Except.ok.inj h
      refine ⟨span, nodes, results, last, htree, hresults, ?_⟩
      cases folded <;> rfl
    · cases hresult

/-- The program of a source, folded or not, is scoped from the outermost frame on. -/
theorem Source.scoped_of_program {source : Source} {folded : Bool} {program : Program}
    (h : source.program folded = .ok program) :
    ∃ last, Statement.AllScoped Frame.root [] 0 last program.statements := by
  obtain ⟨span, nodes, results, last, -, hresults, hstatements⟩ := Source.exists_of_program h
  have hscoped := Analysis.allScoped_of_statements hresults Frame.allNamed_root
  refine ⟨last.nextId, ?_⟩
  rw [hstatements]
  cases folded with
  | false => exact hscoped
  | true => exact Statement.allScoped_foldAll results hscoped

end Presage
