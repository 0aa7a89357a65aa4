import Mathlib.Data.List.Forall2
import Mathlib.Data.List.Nodup
import Mathlib.Logic.Function.Iterate
import Presage.Proofs.Folding
import Presage.Proofs.Scoping
import Presage.Proofs.Uses

/-!
The bodies of functions. Every function that occurs in an analysed program, in a declaration or a
use, in a body or a default, is declared there once, and the handle of the function leads to the
body of its declaration; folding the program, any number of times, leads it to the folded body. The
result is `functions_keep_bodies`.

Four facts carry it. What a statement uses was bound before it or is declared in it
(`Analysis.hereditary_functions`). Identities are handed out in turn, so no two declarations have
the same (`Statement.numbered_functionBodies`). An analysis attaches the bodies of a statement in
the order in which its declarations are completed, and so does folding a body
(`Analysis.hereditary_attaches`, `Statement.foldAll_snd`). And while a program is folded, the cells
held are those of the declarations still to be folded and behind them those of the folded ones, to
which the handles of these lead: `Bodies.Holds`, which attaching a body, dropping a declaration and
folding a statement keep (`Bodies.Holds.attach`, `Bodies.Holds.release`, `Statement.holds_fold`).
-/

set_option autoImplicit false
set_option relaxedAutoImplicit false

namespace Presage

/-! ### Functions in a program -/

mutual

/-- The functions that occur in an expression, and those that occur in the defaults of these. -/
def Expr.functions : Expr → List Func
  | .call invocation => Call.functions invocation
  | .binary _ left right _ => Expr.functions left ++ Expr.functions right
  | .functionReference target => Func.functions target
  | .boolean _ | .number _ _ | .string _ _ | .reference _ => []

def Expr.functionsAll : List Expr → List Func
  | [] => []
  | value :: rest => Expr.functions value ++ Expr.functionsAll rest

def Call.functions : Call → List Func
  | ⟨callee, arguments, _⟩ => Callee.functions callee ++ Expr.functionsAll arguments

def Callee.functions : Callee → List Func
  | .function target => Func.functions target
  | .struct _ => []

/-- A function and the functions in its defaults. -/
def Func.functions : Func → List Func
  | ⟨id, name, parameters, returnType?⟩ =>
    ⟨id, name, parameters, returnType?⟩ :: Parameter.functionsAll parameters

def Parameter.functionsAll : List Parameter → List Func
  | [] => []
  | parameter :: rest => Parameter.functions parameter ++ Parameter.functionsAll rest

def Parameter.functions : Parameter → List Func
  | ⟨_, none⟩ => []
  | ⟨_, some default⟩ => Expr.functions default

end

mutual

/-- The functions that occur in a statement, as declared ones or in an expression. -/
def Statement.functions : Statement → List Func
  | .functionDeclaration _ function parameters body =>
    function.functions ++ Parameter.functionsAll parameters ++ Statement.functionsAll body
  | .predictiveLoop _ low high _ body =>
    low.functions ++ high.functions ++ Statement.functionsAll body
  | .comparison left right => left.functions ++ right.functions
  | .variableDeclaration _ value | .variableReassignment _ value | .print value
  | .returnValue value | .yieldValue value => value.functions
  | .call invocation => invocation.functions

def Statement.functionsAll : List Statement → List Func
  | [] => []
  | statement :: rest => Statement.functions statement ++ Statement.functionsAll rest

end

mutual

/-- The functions that a statement declares, at any depth, with the bodies that it gives them. The
declarations inside a body are completed before the one around them and stand before it. -/
def Statement.functionBodies : Statement → List (Func × List Statement)
  | .functionDeclaration _ function _ body =>
    Statement.functionBodiesAll body ++ [(function, body)]
  | .predictiveLoop _ _ _ _ body => Statement.functionBodiesAll body
  | _ => []

def Statement.functionBodiesAll : List Statement → List (Func × List Statement)
  | [] => []
  | statement :: rest => Statement.functionBodies statement ++ Statement.functionBodiesAll rest

end

namespace Program

/-- The functions that occur in a program. -/
def functions (program : Program) : List Func := Statement.functionsAll program.statements

/-- The declarations of a function in a program, by its identity, with their bodies. -/
def declarationsOf (program : Program) (function : Func) : List (Func × List Statement) :=
  (Statement.functionBodiesAll program.statements).filter fun entry ↦ entry.1.id == function.id

end Program

theorem Func.functions_eq (function : Func) :
    function.functions = function :: Parameter.functionsAll function.parameters := by
  cases function
  rw [functions]

theorem Expr.mem_functionsAll_iff {values : List Expr} {function : Func} :
    function ∈ Expr.functionsAll values ↔ ∃ value ∈ values, function ∈ value.functions := by
  induction values with
  | nil => simp only [functionsAll, List.not_mem_nil, false_and, exists_false]
  | cons value rest ih =>
    simp only [functionsAll, List.mem_append, ih, List.mem_cons, or_and_right, exists_or,
      exists_eq_left]

theorem Parameter.mem_functionsAll_iff {parameters : List Parameter} {function : Func} :
    function ∈ Parameter.functionsAll parameters ↔
      ∃ parameter ∈ parameters, ∃ default ∈ parameter.default?, function ∈ default.functions := by
  induction parameters with
  | nil => simp only [functionsAll, List.not_mem_nil, false_and, exists_false]
  | cons parameter rest ih =>
    simp only [functionsAll, List.mem_append, ih, List.mem_cons, or_and_right, exists_or,
      exists_eq_left]
    refine or_congr_left ?_
    obtain ⟨name, default?⟩ := parameter
    cases default? with
    | none => simp [functions]
    | some default => simp [functions]

/-! ### What is used was declared -/

namespace Analysis

variable {source : Source} {context : Context} {known : List Func}

/-- A function that is bound is among the known ones, with those in its defaults. -/
def FunctionKnown (known : List Func) (_ : String) (entity : Entity) : Prop :=
  ∀ target, entity = .func target → target.functions ⊆ known

theorem functionKnown_var (target : Variable) : FunctionKnown known target.name (.var target) :=
  fun _ ↦ nofun

theorem functionKnown_root : Frame.Each (FunctionKnown known) [Frame.root] :=
  Frame.each_root fun _ _ _ ↦ nofun

theorem functions_of_accepted (hknown : Frame.Each (FunctionKnown known) context.frames)
    {value : Expr} (h : Accepted source context value) : value.functions ⊆ known := by
  induction h with
  | @call _ _ invocation hcall _ ih =>
    intro function hfunction
    obtain ⟨callee, arguments, ty?⟩ := invocation
    rw [Expr.functions, Call.functions] at hfunction
    rcases List.mem_append.mp hfunction with hcallee | hargument
    · cases hcall with
      | @function target _ hname _ _ _ =>
        rw [Callee.functions] at hcallee
        exact each_lookup? hknown hname target rfl hcallee
      | construct =>
        rw [Callee.functions] at hcallee
        cases hcallee
    · obtain ⟨argument, hmem, hinside⟩ := Expr.mem_functionsAll_iff.mp hargument
      exact ih argument hmem hinside
  | binary _ _ _ ihleft ihright =>
    rw [Expr.functions]
    exact List.append_subset.mpr ⟨ihleft, ihright⟩
  | functionReference hname =>
    rw [Expr.functions]
    exact each_lookup? hknown hname _ rfl
  | _ =>
    rw [Expr.functions]
    exact List.nil_subset _

theorem functions_of_expression (hknown : Frame.Each (FunctionKnown known) context.frames)
    {node : Node} {value : Expr} (h : valueOf source context node = .ok value) :
    value.functions ⊆ known :=
  functions_of_accepted hknown (accepted_of_valueOf node h)

theorem functions_of_parameters (hknown : Frame.Each (FunctionKnown known) context.frames)
    {nodes : List Node} {parameters : List Parameter}
    (h : nodes.mapM (parameterOf source context) = .ok parameters) :
    Parameter.functionsAll parameters ⊆ known := by
  intro function hfunction
  obtain ⟨parameter, hparameter, default, hdefault, hmem⟩ :=
    Parameter.mem_functionsAll_iff.mp hfunction
  have haccepted := accepted_of_parameters h parameter hparameter default hdefault
  exact functions_of_accepted hknown haccepted hmem

/-- The functions that occur in the statement are known, once what is bound before it and what it
declares is. -/
def FunctionsKnown (known : List Func) (before : Analyzer) (_ : Node) (result : Statement)
    (_ : Analyzer) : Prop :=
  Frame.Each (FunctionKnown known) before.context.frames →
    result.functionBodies.map Prod.fst ⊆ known → result.functions ⊆ known

theorem functionsAll_of_sequence {analyzer last : Analyzer} {nodes : List Node}
    {results : List Statement}
    (h : Sequence source (FunctionsKnown known) analyzer nodes results last)
    (hknown : Frame.Each (FunctionKnown known) analyzer.context.frames)
    (hdeclared : (Statement.functionBodiesAll results).map Prod.fst ⊆ known) :
    Statement.functionsAll results ⊆ known := by
  induction h with
  | nil => exact List.nil_subset _
  | @cons _ _ _ _ _ first _ hfirst hmotive _ ih =>
    rw [Statement.functionBodiesAll, List.map_append] at hdeclared
    obtain ⟨hfirstDeclared, hrestDeclared⟩ := List.append_subset.mp hdeclared
    have hfunctions := hmotive hknown hfirstDeclared
    have hbound : ∀ name function parameters body,
        first = .functionDeclaration name function parameters body →
          FunctionKnown known function.name (.func function) := by
      rintro name function parameters body rfl target htarget
      obtain rfl := Entity.func.inj htarget
      rw [Statement.functions, List.append_assoc] at hfunctions
      exact (List.append_subset.mp hfunctions).1
    rw [Statement.functionsAll]
    exact List.append_subset.mpr ⟨hfunctions,
      ih (each_of_statement functionKnown_var hfirst hbound hknown) hrestDeclared⟩

/-- What an analysed statement uses was bound before it or is declared in it. -/
theorem hereditary_functions : Hereditary source (FunctionsKnown known) := by
  intro analyzer next node result hrule ih hknown hdeclared
  cases hrule with
  | @functionDefinition _ name _ _ parameters _ _ _ hparameters hbody =>
    rw [Statement.functionBodies, List.map_append] at hdeclared
    obtain ⟨hinner, hown⟩ := List.append_subset.mp hdeclared
    have hfunction := (List.cons_subset.mp hown).1
    have hdefaults := functions_of_parameters hknown hparameters
    have hdeep : (analyzer.declareFunction (name.text source) parameters none).1.functions ⊆
        known := by
      rw [Func.functions_eq]
      exact List.cons_subset.mpr ⟨hfunction, hdefaults⟩
    have hbound : FunctionKnown known (name.text source)
        (.func (analyzer.declareFunction (name.text source) parameters none).1) := by
      intro target htarget
      obtain rfl := Entity.func.inj htarget
      exact hdeep
    have hentered := each_enterFunction functionKnown_var hbound hknown
    rw [Statement.functions]
    exact List.append_subset.mpr ⟨List.append_subset.mpr ⟨hdeep, hdefaults⟩,
      functionsAll_of_sequence (ih hbody) hentered hinner⟩
  | predictiveLoop _ hlow hhigh _ _ hbody =>
    rw [Statement.functionBodies] at hdeclared
    rw [Statement.functions]
    exact List.append_subset.mpr ⟨List.append_subset.mpr
      ⟨functions_of_expression hknown hlow, functions_of_expression hknown hhigh⟩,
      functionsAll_of_sequence (ih hbody) (each_enterLoop functionKnown_var _ _ hknown) hdeclared⟩
  | comparison hleft hright =>
    rw [Statement.functions]
    exact List.append_subset.mpr
      ⟨functions_of_expression hknown hleft, functions_of_expression hknown hright⟩
  | print hvalue | returnValue hvalue | yieldValue hvalue | variableDeclaration _ hvalue
  | rebinding _ hvalue | shadowing _ hvalue =>
    rw [Statement.functions]
    exact functions_of_expression hknown hvalue
  | call hcall =>
    have hfunctions := functions_of_accepted hknown hcall.accepted
    rw [Expr.functions] at hfunctions
    rw [Statement.functions]
    exact hfunctions

end Analysis

/-! ### Identities of declarations -/

/-- The identities are all different, from `first` on and below `last`. -/
structure Numbered (first last : Nat) (ids : List Nat) : Prop where
  le : first ≤ last
  nodup : ids.Nodup
  within : ∀ id ∈ ids, first ≤ id ∧ id < last

namespace Numbered

variable {first middle last : Nat} {ids others : List Nat}

theorem nil (hle : first ≤ last) : Numbered first last [] :=
  ⟨hle, .nil, by simp⟩

theorem mono (h : Numbered middle last ids) (hle : first ≤ middle) : Numbered first last ids :=
  ⟨Nat.le_trans hle h.le, h.nodup, fun id hid ↦
    ⟨Nat.le_trans hle (h.within id hid).1, (h.within id hid).2⟩⟩

theorem concat (h : Numbered (first + 1) last ids) : Numbered first last (ids ++ [first]) := by
  have hnew : first ∉ ids := fun hmem ↦ Nat.lt_irrefl first (h.within first hmem).1
  refine ⟨Nat.le_of_succ_le h.le, List.concat_eq_append ▸ h.nodup.concat hnew, ?_⟩
  intro id hid
  rcases List.mem_append.mp hid with hid | hid
  · exact ⟨Nat.le_of_succ_le (h.within id hid).1, (h.within id hid).2⟩
  · obtain rfl := List.mem_singleton.mp hid
    exact ⟨Nat.le_refl id, h.le⟩

theorem append (h : Numbered first middle ids) (hothers : Numbered middle last others) :
    Numbered first last (ids ++ others) := by
  refine ⟨Nat.le_trans h.le hothers.le, ?_, ?_⟩
  · refine List.nodup_append.mpr ⟨h.nodup, hothers.nodup, fun id hid other hother ↦ ?_⟩
    have hlt := Nat.lt_of_lt_of_le (h.within id hid).2 (hothers.within other hother).1
    exact Nat.ne_of_lt hlt
  · intro id hid
    rcases List.mem_append.mp hid with hid | hid
    · exact ⟨(h.within id hid).1, Nat.lt_of_lt_of_le (h.within id hid).2 hothers.le⟩
    · exact ⟨Nat.le_trans h.le (hothers.within id hid).1, (hothers.within id hid).2⟩

end Numbered

/-- The identity of the function of a declaration. -/
def entryId (entry : Func × List Statement) : Nat := entry.1.id

mutual

/-- Declarations of scoped statements have different identities. -/
theorem Statement.numbered_functionBodies : ∀ (statement : Statement) {frame : Frame}
    {outer : List Frame} {next last : Nat}, statement.Scoped frame outer next last →
      Numbered next last (statement.functionBodies.map entryId)
  | .functionDeclaration name function _ body, _, _, next, _, ⟨_, _, hid, _, _, hbody⟩ => by
    have hinner := Statement.numbered_functionBodiesAll body hbody
    have hentry : entryId (function, body) = next := hid
    rw [Statement.functionBodies, List.map_append, List.map_singleton, hentry]
    exact (hinner.mono (Nat.le_add_right _ _)).concat
  | .predictiveLoop _ _ _ _ body, _, _, _, _, ⟨_, _, _, _, hbody⟩ => by
    rw [Statement.functionBodies]
    exact (Statement.numbered_functionBodiesAll body hbody).mono (Nat.le_succ _)
  | .variableDeclaration _ _, _, _, next, _, ⟨_, _, hlast, _⟩
  | .variableReassignment _ _, _, _, next, _, ⟨_, _, hlast, _⟩ => by
    rw [hlast]
    exact .nil (Nat.le_succ next)
  | .comparison _ _, _, _, next, _, ⟨hlast, _, _⟩ => by
    rw [hlast]
    exact .nil (Nat.le_refl next)
  | .print _, _, _, next, _, ⟨hlast, _⟩ | .returnValue _, _, _, next, _, ⟨hlast, _⟩
  | .yieldValue _, _, _, next, _, ⟨hlast, _⟩ | .call _, _, _, next, _, ⟨hlast, _⟩ => by
    rw [hlast]
    exact .nil (Nat.le_refl next)

theorem Statement.numbered_functionBodiesAll : ∀ (statements : List Statement) {frame : Frame}
    {outer : List Frame} {next last : Nat}, Statement.AllScoped frame outer next last statements →
      Numbered next last ((Statement.functionBodiesAll statements).map entryId)
  | [], _, _, next, _, h => by
    rw [h]
    exact .nil (Nat.le_refl next)
  | statement :: rest, _, _, _, _, ⟨_, hfirst, hrest⟩ => by
    rw [Statement.functionBodiesAll, List.map_append]
    exact (Statement.numbered_functionBodies statement hfirst).append
      (Statement.numbered_functionBodiesAll rest hrest)

end

/-- Where identities are not shared, a declaration is the only one of its identity. -/
theorem filter_entryId {entries : List (Func × List Statement)}
    (hnodup : (entries.map entryId).Nodup) {entry : Func × List Statement}
    (hentry : entry ∈ entries) :
    entries.filter (fun other ↦ entryId other == entryId entry) = [entry] := by
  induction entries with
  | nil => cases hentry
  | cons first rest ih =>
    rw [List.map_cons, List.nodup_cons] at hnodup
    obtain ⟨hfirst, hrest⟩ := hnodup
    rcases List.mem_cons.mp hentry with rfl | hmem
    · have hothers : rest.filter (fun other ↦ entryId other == entryId entry) = [] := by
        refine List.filter_eq_nil_iff.mpr fun other hother hsame ↦ hfirst ?_
        rw [← eq_of_beq hsame]
        exact List.mem_map_of_mem hother
      rw [List.filter_cons, if_pos (beq_self_eq_true _), hothers]
    · have hne : ¬ (entryId first == entryId entry) = true := by
        intro hsame
        rw [eq_of_beq hsame] at hfirst
        exact hfirst (List.mem_map_of_mem hmem)
      rw [List.filter_cons, if_neg hne, ih hrest hmem]

/-! ### Attached bodies -/

namespace Bodies

/-- The handle of the function of a declaration leads to the cell, and the cell has the body. -/
structure Leads (bodies : Bodies) (entry : Func × List Statement) (cell : Nat) : Prop where
  handle : bodies.handles.get? (entryId entry) = some cell
  cell : bodies.cells[cell]? = some (some entry.2)

theorem Leads.body?_eq {bodies : Bodies} {entry : Func × List Statement} {cell : Nat}
    (h : bodies.Leads entry cell) : bodies.body? entry.1 = some entry.2 := by
  have hhandle : bodies.handles.get? entry.1.id = some cell := h.handle
  rw [body?, hhandle, Option.bind_eq_bind, Option.bind_some, h.cell]
  rfl

theorem body?_of_leads {bodies : Bodies} {entries : List (Func × List Statement)}
    {cells : List Nat} (h : List.Forall₂ bodies.Leads entries cells) :
    ∀ entry ∈ entries, bodies.body? entry.1 = some entry.2 := by
  induction h with
  | nil => exact nofun
  | cons hfirst _ ih => exact List.forall_mem_cons.mpr ⟨hfirst.body?_eq, ih⟩

/-- The cells held are those of `older` declarations, whatever they are, and behind them those of
the entries, to which the handles of their functions lead. -/
structure Holds (bodies : Bodies) (older : Nat) (entries : List (Func × List Statement)) :
    Prop where
  nodup : bodies.held.Nodup
  inRange : ∀ cell ∈ bodies.held, cell < bodies.cells.length
  older_le : older ≤ bodies.held.length
  leads : List.Forall₂ bodies.Leads entries (bodies.held.drop older)

theorem holds_empty : empty.Holds 0 [] :=
  ⟨.nil, nofun, Nat.le_refl 0, .nil⟩

namespace Holds

variable {bodies : Bodies} {older count : Nat} {entries : List (Func × List Statement)}

/-- The declarations of the entries are older ones for what follows. -/
theorem renew (h : bodies.Holds 0 entries) : bodies.Holds entries.length [] := by
  have hlength : entries.length = bodies.held.length := h.leads.length_eq
  refine ⟨h.nodup, h.inRange, Nat.le_of_eq hlength, ?_⟩
  rw [hlength, List.drop_length]
  exact .nil

theorem attach (h : bodies.Holds older entries) {function : Func} {body : List Statement}
    (hnew : entryId (function, body) ∉ entries.map entryId) :
    (bodies.attach function body).Holds older (entries ++ [(function, body)]) := by
  have hfresh : bodies.cells.length ∉ bodies.held := fun hmem ↦
    Nat.lt_irrefl _ (h.inRange _ hmem)
  refine ⟨?_, ?_, ?_, ?_⟩
  · show (bodies.held ++ [bodies.cells.length]).Nodup
    exact List.concat_eq_append ▸ h.nodup.concat hfresh
  · intro cell hcell
    simp only [Bodies.attach, List.length_append, List.length_singleton]
    rcases List.mem_append.mp hcell with hcell | hcell
    · exact Nat.lt_succ_of_lt (h.inRange cell hcell)
    · exact (List.mem_singleton.mp hcell) ▸ Nat.lt_succ_self _
  · simp only [Bodies.attach, List.length_append]
    exact Nat.le_add_right_of_le h.older_le
  · have hheld : (bodies.attach function body).held.drop older =
        bodies.held.drop older ++ [bodies.cells.length] :=
      List.drop_append_of_le_length h.older_le
    rw [hheld]
    refine List.rel_append ?_ (.cons ⟨?_, ?_⟩ .nil)
    · -- The handles of the others stay, and so do their cells.
      refine (List.forall₂_iff_get.mpr ⟨h.leads.length_eq, fun index hentry hcell ↦ ?_⟩)
      have hleads := h.leads.get hentry hcell
      have hmem : entryId (entries.get ⟨index, hentry⟩) ∈ entries.map entryId :=
        List.mem_map_of_mem (List.get_mem entries ⟨index, hentry⟩)
      have hne : ¬ (entryId (entries.get ⟨index, hentry⟩) == function.id) = true := by
        intro hsame
        rw [eq_of_beq hsame] at hmem
        exact hnew hmem
      refine ⟨?_, List.getElem?_append_left ?_ |>.trans hleads.cell⟩
      · rw [Bodies.attach, Bindings.get?_insert, if_neg hne]
        exact hleads.handle
      · exact h.inRange _ (List.mem_of_mem_drop (List.get_mem _ _))
    · rw [Bodies.attach, Bindings.get?_insert]
      exact if_pos (beq_self_eq_true function.id)
    · exact List.getElem?_concat_length

end Holds

/-- Bodies are attached one after the other. -/
def attachAll (bodies : Bodies) (entries : List (Func × List Statement)) : Bodies :=
  entries.foldl (fun state entry ↦ state.attach entry.1 entry.2) bodies

theorem attachAll_append (bodies : Bodies) (first second : List (Func × List Statement)) :
    bodies.attachAll (first ++ second) = (bodies.attachAll first).attachAll second :=
  List.foldl_append

theorem Holds.attachAll {bodies : Bodies} {older : Nat}
    {entries others : List (Func × List Statement)} (h : bodies.Holds older entries)
    (hnodup : ((entries ++ others).map entryId).Nodup) :
    (bodies.attachAll others).Holds older (entries ++ others) := by
  induction others generalizing bodies entries with
  | nil =>
    rw [List.append_nil]
    exact h
  | cons entry rest ih =>
    rw [← List.singleton_append, ← List.append_assoc] at hnodup ⊢
    refine ih (h.attach ?_) hnodup
    rw [List.map_append, List.map_append] at hnodup
    have hapart := (List.nodup_append.mp (List.nodup_append.mp hnodup).1).2.2
    exact fun hmem ↦ hapart _ hmem _ (List.mem_singleton_self _) rfl

/-- Cells that are not given up stay as they were. -/
theorem getElem?_foldl_set (dropped : List Nat) {cells : List (Option (List Statement))}
    {cell : Nat} (h : cell ∉ dropped) :
    (dropped.foldl (fun cells cell ↦ cells.set cell none) cells)[cell]? = cells[cell]? := by
  induction dropped generalizing cells with
  | nil => rfl
  | cons first rest ih =>
    rw [List.mem_cons, not_or] at h
    rw [List.foldl_cons, ih h.2, List.getElem?_set_ne (Ne.symm h.1)]

theorem length_foldl_set (dropped : List Nat) (cells : List (Option (List Statement))) :
    (dropped.foldl (fun cells cell ↦ cells.set cell none) cells).length = cells.length := by
  induction dropped generalizing cells with
  | nil => rfl
  | cons first rest ih => rw [List.foldl_cons, ih, List.length_set]

/-- Dropping some of the older declarations leaves the bodies of the others alone: their cells are
not among those of the dropped ones. -/
theorem Holds.release {bodies : Bodies} {older count : Nat}
    {entries : List (Func × List Statement)} (h : bodies.Holds (older + count) entries) :
    (bodies.release count).Holds older entries := by
  have hdrop : (bodies.release count).held.drop older = bodies.held.drop (older + count) := by
    rw [Bodies.release, List.drop_drop, Nat.add_comm]
  have hapart : ∀ cell ∈ bodies.held.drop (older + count), cell ∉ bodies.held.take count := by
    intro cell hcell hdropped
    have hlater : cell ∈ bodies.held.drop count := by
      rw [Nat.add_comm, ← List.drop_drop] at hcell
      exact List.mem_of_mem_drop hcell
    have hnodup := h.nodup
    rw [← List.take_append_drop count bodies.held] at hnodup
    exact (List.nodup_append.mp hnodup).2.2 cell hdropped cell hlater rfl
  refine ⟨h.nodup.sublist (List.drop_sublist _ _), ?_, ?_, ?_⟩
  · intro cell hcell
    rw [Bodies.release, length_foldl_set]
    exact h.inRange cell (List.mem_of_mem_drop hcell)
  · rw [Bodies.release, List.length_drop]
    exact Nat.le_sub_of_add_le h.older_le
  · rw [hdrop]
    refine List.forall₂_iff_get.mpr ⟨h.leads.length_eq, fun index hentry hcell ↦ ?_⟩
    have hleads := h.leads.get hentry hcell
    refine ⟨hleads.handle, ?_⟩
    rw [Bodies.release, getElem?_foldl_set _ (hapart _ (List.get_mem _ _))]
    exact hleads.cell

end Bodies

/-! ### The bodies of an analysis -/

namespace Analysis

variable {source : Source}

/-- The analysis of the statement attaches the bodies of its declarations. -/
def Attaches (before : Analyzer) (_ : Node) (result : Statement) (after : Analyzer) : Prop :=
  after.bodies = before.bodies.attachAll result.functionBodies

theorem attachesAll_of_sequence {analyzer last : Analyzer} {nodes : List Node}
    {results : List Statement} (h : Sequence source Attaches analyzer nodes results last) :
    last.bodies = analyzer.bodies.attachAll (Statement.functionBodiesAll results) := by
  induction h with
  | nil => rfl
  | cons _ hmotive _ ih =>
    rw [ih, hmotive, Statement.functionBodiesAll, Bodies.attachAll_append]

theorem bodies_declareParameters (analyzer : Analyzer) (parameters : List Parameter) :
    (analyzer.declareParameters parameters).bodies = analyzer.bodies := by
  unfold Analyzer.declareParameters
  induction parameters generalizing analyzer with
  | nil => rfl
  | cons parameter rest ih => exact ih (analyzer.declareVariable parameter.name parameter.ty?).2

theorem hereditary_attaches : Hereditary source Attaches := by
  intro analyzer next node result hrule ih
  cases hrule with
  | @functionDefinition _ name _ _ parameters body finished _ _ hbody =>
    have hfinished := attachesAll_of_sequence (ih hbody)
    rw [Analyzer.enterFunction, bodies_declareParameters] at hfinished
    show finished.bodies.attach _ body = _
    rw [hfinished, Statement.functionBodies, Bodies.attachAll_append]
    rfl
  | predictiveLoop _ _ _ _ _ hbody =>
    have hfinished := attachesAll_of_sequence (ih hbody)
    exact hfinished
  | _ => rfl

end Analysis

/-! ### Folding -/

/-- The functions that occur in what is used. -/
def Use.functions : Use → List Func
  | .functionReference target | .call target => target.functions
  | .reference _ | .construct _ => []

theorem Callee.functions_eq (callee : Callee) : callee.functions = callee.use.functions := by
  cases callee <;> rw [Callee.functions, Callee.use, Use.functions]

mutual

/-- The functions that occur in an expression are those of its uses. -/
theorem Expr.functions_eq_flatMap : ∀ value : Expr,
    value.functions = value.uses.flatMap Use.functions
  | .call invocation => by
    rw [Expr.functions, Expr.uses, Call.functions_eq_flatMap invocation]
  | .binary _ left right _ => by
    rw [Expr.functions, Expr.uses, List.flatMap_append, Expr.functions_eq_flatMap left,
      Expr.functions_eq_flatMap right]
  | .functionReference _ => by
    rw [Expr.functions, Expr.uses, List.flatMap_singleton, Use.functions]
  | .reference _ => by
    rw [Expr.functions, Expr.uses, List.flatMap_singleton, Use.functions]
  | .boolean _ | .number _ _ | .string _ _ => by
    rw [Expr.functions, Expr.uses, List.flatMap_nil]

theorem Expr.functionsAll_eq_flatMap : ∀ values : List Expr,
    Expr.functionsAll values = (Expr.usesAll values).flatMap Use.functions
  | [] => by
    rw [Expr.functionsAll, Expr.usesAll, List.flatMap_nil]
  | value :: rest => by
    rw [Expr.functionsAll, Expr.usesAll, List.flatMap_append, Expr.functions_eq_flatMap value,
      Expr.functionsAll_eq_flatMap rest]

theorem Call.functions_eq_flatMap : ∀ invocation : Call,
    invocation.functions = invocation.uses.flatMap Use.functions
  | ⟨callee, arguments, _⟩ => by
    rw [Call.functions, Call.uses, List.flatMap_cons, Callee.functions_eq,
      Expr.functionsAll_eq_flatMap arguments]

end

theorem Expr.functions_fold (value : Expr) : value.fold.functions = value.functions := by
  rw [functions_eq_flatMap, uses_fold, functions_eq_flatMap]

theorem Call.functions_fold (invocation : Call) :
    invocation.fold.functions = invocation.functions := by
  rw [functions_eq_flatMap, uses_fold, functions_eq_flatMap]

theorem Parameter.functionsAll_fold (parameters : List Parameter) :
    Parameter.functionsAll (parameters.map Parameter.fold) = Parameter.functionsAll parameters := by
  induction parameters with
  | nil => rfl
  | cons parameter rest ih =>
    obtain ⟨name, default?⟩ := parameter
    cases default? with
    | none => simp only [List.map_cons, functionsAll, ih, fold, Option.map_none, functions]
    | some default =>
      simp only [List.map_cons, functionsAll, ih, fold, Option.map_some, functions,
        Expr.functions_fold]

mutual

/-- Folding keeps the functions that occur. -/
theorem Statement.functions_fold : ∀ statement : Statement,
    statement.folded.functions = statement.functions
  | .functionDeclaration name function parameters body => by
    simp only [Statement.folded, Statement.functions]
    rw [Parameter.functionsAll_fold, Statement.functionsAll_foldAll body]
  | .predictiveLoop _ low high _ body => by
    simp only [Statement.folded, Statement.functions, Expr.functions_fold]
    rw [Statement.functionsAll_foldAll body]
  | .variableDeclaration _ value | .variableReassignment _ value | .print value
  | .returnValue value | .yieldValue value => by
    simp only [Statement.folded, Statement.functions, Expr.functions_fold]
  | .comparison left right => by
    simp only [Statement.folded, Statement.functions, Expr.functions_fold]
  | .call invocation => by
    simp only [Statement.folded, Statement.functions, Call.functions_fold]

theorem Statement.functionsAll_foldAll : ∀ statements : List Statement,
    Statement.functionsAll (Statement.foldedAll statements) = Statement.functionsAll statements
  | [] => rfl
  | statement :: rest => by
    simp only [Statement.foldedAll, Statement.functionsAll]
    rw [Statement.functions_fold statement, Statement.functionsAll_foldAll rest]

end

mutual

/-- Folding keeps the functions that are declared. -/
theorem Statement.functionBodies_fold : ∀ statement : Statement,
    statement.folded.functionBodies.map Prod.fst = statement.functionBodies.map Prod.fst
  | .functionDeclaration name function parameters body => by
    simp only [Statement.folded, Statement.functionBodies, List.map_append, List.map_singleton]
    rw [Statement.functionBodiesAll_foldAll body]
  | .predictiveLoop _ _ _ _ body => by
    simp only [Statement.folded, Statement.functionBodies]
    exact Statement.functionBodiesAll_foldAll body
  | .variableDeclaration _ _ | .variableReassignment _ _ | .print _ | .returnValue _
  | .yieldValue _ | .comparison _ _ | .call _ => by
    simp only [Statement.folded, Statement.functionBodies]

theorem Statement.functionBodiesAll_foldAll : ∀ statements : List Statement,
    (Statement.functionBodiesAll (Statement.foldedAll statements)).map Prod.fst =
      (Statement.functionBodiesAll statements).map Prod.fst
  | [] => rfl
  | statement :: rest => by
    simp only [Statement.foldedAll, Statement.functionBodiesAll, List.map_append]
    rw [Statement.functionBodies_fold statement, Statement.functionBodiesAll_foldAll rest]

end

mutual

theorem Statement.length_functionBodies : ∀ statement : Statement,
    statement.functionBodies.length = statement.declarationCount
  | .functionDeclaration _ _ _ body => by
    rw [Statement.functionBodies, List.length_append, Statement.length_functionBodiesAll body,
      Statement.declarationCount]
    rfl
  | .predictiveLoop _ _ _ _ body => by
    rw [Statement.functionBodies, Statement.length_functionBodiesAll body,
      Statement.declarationCount]
  | .variableDeclaration _ _ | .variableReassignment _ _ | .print _ | .returnValue _
  | .yieldValue _ | .comparison _ _ | .call _ => rfl

theorem Statement.length_functionBodiesAll : ∀ statements : List Statement,
    (Statement.functionBodiesAll statements).length = Statement.declarationCountAll statements
  | [] => rfl
  | statement :: rest => by
    rw [Statement.functionBodiesAll, List.length_append, Statement.length_functionBodies statement,
      Statement.length_functionBodiesAll rest, Statement.declarationCountAll]

end

mutual

/-- Folding the copy of a body attaches the folded bodies and drops nothing. -/
theorem Statement.fold_snd (bodies : Bodies) : ∀ statement : Statement,
    (statement.fold false bodies).2 = bodies.attachAll statement.folded.functionBodies
  | .functionDeclaration name function parameters body => by
    simp only [Statement.fold, Statement.foldAll_snd bodies body, Statement.foldAll_fst,
      Statement.folded, Statement.functionBodies, Bodies.attachAll_append]
    rfl
  | .predictiveLoop _ _ _ _ body => by
    simp only [Statement.fold, Statement.foldAll_snd bodies body, Statement.folded,
      Statement.functionBodies]
  | .variableDeclaration _ _ | .variableReassignment _ _ | .print _ | .returnValue _
  | .yieldValue _ | .comparison _ _ | .call _ => rfl

theorem Statement.foldAll_snd (bodies : Bodies) : ∀ statements : List Statement,
    (Statement.foldAll false bodies statements).2 =
      bodies.attachAll (Statement.functionBodiesAll (Statement.foldedAll statements))
  | [] => rfl
  | statement :: rest => by
    simp only [Statement.foldAll, Statement.fold_snd bodies statement,
      Statement.foldAll_snd _ rest, Statement.foldedAll, Statement.functionBodiesAll,
      Bodies.attachAll_append]

end

mutual

/-- A statement that is folded and given up drops its declarations, which are the oldest, and
attaches the folded bodies. -/
theorem Statement.holds_fold : ∀ (statement : Statement) {bodies : Bodies} {older : Nat}
    {entries : List (Func × List Statement)},
    bodies.Holds (older + statement.declarationCount) entries →
      ((entries ++ statement.folded.functionBodies).map entryId).Nodup →
        (statement.fold true bodies).2.Holds older (entries ++ statement.folded.functionBodies)
  | .functionDeclaration name function parameters body, bodies, older, entries, h, hnodup => by
    have hattached := h.attachAll hnodup
    rw [← Statement.fold_snd] at hattached
    exact hattached.release
  | .predictiveLoop _ _ _ _ body, _, _, _, h, hnodup => by
    simp only [Statement.folded, Statement.functionBodies] at hnodup ⊢
    exact Statement.holds_foldAll body h hnodup
  | .variableDeclaration _ _, _, _, _, h, _ | .variableReassignment _ _, _, _, _, h, _
  | .print _, _, _, _, h, _ | .returnValue _, _, _, _, h, _ | .yieldValue _, _, _, _, h, _
  | .comparison _ _, _, _, _, h, _ | .call _, _, _, _, h, _ => by
    simp only [Statement.folded, Statement.functionBodies, List.append_nil]
    exact h

theorem Statement.holds_foldAll : ∀ (statements : List Statement) {bodies : Bodies} {older : Nat}
    {entries : List (Func × List Statement)},
    bodies.Holds (older + Statement.declarationCountAll statements) entries →
      ((entries ++ Statement.functionBodiesAll (Statement.foldedAll statements)).map
        entryId).Nodup →
        (Statement.foldAll true bodies statements).2.Holds older
          (entries ++ Statement.functionBodiesAll (Statement.foldedAll statements))
  | [], _, _, _, h, _ => by
    simp only [Statement.foldedAll, Statement.functionBodiesAll, List.append_nil]
    exact h
  | statement :: rest, bodies, older, entries, h, hnodup => by
    simp only [Statement.foldedAll, Statement.functionBodiesAll, ← List.append_assoc]
      at hnodup ⊢
    rw [Statement.declarationCountAll, Nat.add_comm statement.declarationCount, ← Nat.add_assoc]
      at h
    refine Statement.holds_foldAll rest (Statement.holds_fold statement h ?_) hnodup
    rw [List.map_append] at hnodup
    exact (List.nodup_append.mp hnodup).1

end

/-! ### Programs and their bodies -/

/-- The functions of the program are declared in it, each once, and their handles lead to the bodies
of their declarations. -/
structure Program.KeepsBodies (program : Program) (bodies : Bodies) : Prop where
  numbered : ∃ last, Statement.AllScoped Frame.root [] 0 last program.statements
  declared : program.functions ⊆ (Statement.functionBodiesAll program.statements).map Prod.fst
  attached : bodies.Holds 0 (Statement.functionBodiesAll program.statements)

/-- What a source is analysed to. -/
theorem Source.exists_of_build {source : Source} {analysed : Program × Bodies}
    (h : source.build false = .ok analysed) :
    ∃ nodes results last, Analysis.statements source .initial nodes = .ok (results, last) ∧
      analysed = (⟨results⟩, last.bodies) := by
  obtain ⟨tree, -, h⟩ := exists_of_bind_eq_ok h
  obtain ⟨result, hresult, h⟩ := exists_of_bind_eq_ok h
  obtain rfl := Except.ok.inj h
  unfold Analysis.program at hresult
  split at hresult
  · next span nodes =>
    obtain ⟨⟨results, last⟩, hresults, hresult⟩ := exists_of_bind_eq_ok hresult
    obtain rfl := Except.ok.inj hresult
    exact ⟨nodes, results, last, hresults, rfl⟩
  · cases hresult

namespace Program.KeepsBodies

variable {program : Program} {bodies : Bodies}

theorem of_source {source : Source} {analysed : Program × Bodies}
    (h : source.build false = .ok analysed) : analysed.1.KeepsBodies analysed.2 := by
  have hprogram : source.program false = .ok analysed.1 := by
    rw [Source.program, h]
    rfl
  obtain ⟨last, hscoped⟩ := Source.scoped_of_program hprogram
  obtain ⟨nodes, results, finished, hresults, rfl⟩ := Source.exists_of_build h
  refine ⟨⟨last, hscoped⟩, ?_, ?_⟩
  · exact Analysis.functionsAll_of_sequence
      (Analysis.hereditary_functions.statements nodes hresults) Analysis.functionKnown_root
      (List.Subset.refl _)
  · rw [Analysis.attachesAll_of_sequence (Analysis.hereditary_attaches.statements nodes hresults)]
    exact Bodies.holds_empty.attachAll (Statement.numbered_functionBodiesAll _ hscoped).nodup

/-- Folding once more keeps it so. -/
theorem fold (h : program.KeepsBodies bodies) :
    (program.fold bodies).1.KeepsBodies (program.fold bodies).2 := by
  obtain ⟨last, hscoped⟩ := h.numbered
  have hfolded := Statement.allScoped_foldAll program.statements hscoped
  rw [Program.fold_fst]
  refine ⟨⟨last, hfolded⟩, ?_, ?_⟩
  · show Statement.functionsAll (Statement.foldedAll program.statements) ⊆
      (Statement.functionBodiesAll (Statement.foldedAll program.statements)).map Prod.fst
    rw [Statement.functionsAll_foldAll, Statement.functionBodiesAll_foldAll]
    exact h.declared
  · have hrenewed := h.attached.renew
    rw [Statement.length_functionBodiesAll, ← Nat.zero_add (Statement.declarationCountAll _)]
      at hrenewed
    exact Statement.holds_foldAll program.statements hrenewed
      (Statement.numbered_functionBodiesAll _ hfolded).nodup

theorem fold_iterate {state : Program × Bodies} (h : state.1.KeepsBodies state.2) (times : Nat) :
    ((Function.uncurry Program.fold)^[times] state).1.KeepsBodies
      ((Function.uncurry Program.fold)^[times] state).2 := by
  induction times with
  | zero => exact h
  | succ times ih =>
    rw [Function.iterate_succ_apply']
    exact ih.fold

/-- A function of the program has one declaration, and its body. -/
theorem exists_body (h : program.KeepsBodies bodies) {function : Func}
    (hfunction : function ∈ program.functions) :
    ∃ body, program.declarationsOf function = [(function, body)] ∧
      bodies.body? function = some body := by
  obtain ⟨last, hscoped⟩ := h.numbered
  obtain ⟨⟨_, body⟩, hentry, rfl⟩ := List.mem_map.mp (h.declared hfunction)
  have hnodup := (Statement.numbered_functionBodiesAll program.statements hscoped).nodup
  exact ⟨body, filter_entryId hnodup hentry, Bodies.body?_of_leads h.attached.leads _ hentry⟩

end Program.KeepsBodies

/-- The functions of an analysed program keep their bodies, however often it is folded: the analysis
and every folding attach a body to each of them, and the body that the handle of a function leads to
afterwards is that of its one declaration in the newest program. -/
theorem functions_keep_bodies {source : Source} {analysed : Program × Bodies}
    (h : source.build false = .ok analysed) (times : Nat) :
    ∀ function ∈ ((Function.uncurry Program.fold)^[times] analysed).1.functions,
      ∃ body,
        ((Function.uncurry Program.fold)^[times] analysed).1.declarationsOf function =
          [(function, body)] ∧
        ((Function.uncurry Program.fold)^[times] analysed).2.body? function = some body :=
  fun _ hfunction ↦
    ((Program.KeepsBodies.of_source h).fold_iterate times).exists_body hfunction

/-- A function inside another calls the outer one, which a later default calls too. -/
theorem functions_keep_bodies_nested :
    ∃ analysed,
      Source.build (.ofText ""
          "define f(a=1) then\n define g() then return f()+2*3\n g()\ndefine h(b=f()) then print h")
        false = .ok analysed ∧
      ((Function.uncurry Program.fold)^[2] analysed).1.functions.length = 9 ∧
      ∀ function ∈ ((Function.uncurry Program.fold)^[2] analysed).1.functions,
        ∃ body,
          ((Function.uncurry Program.fold)^[2] analysed).1.declarationsOf function =
            [(function, body)] ∧
          ((Function.uncurry Program.fold)^[2] analysed).2.body? function = some body := by
  refine (exists_of_any ?_).imp fun analysed h ↦ ⟨h.1, h.2, functions_keep_bodies h.1 2⟩
  decide +kernel

end Presage
