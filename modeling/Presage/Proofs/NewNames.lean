import Presage.Proofs.Resolution
import Presage.Proofs.Writing

/-!
Variables are bound under new names. `Script.Stmt.AllBindNew` walks a script with the names that are
bound so far in the blocks that are open, and says of every declaration and every loop header that
the name it introduces is not among them, nor among the names in its own initializer or bounds.

A name that is used is bound in an open block, because the entity it stands for is declared there;
`Covered` puts this together with the names bound so far, and is kept by statements and by opening
a block. A chosen name differs from all that are bound, so the scripts of sources bind new names
(`compile_bindsNew`), and no initializer reads the variable it is the initializer of.
-/

set_option autoImplicit false
set_option relaxedAutoImplicit false

namespace Presage

namespace Script

/-! ### Names bound in a script -/

/-- The names that a statement binds in the block it stands in. -/
def Stmt.binds : Stmt → List String
  | .declare name _ | .function _ name _ _ => [name]
  | _ => []

mutual

/-- Where the given names are bound so far in the open blocks, the variable that the statement
introduces has none of them and none of those in its initializer or its bounds, and so have the
variables inside of it. -/
def Stmt.BindsNew (bound : List String) : Stmt → Prop
  | .declare name value => name ∉ value.names ∧ name ∉ bound
  | .loop _ iterator low high body =>
    iterator ∉ low.names ∧ iterator ∉ high.names ∧ iterator ∉ bound ∧
      Stmt.AllBindNew (iterator :: bound) body
  | .function _ name parameters body =>
    Stmt.AllBindNew (parameters.map Parameter.name ++ name :: bound) body
  | _ => True

/-- Statements of one block in turn. -/
def Stmt.AllBindNew (bound : List String) : List Stmt → Prop
  | [] => True
  | first :: rest => Stmt.BindsNew bound first ∧ Stmt.AllBindNew (first.binds ++ bound) rest

end

end Script

/-! ### Visible names -/

namespace Emitter

/-- What a statement binds is visible after it. -/
theorem mem_visible_of_binds (emitter : Emitter) (statement : Statement) {name : String}
    (h : name ∈ (emitter.statement statement).1.binds) :
    name ∈ (emitter.statement statement).2.visible := by
  unfold visible
  rw [outer_statement, block_statement]
  refine List.mem_append_left _ ?_
  cases statement with
  | functionDeclaration name function parameters body =>
    rw [List.mem_singleton.mp h]
    exact List.mem_cons_self
  | variableDeclaration target initializer =>
    rw [List.mem_singleton.mp h]
    exact List.mem_cons_self
  | yieldValue value =>
    simp only [Emitter.statement] at h
    split at h <;> cases h
  | _ => cases h

/-- The parameters of a function are bound under their own names in its body. -/
theorem get?_enterFunction (emitter : Emitter) {parameters : List Parameter} {name : String}
    (h : name ∈ parameters.map Parameter.name) :
    (emitter.enterFunction parameters).block.get? name = some name := by
  have hbind : ∀ (parameters : List Parameter) (state : Emitter),
      state.block.get? name = some name ∨ name ∈ parameters.map Parameter.name →
        (parameters.foldl (fun state parameter ↦ state.bind parameter.name) state).block.get? name =
          some name := by
    intro parameters
    induction parameters with
    | nil => exact fun state hname ↦ hname.resolve_right List.not_mem_nil
    | cons parameter rest ih =>
      intro state hname
      refine ih (state.bind parameter.name) ?_
      by_cases hparameter : name = parameter.name
      · left
        rw [hparameter]
        exact (Bindings.get?_insert _ _ _ _).trans (if_pos (beq_self_eq_true _))
      · refine hname.imp (fun hbound ↦ ?_) fun hmem ↦ ?_
        · refine (Bindings.get?_insert _ _ _ _).trans ((if_neg ?_).trans hbound)
          exact fun heq ↦ hparameter (eq_of_beq heq)
        · exact (List.mem_cons.mp hmem).resolve_left hparameter
  exact hbind parameters emitter.openBlock (Or.inr h)

end Emitter

/-! ### Covered names -/

/-- The emitter stands in the frames of a program, whose uses it writes under visible names, and the
names bound so far are visible. No frame binds a struct type, which would not be declared. -/
structure Covered (emitter : Emitter) (next : Nat) (frame : Frame) (frames : List Frame)
    (bound : List String) : Prop where
  aligned : ∃ ownership level outer, Aligned emitter ownership next level outer ∧
    level.frame = frame ∧ outer.map Level.frame = frames
  structless : Frame.Each (fun _ entity ↦ ∀ target, entity ≠ .type (.struct target))
    (frame :: frames)
  visible : ∀ name ∈ bound, name ∈ emitter.visible

namespace Covered

variable {emitter : Emitter} {next last : Nat} {frame : Frame} {frames : List Frame}
  {bound : List String}

/-- A use that holds what its name means is written under a visible name. -/
theorem useName_mem_visible (h : Covered emitter next frame frames bound) {use : Use}
    (hfound : use.FoundIn (frame :: frames)) : emitter.useName use ∈ emitter.visible := by
  obtain ⟨ownership, level, outer, haligned, rfl, rfl⟩ := h.aligned
  have hdeclared : ∀ (name : String) (entity : Entity), entity.IsValue →
      Frame.lookup? ((level :: outer).map Level.frame) name = some entity →
        ∃ declaration : Script.Declaration, declaration.name ∈ emitter.visible ∧
          entity.WrittenBy emitter.nameOf ownership.owner declaration := by
    intro name entity hentity hlookup
    obtain ⟨declaration, -, hvisible, hwritten, -⟩ :=
      Level.exists_declaration haligned.sound hentity hlookup
    rw [haligned.visible_eq] at hvisible
    exact ⟨declaration, hvisible, hwritten⟩
  cases use with
  | reference target =>
    obtain ⟨declaration, hvisible, hwritten⟩ := hdeclared _ (.var target) trivial hfound
    show emitter.nameOf target ∈ emitter.visible
    rw [hwritten.1]
    exact hvisible
  | functionReference target =>
    obtain ⟨declaration, hvisible, rfl⟩ := hdeclared _ (.func target) trivial hfound
    exact hvisible
  | call target =>
    obtain ⟨declaration, hvisible, rfl⟩ := hdeclared _ (.func target) trivial hfound
    exact hvisible
  | construct target =>
    obtain ⟨name, hlookup⟩ := hfound
    exact (h.structless.of_lookup? hlookup target rfl).elim

/-- The names in a term are visible where it is emitted. -/
theorem names_visible (h : Covered emitter next frame frames bound) {value : Expr}
    (hfound : value.FoundIn (frame :: frames)) :
    ∀ name ∈ (emitter.term value).names, name ∈ emitter.visible := by
  intro name hname
  rw [Emitter.names_term] at hname
  obtain ⟨use, huse, rfl⟩ := List.mem_map.mp hname
  exact h.useName_mem_visible (hfound use huse)

/-- A name that is chosen is none of those in a term and none of those bound so far. -/
theorem freshName_new (h : Covered emitter next frame frames bound) (name : String) :
    (∀ value : Expr, value.FoundIn (frame :: frames) →
        Emitter.freshName emitter.visible name ∉ (emitter.term value).names) ∧
      Emitter.freshName emitter.visible name ∉ bound := by
  have hfresh := Emitter.freshName_not_mem emitter.visible name
  exact ⟨fun value hfound hmem ↦ hfresh (h.names_visible hfound _ hmem),
    fun hmem ↦ hfresh (h.visible _ hmem)⟩

/-- Meeting a statement, which may bind a name. -/
theorem after (h : Covered emitter next frame frames bound) {statement : Statement}
    (hscoped : statement.Scoped frame frames next last) :
    Covered (emitter.statement statement).2 last (frame.after statement) frames
      ((emitter.statement statement).1.binds ++ bound) := by
  obtain ⟨ownership, level, outer, haligned, rfl, rfl⟩ := h.aligned
  obtain ⟨hframe, hframes⟩ := Frame.each_cons.mp h.structless
  have hmirrors : emitter.block.Mirrors level.frame := haligned.block_eq ▸ haligned.sound.1.mirrors
  refine ⟨⟨_, _, outer, haligned.after hscoped, Level.frame_after _ _ _, rfl⟩, ?_, ?_⟩
  · exact Frame.each_cons.mpr ⟨hframe.after (fun _ _ ↦ nofun) fun _ _ _ _ _ ↦ nofun, hframes⟩
  · intro name hname
    rcases List.mem_append.mp hname with hnew | hold
    · exact Emitter.mem_visible_of_binds emitter statement hnew
    · exact Emitter.mem_visible_statement hmirrors hscoped (h.visible name hold)

/-- Nothing that is to come in a block has a taken name if nothing is to come. -/
theorem nothing_taken {taken : List String} :
    ∀ declaration ∈ ([] : Script.Block), declaration.keepsName = false →
      declaration.name ∉ taken := nofun

/-- Entering the body of a function. -/
theorem enterFunction (h : Covered emitter next frame frames bound) {name : String}
    {function : Func} {parameters : List Parameter} {body : List Statement}
    (hscoped : Statement.Scoped frame frames next last
      (.functionDeclaration name function parameters body)) :
    Covered ((emitter.bind name).enterFunction parameters)
      (next + 1 + function.parameters.length)
      (Frame.withParameters .empty (next + 1) function.parameters)
      (frame.insert function.name (.func function) :: frames)
      (parameters.map Parameter.name ++ name :: bound) := by
  have hafter := h.after hscoped
  obtain ⟨ownership, level, outer, haligned, rfl, rfl⟩ := h.aligned
  obtain ⟨rfl, hname, hid, hparameters, -, -⟩ := hscoped
  have hentered := (haligned.bindFunction hname).enterFunction (hid ▸ rfl) hparameters nothing_taken
  refine ⟨⟨_, _, _, hentered, Level.frame_withParameters _ _ _, rfl⟩, ?_, ?_⟩
  · exact Frame.each_cons.mpr
      ⟨Frame.each_empty.withParameters (fun _ _ ↦ nofun) _ _, hafter.structless⟩
  · intro other hmem
    unfold Emitter.visible
    rw [Emitter.enterFunction_outer]
    rcases List.mem_append.mp hmem with hparameter | hold
    · have hget := Emitter.get?_enterFunction (emitter.bind function.name) hparameter
      exact List.mem_append_left _ (Bindings.mem_values_of_get? hget)
    · have hvisible := hafter.visible other hold
      rw [Emitter.visible_functionDeclaration] at hvisible
      exact List.mem_append_right _ hvisible

/-- Entering the body of a loop. -/
theorem enterLoop (h : Covered emitter next frame frames bound) {iterator : Variable}
    (hid : iterator.id = next) :
    Covered (emitter.openBlock.declare iterator).2 (next + 1)
      (Bindings.empty.insert iterator.name (.var iterator)) (frame :: frames)
      ((emitter.openBlock.declare iterator).1 :: bound) := by
  obtain ⟨ownership, level, outer, haligned, rfl, rfl⟩ := h.aligned
  refine ⟨⟨_, _, _, haligned.enterLoop hid nothing_taken, rfl, rfl⟩, ?_, ?_⟩
  · exact Frame.each_cons.mpr ⟨Frame.each_empty.insert fun _ ↦ nofun, h.structless⟩
  · intro name hname
    rcases List.mem_cons.mp hname with rfl | hold
    · exact List.mem_cons_self
    · exact List.mem_cons_of_mem _ (h.visible name hold)

end Covered

/-! ### Emitted statements bind new names -/

mutual

/-- The script of a statement binds new names. -/
theorem Statement.bindsNew : ∀ (statement : Statement) {emitter : Emitter} {next last : Nat}
    {frame : Frame} {frames : List Frame} {bound : List String},
    Covered emitter next frame frames bound → statement.Scoped frame frames next last →
      (emitter.statement statement).1.BindsNew bound
  | .functionDeclaration _ _ parameters body, emitter, _, _, _, _, _, hcovered, hscoped => by
    have hbody := Statement.allBindNew body (hcovered.enterFunction hscoped) hscoped.2.2.2.2.2
    have hnames : (parameters.map emitter.parameter).map Script.Parameter.name =
        parameters.map Parameter.name := by
      rw [List.map_map]
      rfl
    simp only [Emitter.statement, Script.Stmt.BindsNew, hnames]
    exact hbody
  | .variableDeclaration target value, _, _, _, _, _, _, hcovered, ⟨_, _, _, hfound⟩ =>
    ⟨(hcovered.freshName_new target.name).1 value hfound, (hcovered.freshName_new target.name).2⟩
  | .variableReassignment _ _, _, _, _, _, _, _, _, _ => trivial
  | .predictiveLoop iterator low high _ body, _, _, _, _, _, _, hcovered,
      ⟨_, hid, hlow, hhigh, hbody⟩ => by
    obtain ⟨hterm, hbound⟩ := hcovered.freshName_new iterator.name
    exact ⟨hterm low hlow, hterm high hhigh, hbound,
      Statement.allBindNew body (hcovered.enterLoop hid) hbody⟩
  | .comparison _ _, _, _, _, _, _, _, _, _ => trivial
  | .print _, _, _, _, _, _, _, _, _ => trivial
  | .returnValue _, _, _, _, _, _, _, _, _ => trivial
  | .yieldValue _, _, _, _, _, _, _, _, _ => by
    simp only [Emitter.statement]
    split <;> trivial
  | .call _, _, _, _, _, _, _, _, _ => trivial

theorem Statement.allBindNew : ∀ (statements : List Statement) {emitter : Emitter}
    {next last : Nat} {frame : Frame} {frames : List Frame} {bound : List String},
    Covered emitter next frame frames bound →
    Statement.AllScoped frame frames next last statements →
      Script.Stmt.AllBindNew bound (emitter.statements statements).1
  | [], _, _, _, _, _, _, _, _ => trivial
  | first :: rest, _, _, _, _, _, _, hcovered, ⟨_, hfirst, hrest⟩ =>
    ⟨Statement.bindsNew first hcovered hfirst,
      Statement.allBindNew rest (hcovered.after hfirst) hrest⟩

end

/-! ### Scripts of sources -/

/-- The outermost frame binds no struct type. -/
theorem Frame.structless_root :
    Frame.Each (fun _ entity ↦ ∀ target, entity ≠ .type (.struct target)) [Frame.root] :=
  Frame.each_root fun _ ↦ Context.standardTypes_ne_struct

theorem covered_initial : Covered .initial 0 Frame.root [] [] where
  aligned := ⟨_, _, _, aligned_initial, rfl, rfl⟩
  structless := Frame.structless_root
  visible _ hmem := nomatch hmem

/-- The text that a source is compiled to, folded or not, is that of a script in which every
variable is bound under a new name. -/
theorem compile_bindsNew {source : Source} {folded : Bool} {text : String}
    (h : source.compile folded = .ok text) :
    ∃ program, source.program folded = .ok program ∧ text = Script.render program.script ∧
      Script.Stmt.AllBindNew [] program.script := by
  obtain ⟨program, hprogram, htext⟩ := Source.exists_of_compile h
  obtain ⟨last, hscoped⟩ := Source.scoped_of_program hprogram
  exact ⟨program, hprogram, htext,
    Statement.allBindNew program.statements covered_initial hscoped⟩

/-- The theorem at a source where a variable inside a function takes the name of the one that its
initializer reads. -/
theorem compile_bindsNew_shadowing :
    ∃ source, source = Source.ofText "" "let a = 1\ndefine g() then\n  let a = a + 1\n  return a" ∧
      ∃ text, source.compile true = .ok text ∧
        ∃ program, source.program true = .ok program ∧ text = Script.render program.script ∧
          Script.Stmt.AllBindNew [] program.script :=
  ⟨_, rfl, Exists.imp (fun _ htext ↦ ⟨htext, compile_bindsNew htext⟩)
    (exists_of_isOk (by decide +kernel))⟩

end Presage
