import Mathlib.Data.List.Nodup
import Mathlib.Order.Defs.LinearOrder
import Presage.Proofs.Levels

/-!
What the names of an emitted script resolve to. The analysis and the emitter walk a program in the
same steps, and `Aligned` says that their states fit: the blocks, the names and the identities are
those of sound levels, with nothing said yet of what is to come in the innermost block. Meeting a
statement keeps the states aligned (`Aligned.after`), and so does opening a block
(`Aligned.enterFunction`, `Aligned.enterLoop`). At each use the rest of the block is added, which is
possible since the names that it chooses are new (`Emitter.fresh_declarations`) and its identities
too (`Statement.ascending_declarations`).

The main statement is `resolves_unless_captured`. In the script of an accepted source every name
stands in the blocks of exactly one declaration of its entity, and resolves to that declaration
unless a function or a parameter takes the name: variables capture nothing but the names of
functions.
-/

set_option autoImplicit false
set_option relaxedAutoImplicit false

namespace Presage

open Script (Declaration Block)

/-! ### Declarations of emitted statements -/

/-- What a statement declares when it is emitted. -/
def Emitter.declaration? (emitter : Emitter) : Statement → Option Declaration
  | .functionDeclaration name function _ _ => some ⟨.function, name, function.id⟩
  | .variableDeclaration target _ => some ⟨.variable, (emitter.declare target).1, target.id⟩
  | _ => none

theorem Emitter.declaration?_statement (emitter : Emitter) (statement : Statement) :
    statement.declaration? (emitter.statement statement).1 = emitter.declaration? statement := by
  cases statement with
  | yieldValue value =>
    simp only [Emitter.statement]
    split <;> rfl
  | _ => rfl

/-- The declarations of emitted statements, one statement after the other. -/
theorem Emitter.declarations_statements_cons (emitter : Emitter) (first : Statement)
    (rest : List Statement) :
    Statement.declarations (first :: rest) (emitter.statements (first :: rest)).1 =
      (emitter.declaration? first).toList ++
        Statement.declarations rest ((emitter.statement first).2.statements rest).1 := by
  simp only [Emitter.statements, Statement.declarations, declaration?_statement]

/-- A declaration has the first identity of its statement. -/
theorem Emitter.owner_declaration? {emitter : Emitter} {statement : Statement} {frame : Frame}
    {outer : List Frame} {next last : Nat} (hscoped : statement.Scoped frame outer next last)
    {declaration : Declaration} (h : declaration ∈ emitter.declaration? statement) :
    declaration.owner = next ∧ next < last := by
  cases statement with
  | functionDeclaration name function parameters body =>
    obtain ⟨-, -, hid, -, -, hbody⟩ := hscoped
    obtain rfl := Option.some.inj h
    have hle := (Emitter.names_statements emitter body hbody).le
    exact ⟨hid, by omega⟩
  | variableDeclaration target initializer =>
    obtain ⟨-, hid, hlast, -⟩ := hscoped
    obtain rfl := Option.some.inj h
    exact ⟨hid, by omega⟩
  | _ => cases h

/-- The declarations of scoped statements have increasing identities. -/
theorem Statement.ascending_declarations {statements : List Statement} {frame : Frame}
    {outer : List Frame} {next last : Nat} (emitter : Emitter)
    (h : Statement.AllScoped frame outer next last statements) :
    Level.Ascending next last
      (Statement.declarations statements (emitter.statements statements).1) := by
  induction statements generalizing frame next emitter with
  | nil => exact ⟨List.Pairwise.nil, fun declaration hmem ↦ by cases hmem⟩
  | cons first rest ih =>
    obtain ⟨middle, hfirst, hrest⟩ := h
    have hle := (Emitter.names_statement emitter first hfirst).le
    have hrestLe := (Emitter.names_statements emitter rest hrest).le
    obtain ⟨hpairwise, hbounds⟩ := ih (emitter.statement first).2 hrest
    rw [Emitter.declarations_statements_cons]
    cases hdeclaration : emitter.declaration? first with
    | none =>
      refine ⟨hpairwise, fun declaration hmem ↦ ?_⟩
      have hbound := hbounds declaration hmem
      omega
    | some declaration =>
      obtain ⟨howner, hlt⟩ := Emitter.owner_declaration? hfirst hdeclaration
      refine ⟨List.pairwise_cons.mpr ⟨fun owner hmem ↦ ?_, hpairwise⟩, fun other hmem ↦ ?_⟩
      · obtain ⟨later, hlater, rfl⟩ := List.mem_map.mp hmem
        have hbound := hbounds later hlater
        omega
      · rcases List.mem_cons.mp hmem with rfl | hlater
        · omega
        · have hbound := hbounds other hlater
          omega

/-- The names that statements will choose are not visible before they are met. -/
theorem Emitter.fresh_declarations {statements : List Statement} {emitter : Emitter} {frame : Frame}
    {outer : List Frame} {next last : Nat} (hmirrors : emitter.block.Mirrors frame)
    (h : Statement.AllScoped frame outer next last statements) :
    ∀ declaration ∈ Statement.declarations statements (emitter.statements statements).1,
      declaration.keepsName = false → declaration.name ∉ emitter.visible := by
  induction statements generalizing frame next emitter with
  | nil =>
    intro declaration hmem
    cases hmem
  | cons first rest ih =>
    obtain ⟨middle, hfirst, hrest⟩ := h
    intro declaration hmem hchosen
    rw [Emitter.declarations_statements_cons] at hmem
    rcases List.mem_append.mp hmem with hnow | hlater
    · have hdeclaration := Option.mem_toList.mp hnow
      cases first with
      | functionDeclaration name function parameters body =>
        obtain rfl := Option.some.inj hdeclaration
        cases hchosen
      | variableDeclaration target initializer =>
        obtain rfl := Option.some.inj hdeclaration
        exact freshName_not_mem emitter.visible target.name
      | _ => cases hdeclaration
    · intro hvisible
      refine ih (hmirrors.step hfirst) hrest declaration hlater hchosen ?_
      exact Emitter.mem_visible_statement hmirrors hfirst hvisible

/-! ### Names of parameters -/

/-- What the names of parameters introduce depends on the names alone. -/
theorem Script.Parameter.declarations_congr {first second : List Script.Parameter}
    (h : first.map Script.Parameter.name = second.map Script.Parameter.name) (next : Nat) :
    Script.Parameter.declarations next first = Script.Parameter.declarations next second := by
  induction first generalizing second next with
  | nil =>
    obtain rfl := List.map_eq_nil_iff.mp h.symm
    rfl
  | cons parameter rest ih =>
    obtain ⟨other, others, rfl, hname, hnames⟩ := List.map_eq_cons_iff.mp h.symm
    simp only [Script.Parameter.declarations, hname, ih hnames.symm]

theorem Ownership.declareParameters_congr {first second : List Parameter}
    (h : first.map Parameter.name = second.map Parameter.name) (declared : Bindings String Nat)
    (next : Nat) :
    declareParameters declared next first = declareParameters declared next second := by
  induction first generalizing second declared next with
  | nil =>
    obtain rfl := List.map_eq_nil_iff.mp h.symm
    rfl
  | cons parameter rest ih =>
    obtain ⟨other, others, rfl, hname, hnames⟩ := List.map_eq_cons_iff.mp h.symm
    simp only [declareParameters, hname, ih hnames.symm]

theorem Emitter.enterFunction_congr (emitter : Emitter) {first second : List Parameter}
    (h : first.map Parameter.name = second.map Parameter.name) :
    emitter.enterFunction first = emitter.enterFunction second := by
  have hbind : ∀ parameters : List Parameter, ∀ state : Emitter,
      parameters.foldl (fun state parameter ↦ state.bind parameter.name) state =
        (parameters.map Parameter.name).foldl Emitter.bind state :=
    fun parameters state ↦ List.foldl_map.symm
  unfold enterFunction
  rw [hbind first, hbind second, h]

/-- The variables of parameters have the identities from `next` on. -/
theorem Frame.below_withParameters {parameters : List Parameter} {frame : Frame} {next : Nat}
    (h : ∀ name target, frame.get? name = some (.var target) → target.id < next) {name : String}
    {target : Variable}
    (htarget : (frame.withParameters next parameters).get? name = some (.var target)) :
    target.id < next + parameters.length := by
  induction parameters generalizing frame next with
  | nil => exact h name target htarget
  | cons parameter rest ih =>
    rw [List.length_cons, Nat.add_comm rest.length 1, ← Nat.add_assoc]
    refine ih (fun bound earlier hearlier ↦ ?_) htarget
    rw [Bindings.get?_insert] at hearlier
    split at hearlier
    · obtain rfl := Entity.var.inj (Option.some.inj hearlier)
      exact Nat.lt_succ_self next
    · exact Nat.lt_succ_of_lt (h bound earlier hearlier)

/-! ### Aligned states -/

/-- The states of the emitter and of the walk over identities fit the levels, where all identities
are below `next` and nothing is said of what is to come in the innermost block. -/
structure Aligned (emitter : Emitter) (ownership : Ownership) (next : Nat) (level : Level)
    (outer : List Level) : Prop where
  block_eq : level.block = emitter.block
  outer_eq : outer.map Level.block = emitter.outer
  declared_eq : level.declared = ownership.declared
  future_eq : level.future = []
  names_below : emitter.NamesBelow next
  rebound_below : ∀ id owner, ownership.rebound.get? id = some owner → id < next
  frames_below : ∀ other ∈ level :: outer, ∀ name target,
    other.frame.get? name = some (.var target) → target.id < next
  sound : Level.AllSound emitter.nameOf ownership.owner (level :: outer)

namespace Aligned

variable {emitter : Emitter} {ownership : Ownership} {next : Nat} {level : Level}
  {outer : List Level}

theorem visible_eq (h : Aligned emitter ownership next level outer) :
    Level.visible (level :: outer) = emitter.visible := by
  unfold Level.visible Emitter.visible
  rw [List.flatMap_cons, List.flatMap_cons, h.block_eq, ← h.outer_eq, List.flatMap_map]

/-- A new variable is written under its own name and stands for itself. -/
theorem new_variable (h : Aligned emitter ownership next level outer) {target : Variable}
    (htarget : next ≤ target.id) :
    emitter.nameOf target = target.name ∧ ownership.owner target = target.id := by
  have hname : emitter.names.get? target.id = none := by
    cases hget : emitter.names.get? target.id with
    | none => rfl
    | some written => exact absurd (h.names_below target.id written hget) (Nat.not_lt.mpr htarget)
  have howner : ownership.rebound.get? target.id = none := by
    cases hget : ownership.rebound.get? target.id with
    | none => rfl
    | some owner => exact absurd (h.rebound_below target.id owner hget) (Nat.not_lt.mpr htarget)
  unfold Emitter.nameOf Ownership.owner
  rw [hname, howner]
  exact ⟨rfl, rfl⟩

/-- Names and owners of the variables that are bound stay when the states grow. -/
theorem sound_of_grow (h : Aligned emitter ownership next level outer) (emitter' : Emitter)
    (ownership' : Ownership)
    (hnames : ∀ id < next, emitter'.names.get? id = emitter.names.get? id)
    (hrebound : ∀ id < next, ownership'.rebound.get? id = ownership.rebound.get? id) :
    Level.AllSound emitter'.nameOf ownership'.owner (level :: outer) := by
  refine h.sound.congr fun other hother name target htarget ↦ ?_
  have hid := h.frames_below other hother name target htarget
  unfold Emitter.nameOf Ownership.owner
  rw [hnames target.id hid, hrebound target.id hid]
  exact ⟨rfl, rfl⟩

/-- Names for other identities do not matter. -/
theorem mono (h : Aligned emitter ownership next level outer) {emitter' : Emitter} {last : Nat}
    (hblock : emitter'.block = emitter.block) (houter : emitter'.outer = emitter.outer)
    (hgrow : Emitter.NamesGrow emitter emitter' next last) :
    Aligned emitter' ownership last level outer where
  block_eq := h.block_eq.trans hblock.symm
  outer_eq := h.outer_eq.trans houter.symm
  declared_eq := h.declared_eq
  future_eq := h.future_eq
  names_below := hgrow.below h.names_below
  rebound_below id owner howner := Nat.lt_of_lt_of_le (h.rebound_below id owner howner) hgrow.le
  frames_below other hother name target htarget :=
    Nat.lt_of_lt_of_le (h.frames_below other hother name target htarget) hgrow.le
  sound := h.sound_of_grow emitter' ownership hgrow.old fun _ _ ↦ rfl

/-- Binding a name leaves the identities in the frames below `last`. -/
theorem frames_below_insert (h : Aligned emitter ownership next level outer) {changed : Level}
    {name : String} {entity : Entity} {last : Nat} (hlast : next ≤ last)
    (hframe : changed.frame = level.frame.insert name entity)
    (hentity : ∀ target, entity = .var target → target.id < last) :
    ∀ other ∈ changed :: outer, ∀ bound target,
      other.frame.get? bound = some (.var target) → target.id < last := by
  intro other hother bound target htarget
  rcases List.mem_cons.mp hother with rfl | houter
  · rw [hframe, Bindings.get?_insert] at htarget
    split at htarget
    · exact hentity target (Option.some.inj htarget)
    · have hlt := h.frames_below level List.mem_cons_self bound target htarget
      exact Nat.lt_of_lt_of_le hlt hlast
  · have hlt := h.frames_below other (List.mem_cons_of_mem level houter) bound target htarget
    exact Nat.lt_of_lt_of_le hlt hlast

/-- Declaring a variable, in a line of its own or as an iterator. Assumes: a name that the frame
does not bind to a value, and the next identity. -/
theorem declareVariable (h : Aligned emitter ownership next level outer) {target : Variable}
    (hname : ¬ level.frame.BindsValue target.name) (hid : target.id = next)
    {introduction : Script.Introduction} (hparameter : introduction ≠ .parameter) :
    Aligned (emitter.declare target).2
      { ownership with declared := ownership.declared.insert target.name target.id } (next + 1)
      (level.declare target.name (.var target)
        ⟨introduction, (emitter.declare target).1, target.id⟩)
      outer where
  block_eq := by
    show level.block.insert target.name _ = emitter.block.insert target.name _
    rw [h.block_eq]
    rfl
  outer_eq := h.outer_eq
  declared_eq := by
    show level.declared.insert target.name target.id = _
    rw [h.declared_eq]
  future_eq := rfl
  names_below := (Emitter.namesGrow_declare emitter hid).below h.names_below
  rebound_below id owner howner := Nat.lt_succ_of_lt (h.rebound_below id owner howner)
  frames_below := by
    refine h.frames_below_insert (Nat.le_succ next) rfl fun other hother ↦ ?_
    obtain rfl := Entity.var.inj hother
    exact hid ▸ Nat.lt_succ_self _
  sound := by
    have hgrown := h.sound_of_grow (emitter.declare target).2
      { ownership with declared := ownership.declared.insert target.name target.id }
      (Emitter.namesGrow_declare emitter hid).old fun _ _ ↦ rfl
    refine ⟨hgrown.1.declare ?_ ⟨?_, ?_⟩ ?_ fun hintroduction ↦ (hparameter hintroduction).elim,
      hgrown.2⟩
    · intro written hwritten
      exact (Bindings.mem_values_insert_of_unbound (hgrown.1.mirrors.unbound hname)).mpr
        (Or.inr hwritten)
    · show ((emitter.names.insert target.id _).get? target.id).getD _ = _
      rw [Bindings.get?_insert, if_pos (beq_self_eq_true _)]
      rfl
    · exact (h.new_variable (Nat.le_of_eq hid.symm)).2
    · intro _
      rw [h.visible_eq]
      exact Emitter.freshName_not_mem emitter.visible target.name

/-- Binding a function under its own name. -/
theorem bindFunction (h : Aligned emitter ownership next level outer) {function : Func}
    (hname : level.frame.get? function.name = none) :
    Aligned (emitter.bind function.name)
      { ownership with declared := ownership.declared.insert function.name function.id } (next + 1)
      (level.declare function.name (.func function) ⟨.function, function.name, function.id⟩)
      outer where
  block_eq := by
    show level.block.insert function.name function.name = _
    rw [h.block_eq]
    rfl
  outer_eq := h.outer_eq
  declared_eq := by
    show level.declared.insert function.name function.id = _
    rw [h.declared_eq]
  future_eq := rfl
  names_below id written hwritten := Nat.lt_succ_of_lt (h.names_below id written hwritten)
  rebound_below id owner howner := Nat.lt_succ_of_lt (h.rebound_below id owner howner)
  frames_below := by
    refine h.frames_below_insert (Nat.le_succ next) rfl fun other hother ↦ ?_
    cases hother
  sound := by
    have hunbound := h.sound.1.mirrors.unbound (Analysis.not_bindsValue_of_unbound hname)
    refine ⟨h.sound.1.declare (fun written hwritten ↦ ?_) rfl (fun hchosen ↦ ?_)
      (fun hintroduction ↦ ?_), h.sound.2⟩
    · exact (Bindings.mem_values_insert_of_unbound hunbound).mpr (Or.inr hwritten)
    · cases hchosen
    · cases hintroduction

/-- Rebinding a name that the frame binds to a value. -/
theorem rebindVariable (h : Aligned emitter ownership next level outer) {target : Variable}
    {value : Expr} (hname : level.frame.BindsValue target.name) (hid : target.id = next) :
    Aligned (emitter.rebind target).2 (ownership.after (.variableReassignment target value))
      (next + 1) (level.rebind target.name (.var target)) outer := by
  obtain ⟨entity, hentity, hvalue⟩ := id hname
  obtain ⟨declaration, -, hwritten, howner, -⟩ := h.sound.1.bound target.name entity hentity hvalue
  have hmirrors : emitter.block.Mirrors level.frame := h.block_eq ▸ h.sound.1.mirrors
  obtain ⟨written, hget, hrebind⟩ := hmirrors.rebind_eq hname
  have hdeclared : ownership.declared.get? target.name = some declaration.owner :=
    h.declared_eq ▸ howner
  have hafter : ownership.after (.variableReassignment target value) =
      { ownership with rebound := ownership.rebound.insert target.id declaration.owner } := by
    simp only [Ownership.after, hdeclared]
  have hgrow := Emitter.namesGrow_rebind emitter hid
  have hrebound : ∀ id < next,
      (ownership.rebound.insert target.id declaration.owner).get? id =
        ownership.rebound.get? id := by
    intro id hlt
    rw [Bindings.get?_insert, if_neg]
    simpa [hid] using Nat.ne_of_lt hlt
  rw [hafter]
  rw [hrebind] at hgrow ⊢
  have hgrown := h.sound_of_grow { emitter with names := emitter.names.insert target.id written }
    { ownership with rebound := ownership.rebound.insert target.id declaration.owner }
    hgrow.old hrebound
  exact
    { block_eq := h.block_eq
      outer_eq := h.outer_eq
      declared_eq := h.declared_eq
      future_eq := h.future_eq
      names_below := hgrow.below h.names_below
      rebound_below := by
        intro id owner hid'
        rw [Bindings.get?_insert] at hid'
        split at hid'
        · next heq =>
          rw [eq_of_beq heq, hid]
          exact Nat.lt_succ_self next
        · exact Nat.lt_succ_of_lt (h.rebound_below id owner hid')
      frames_below := by
        refine h.frames_below_insert (Nat.le_succ next) rfl fun other hother ↦ ?_
        obtain rfl := Entity.var.inj hother
        exact hid ▸ Nat.lt_succ_self _
      sound := by
        refine ⟨hgrown.1.rebind hname ?_ ?_, hgrown.2⟩
        · rw [h.block_eq, hget]
          show _ = some (((emitter.names.insert target.id written).get? target.id).getD _)
          rw [Bindings.get?_insert, if_pos (beq_self_eq_true _)]
          rfl
        · rw [howner]
          show _ = some (((ownership.rebound.insert target.id _).get? target.id).getD _)
          rw [Bindings.get?_insert, if_pos (beq_self_eq_true _)]
          rfl }

/-- Opening a block, with what is to come in the block around it. -/
theorem openBlock (h : Aligned emitter ownership next level outer) {future : Block}
    (hfuture : ∀ declaration ∈ future, declaration.keepsName = false →
      declaration.name ∉ emitter.visible) :
    Aligned emitter.openBlock { ownership with declared := .empty } next .empty
      (level.withFuture future :: outer) where
  block_eq := rfl
  outer_eq := by
    show level.block :: outer.map Level.block = emitter.block :: emitter.outer
    rw [h.block_eq, h.outer_eq]
  declared_eq := rfl
  future_eq := rfl
  names_below := h.names_below
  rebound_below := h.rebound_below
  frames_below other hother name target htarget := by
    rcases List.mem_cons.mp hother with rfl | hother
    · cases htarget
    · rcases List.mem_cons.mp hother with rfl | houter
      · exact h.frames_below level List.mem_cons_self name target htarget
      · exact h.frames_below other (List.mem_cons_of_mem level houter) name target htarget
  sound := by
    rw [← h.visible_eq] at hfuture
    exact ⟨Level.sound_empty _, h.sound.1.withFuture hfuture, h.sound.2⟩

/-- Opening the block of a loop, with its iterator. -/
theorem enterLoop (h : Aligned emitter ownership next level outer) {iterator : Variable}
    (hid : iterator.id = next) {future : Block}
    (hfuture : ∀ declaration ∈ future, declaration.keepsName = false →
      declaration.name ∉ emitter.visible) :
    Aligned (emitter.openBlock.declare iterator).2 (ownership.enterLoop iterator) (next + 1)
      (Level.empty.declare iterator.name (.var iterator)
        ⟨.iterator, (emitter.openBlock.declare iterator).1, iterator.id⟩)
      (level.withFuture future :: outer) := by
  refine (h.openBlock hfuture).declareVariable ?_ hid fun hintroduction ↦ ?_
  · rintro ⟨entity, hentity, -⟩
    cases hentity
  · cases hintroduction

/-- Opening the block of a function, with its parameters. Assumes: the parameters of the declaration
have the names of those of the function. -/
theorem enterFunction (h : Aligned emitter ownership next level outer) {function : Func}
    {parameters : List Parameter} (hid : function.id + 1 = next)
    (hparameters : parameters.map Parameter.name = function.parameters.map Parameter.name)
    {future : Block} (hfuture : ∀ declaration ∈ future, declaration.keepsName = false →
      declaration.name ∉ emitter.visible) :
    Aligned (emitter.enterFunction parameters) (ownership.enterFunction function parameters)
      (next + function.parameters.length) (Level.empty.withParameters next function.parameters)
      (level.withFuture future :: outer) := by
  have hopened := h.openBlock hfuture
  have hle : next ≤ next + function.parameters.length := Nat.le_add_right _ _
  have hnameOf : (emitter.enterFunction parameters).nameOf = emitter.nameOf := by
    unfold Emitter.nameOf
    rw [Emitter.enterFunction_names]
  exact
    { block_eq := by
        rw [Emitter.enterFunction_congr emitter hparameters]
        have hblock : Level.empty.block = emitter.openBlock.block := rfl
        exact Level.block_withParameters _ next function.parameters hblock
      outer_eq := hopened.outer_eq.trans (Emitter.enterFunction_outer emitter parameters).symm
      declared_eq := by
        rw [Level.declared_withParameters]
        subst hid
        exact (Ownership.declareParameters_congr hparameters _ _).symm
      future_eq := Level.future_withParameters rfl next function.parameters
      names_below := by
        intro id written hwritten
        rw [Emitter.enterFunction_names] at hwritten
        exact Nat.lt_of_lt_of_le (h.names_below id written hwritten) hle
      rebound_below := fun id owner howner ↦
        Nat.lt_of_lt_of_le (h.rebound_below id owner howner) hle
      frames_below := by
        intro other hother name target htarget
        rcases List.mem_cons.mp hother with rfl | houter
        · rw [Level.frame_withParameters] at htarget
          refine Frame.below_withParameters (fun bound earlier hearlier ↦ ?_) htarget
          cases hearlier
        · have hlt := hopened.frames_below other (List.mem_cons_of_mem _ houter) name target htarget
          exact Nat.lt_of_lt_of_le hlt hle
      sound := by
        rw [hnameOf]
        refine ⟨(Level.sound_empty _).withParameters ?_ ?_ (fun target ↦ h.new_variable) _,
          hopened.sound.2⟩
        · intro declaration hdeclaration
          cases hdeclaration
        · intro entry hentry
          cases hentry }

end Aligned

/-! ### Meeting a statement -/

/-- The level after a statement has been met. -/
def Level.after (level : Level) (emitter : Emitter) : Statement → Level
  | .functionDeclaration name function _ _ =>
    level.declare function.name (.func function) ⟨.function, name, function.id⟩
  | .variableDeclaration target _ =>
    level.declare target.name (.var target) ⟨.variable, (emitter.declare target).1, target.id⟩
  | .variableReassignment target _ => level.rebind target.name (.var target)
  | _ => level

theorem Level.frame_after (level : Level) (emitter : Emitter) (statement : Statement) :
    (level.after emitter statement).frame = level.frame.after statement := by
  cases statement <;> rfl

theorem Level.past_after (level : Level) (emitter : Emitter) (statement : Statement) :
    (level.after emitter statement).past =
      level.past ++ (emitter.declaration? statement).toList := by
  cases statement with
  | functionDeclaration name function parameters body => rfl
  | variableDeclaration target initializer => rfl
  | _ => exact (List.append_nil level.past).symm

/-- A scoped statement takes the identities from `next` up to `middle`. -/
theorem Level.Separate.after {next middle last : Nat} {level : Level} {outer : List Level}
    (h : Level.Separate next last (level :: outer)) (hfuture : level.future = [])
    (emitter : Emitter) {statement : Statement} {frames : List Frame}
    (hscoped : statement.Scoped level.frame frames next middle) (hlast : middle ≤ last) :
    Level.Separate middle last (level.after emitter statement :: outer) := by
  have hle := (Emitter.names_statement emitter statement hscoped).le
  have hdeclared : ∀ name entity declaration,
      declaration ∈ emitter.declaration? statement →
        Level.Separate middle last (level.declare name entity declaration :: outer) := by
    intro name entity declaration hdeclaration
    obtain ⟨howner, hlt⟩ := Emitter.owner_declaration? hscoped hdeclaration
    have hmet := h.declare hfuture (Nat.lt_of_lt_of_le hlt hlast) name entity declaration howner
    exact hmet.mono hlt (Nat.le_refl last)
  cases statement with
  | functionDeclaration name function parameters body => exact hdeclared _ _ _ rfl
  | variableDeclaration target initializer => exact hdeclared _ _ _ rfl
  | variableReassignment target value =>
    -- Identities are read off the declarations, which stay the same.
    have hmono := h.mono hle (Nat.le_refl last)
    exact
      { nodup := hmono.nodup
        past_below := List.forall_mem_cons.mpr (List.forall_mem_cons.mp hmono.past_below)
        future_above := List.forall_mem_cons.mpr (List.forall_mem_cons.mp hmono.future_above) }
  | _ => exact h.mono hle (Nat.le_refl last)

/-- Meeting a statement keeps the states aligned. -/
theorem Aligned.after {emitter : Emitter} {ownership : Ownership} {next last : Nat} {level : Level}
    {outer : List Level} (h : Aligned emitter ownership next level outer) {statement : Statement}
    (hscoped : statement.Scoped level.frame (outer.map Level.frame) next last) :
    Aligned (emitter.statement statement).2 (ownership.after statement) last
      (level.after emitter statement) outer := by
  have hgrow := Emitter.names_statement emitter statement hscoped
  have hblock := Emitter.block_statement emitter statement
  have houter := Emitter.outer_statement emitter statement
  cases statement with
  | functionDeclaration name function parameters body =>
    obtain ⟨rfl, hname, hid, -, -, hbody⟩ := hscoped
    have hbound := h.bindFunction hname
    have hbodyGrow := Emitter.names_statements
      ((emitter.bind function.name).enterFunction parameters) body hbody
    exact hbound.mono hblock houter (hbodyGrow.functionDeclaration (Nat.le_add_right _ _))
  | variableDeclaration target initializer =>
    obtain ⟨hname, hid, rfl, -⟩ := hscoped
    exact h.declareVariable hname hid fun hintroduction ↦ by cases hintroduction
  | variableReassignment target value =>
    obtain ⟨hname, hid, rfl, -⟩ := hscoped
    exact h.rebindVariable hname hid
  | _ => exact h.mono hblock houter hgrow

/-! ### Occurrences -/

/-- The entity of a use has exactly one declaration in the open blocks, under the written name. In
the blocks out to it, another declaration of that name is a function or a parameter, unless the
entity itself is a function. -/
def Occurrence.Declared (occurrence : Occurrence) : Prop :=
  ∀ owner ∈ occurrence.owner?, ∃ own ∈ occurrence.blocks.flatten,
    own.owner = owner ∧ own.name = occurrence.name ∧
      (∀ other ∈ occurrence.blocks.flatten, other.owner = owner → other = own) ∧
      ∀ other ∈ Script.reach own occurrence.blocks, other.name = own.name → other ≠ own →
        other.keepsName = true ∨ own.introduction = .function

/-- The declaration of an entity in sound levels, whose identities are all different. -/
theorem Level.declared_of_lookup {emitter : Emitter} {ownership : Ownership} {first last : Nat}
    {levels : List Level} (hsound : Level.AllSound emitter.nameOf ownership.owner levels)
    (hseparate : Level.Separate first last levels) {use : Use} {name written : String} {owner : Nat}
    {entity : Entity} (hlookup : Frame.lookup? (levels.map Level.frame) name = some entity)
    (hvalue : entity.IsValue)
    (hwritten : ∀ declaration : Declaration,
      entity.WrittenBy emitter.nameOf ownership.owner declaration →
        declaration.owner = owner ∧ declaration.name = written) :
    Occurrence.Declared ⟨use, some owner, written, levels.map Level.declarations⟩ := by
  intro found hfound
  obtain rfl := Option.some.inj hfound
  obtain ⟨own, hmem, -, hown, hothers⟩ := Level.exists_declaration hsound hvalue hlookup
  obtain ⟨howner, hname⟩ := hwritten own hown
  refine ⟨own, hmem, howner, hname, fun other hother hotherOwner ↦ ?_, hothers⟩
  have hnodup := hseparate.nodup
  rw [List.flatMap_def] at hnodup
  exact List.inj_on_of_nodup_map hnodup hother hmem (hotherOwner.trans howner.symm)

/-- A use that holds the entity its name means is written under the name of a declaration. -/
theorem Level.declared_of_found {emitter : Emitter} {ownership : Ownership} {first last : Nat}
    {levels : List Level} (hsound : Level.AllSound emitter.nameOf ownership.owner levels)
    (hseparate : Level.Separate first last levels) {use : Use}
    (hfound : use.FoundIn (levels.map Level.frame)) :
    Occurrence.Declared ⟨use, ownership.owner? use, emitter.useName use,
      levels.map Level.declarations⟩ := by
  cases use with
  | reference target =>
    refine Level.declared_of_lookup hsound hseparate hfound trivial fun declaration hwritten ↦ ?_
    exact ⟨hwritten.2.symm, hwritten.1.symm⟩
  | functionReference target =>
    refine Level.declared_of_lookup hsound hseparate hfound trivial fun declaration hwritten ↦ ?_
    obtain rfl := hwritten
    exact ⟨rfl, rfl⟩
  | call target =>
    refine Level.declared_of_lookup hsound hseparate hfound trivial fun declaration hwritten ↦ ?_
    obtain rfl := hwritten
    exact ⟨rfl, rfl⟩
  | construct target =>
    intro owner howner
    cases howner

/-- The parameters of a function are declared in its body as they are in its script. -/
theorem Statement.Scoped.past_withParameters {frame : Frame} {outer : List Frame} {next last : Nat}
    {name : String} {function : Func} {parameters : List Parameter} {body : List Statement}
    (h : Statement.Scoped frame outer next last
      (.functionDeclaration name function parameters body)) (emitter : Emitter) :
    (Level.empty.withParameters (next + 1) function.parameters).past =
      Script.Parameter.declarations (function.id + 1) (parameters.map emitter.parameter) := by
  obtain ⟨-, -, hid, hparameters, -, -⟩ := h
  rw [Level.past_withParameters _ _ _ emitter, hid]
  refine Script.Parameter.declarations_congr ?_ (next + 1)
  rw [List.map_map, List.map_map]
  exact hparameters.symm

namespace Aligned

variable {emitter : Emitter} {ownership : Ownership} {next last : Nat} {level : Level}
  {outer : List Level}

/-- The occurrences in an expression that stands before the given statements. -/
theorem declared_occurrences (h : Aligned emitter ownership next level outer)
    (hseparate : Level.Separate next last (level :: outer)) {statements : List Statement}
    (hscoped : Statement.AllScoped level.frame (outer.map Level.frame) next last statements)
    {uses : List Use}
    (hfound : ∀ use ∈ uses, use.FoundIn (level.frame :: outer.map Level.frame)) :
    ∀ occurrence ∈ ownership.occurrences
        ((level.past ++ Statement.declarations statements (emitter.statements statements).1) ::
          outer.map Level.declarations) uses (uses.map emitter.useName),
      occurrence.Declared := by
  intro occurrence hoccurrence
  rw [Ownership.occurrences_map] at hoccurrence
  obtain ⟨use, huse, rfl⟩ := List.mem_map.mp hoccurrence
  have hle := (Emitter.names_statements emitter statements hscoped).le
  have hmirrors : emitter.block.Mirrors level.frame := h.block_eq ▸ h.sound.1.mirrors
  have hfresh := Emitter.fresh_declarations hmirrors hscoped
  rw [← h.visible_eq] at hfresh
  have hascending := Statement.ascending_declarations emitter hscoped
  have hsound : Level.AllSound emitter.nameOf ownership.owner (_ :: outer) :=
    ⟨h.sound.1.withFuture hfresh, h.sound.2⟩
  have hfree := hseparate.withFuture h.future_eq hascending (Nat.le_refl next) hle
  exact Level.declared_of_found hsound hfree (hfound use huse)

/-- The blocks around a statement stay the same when it has been met. -/
theorem blocks_after (level : Level) (emitter : Emitter) (statement : Statement)
    (rest : List Statement) :
    ((level.after emitter statement).withFuture
        (Statement.declarations rest
          ((emitter.statement statement).2.statements rest).1)).declarations =
      level.past ++ Statement.declarations (statement :: rest)
        (emitter.statements (statement :: rest)).1 := by
  rw [Emitter.declarations_statements_cons, ← List.append_assoc, ← level.past_after]
  rfl

/-- The names chosen after a statement are not visible when it has been met. -/
theorem fresh_rest (h : Aligned emitter ownership next level outer) {middle : Nat}
    {first : Statement} {rest : List Statement}
    (hfirst : first.Scoped level.frame (outer.map Level.frame) next middle)
    (hrest : Statement.AllScoped (level.frame.after first) (outer.map Level.frame) middle last
      rest) :
    ∀ declaration ∈ Statement.declarations rest ((emitter.statement first).2.statements rest).1,
      declaration.keepsName = false → declaration.name ∉ (emitter.statement first).2.visible := by
  have hmirrors : emitter.block.Mirrors level.frame := h.block_eq ▸ h.sound.1.mirrors
  exact Emitter.fresh_declarations (hmirrors.step hfirst) hrest

section FunctionBody

variable {middle : Nat} {name : String} {function : Func} {parameters : List Parameter}
  {body rest : List Statement}

/-- The states at the start of a function's body. -/
theorem functionBody (h : Aligned emitter ownership next level outer)
    (hfirst : Statement.Scoped level.frame (outer.map Level.frame) next middle
      (.functionDeclaration name function parameters body))
    (hrest : Statement.AllScoped
      (level.frame.after (.functionDeclaration name function parameters body))
      (outer.map Level.frame) middle last rest) :
    Aligned ((emitter.bind name).enterFunction parameters)
      (ownership.enterFunction function parameters) (next + 1 + function.parameters.length)
      (Level.empty.withParameters (next + 1) function.parameters)
      ((level.after emitter (.functionDeclaration name function parameters body)).withFuture
        (Statement.declarations rest
          ((emitter.statement (.functionDeclaration name function parameters body)).2.statements
            rest).1) :: outer) := by
  have hfresh := h.fresh_rest hfirst hrest
  rw [Emitter.visible_functionDeclaration] at hfresh
  obtain ⟨rfl, hname, hid, hparameters, -, -⟩ := hfirst
  exact (h.bindFunction hname).enterFunction (by rw [hid]) hparameters hfresh

/-- The identities at the start of a function's body. -/
theorem separate_functionBody (h : Aligned emitter ownership next level outer)
    (hseparate : Level.Separate next last (level :: outer))
    (hfirst : Statement.Scoped level.frame (outer.map Level.frame) next middle
      (.functionDeclaration name function parameters body))
    (hrest : Statement.AllScoped
      (level.frame.after (.functionDeclaration name function parameters body))
      (outer.map Level.frame) middle last rest) :
    Level.Separate (next + 1 + function.parameters.length) middle
      (Level.empty.withParameters (next + 1) function.parameters ::
        (level.after emitter (.functionDeclaration name function parameters body)).withFuture
          (Statement.declarations rest
            ((emitter.statement (.functionDeclaration name function parameters body)).2.statements
              rest).1) :: outer) := by
  obtain ⟨-, -, hid, -, -, hbody⟩ := hfirst
  have hmiddle := (Emitter.names_statements emitter body hbody).le
  have hlast := (Emitter.names_statements emitter rest hrest).le
  have hbound := hseparate.declare h.future_eq (by omega) function.name (.func function)
    ⟨.function, name, function.id⟩ hid
  have hreserved := hbound.withFuture rfl
    (Statement.ascending_declarations
      (emitter.statement (.functionDeclaration name function parameters body)).2 hrest)
    (by omega) hlast
  exact hreserved.openBlock.withParameters rfl function.parameters hmiddle

end FunctionBody

section LoopBody

variable {middle : Nat} {iterator : Variable} {low high : Expr} {pattern : String}
  {body rest : List Statement}

/-- The states at the start of a loop's body. -/
theorem loopBody (h : Aligned emitter ownership next level outer)
    (hfirst : Statement.Scoped level.frame (outer.map Level.frame) next middle
      (.predictiveLoop iterator low high pattern body))
    (hrest : Statement.AllScoped
      (level.frame.after (.predictiveLoop iterator low high pattern body))
      (outer.map Level.frame) middle last rest) :
    Aligned (emitter.openBlock.declare iterator).2 (ownership.enterLoop iterator) (next + 1)
      (Level.empty.declare iterator.name (.var iterator)
        ⟨.iterator, (emitter.openBlock.declare iterator).1, iterator.id⟩)
      ((level.after emitter (.predictiveLoop iterator low high pattern body)).withFuture
        (Statement.declarations rest
          ((emitter.statement (.predictiveLoop iterator low high pattern body)).2.statements
            rest).1) :: outer) := by
  have hfresh := h.fresh_rest hfirst hrest
  have hvisible : (emitter.statement (.predictiveLoop iterator low high pattern body)).2.visible =
      emitter.visible := by
    unfold Emitter.visible
    rw [Emitter.outer_statement, Emitter.block_statement]
    rfl
  rw [hvisible] at hfresh
  obtain ⟨-, hid, -, -, -⟩ := hfirst
  exact h.enterLoop hid hfresh

/-- The identities at the start of a loop's body. -/
theorem separate_loopBody (h : Aligned emitter ownership next level outer)
    (hseparate : Level.Separate next last (level :: outer))
    (hfirst : Statement.Scoped level.frame (outer.map Level.frame) next middle
      (.predictiveLoop iterator low high pattern body))
    (hrest : Statement.AllScoped
      (level.frame.after (.predictiveLoop iterator low high pattern body))
      (outer.map Level.frame) middle last rest) :
    Level.Separate (next + 1) middle
      (Level.empty.declare iterator.name (.var iterator)
          ⟨.iterator, (emitter.openBlock.declare iterator).1, iterator.id⟩ ::
        (level.after emitter (.predictiveLoop iterator low high pattern body)).withFuture
          (Statement.declarations rest
            ((emitter.statement (.predictiveLoop iterator low high pattern body)).2.statements
              rest).1) :: outer) := by
  obtain ⟨-, hid, -, -, hbody⟩ := hfirst
  have hmiddle := (Emitter.names_statements emitter body hbody).le
  have hlast := (Emitter.names_statements emitter rest hrest).le
  have hreserved := hseparate.withFuture h.future_eq
    (Statement.ascending_declarations
      (emitter.statement (.predictiveLoop iterator low high pattern body)).2 hrest)
    (by omega) hlast
  exact hreserved.openBlock.declare rfl hmiddle _ _ _ hid

end LoopBody

end Aligned

mutual

/-- Every use in a statement, with the statements after it, has its declaration. -/
theorem Statement.declared_occurrences : ∀ (statement : Statement) (rest : List Statement)
    {emitter : Emitter} {ownership : Ownership} {next last : Nat} {level : Level}
    {outer : List Level}, Aligned emitter ownership next level outer →
    Level.Separate next last (level :: outer) →
    Statement.AllScoped level.frame (outer.map Level.frame) next last (statement :: rest) →
    ∀ occurrence ∈ statement.occurrences ownership
        ((level.past ++
            Statement.declarations (statement :: rest)
              (emitter.statements (statement :: rest)).1) ::
          outer.map Level.declarations) (emitter.statement statement).1,
      occurrence.Declared
  | .functionDeclaration name function parameters body, rest, emitter, ownership, next, last, level,
      outer, haligned, hseparate, ⟨middle, hfirst, hrest⟩ => by
    have hinside := haligned.functionBody hfirst hrest
    have hfree := haligned.separate_functionBody hseparate hfirst hrest
    have hpast := hfirst.past_withParameters emitter
    obtain ⟨-, -, -, -, -, hbody⟩ := hfirst
    have hframe := Level.frame_withParameters Level.empty (next + 1) function.parameters
    change _ = Frame.withParameters .empty (next + 1) function.parameters at hframe
    rw [← hframe] at hbody
    have hdeclared := Statement.declared_occurrencesAll body hinside hfree hbody
    rw [hpast, List.map_cons, Aligned.blocks_after] at hdeclared
    simp only [Emitter.statement, Statement.occurrences]
    exact hdeclared
  | .variableDeclaration _ value, _, _, _, _, _, _, _, haligned, hseparate,
      hscoped@⟨_, ⟨_, _, _, hfound⟩, _⟩ => by
    simp only [Emitter.statement, Statement.occurrences, Emitter.names_term]
    exact haligned.declared_occurrences hseparate hscoped hfound
  | .variableReassignment _ value, _, _, _, _, _, _, _, haligned, hseparate,
      hscoped@⟨_, ⟨_, _, _, hfound⟩, _⟩ => by
    simp only [Emitter.statement, Statement.occurrences, Emitter.names_term]
    exact haligned.declared_occurrences hseparate hscoped hfound
  | .predictiveLoop iterator low high pattern body, rest, emitter, ownership, next, last, level,
      outer, haligned, hseparate, hscoped@⟨middle, hfirst, hrest⟩ => by
    have hinside := haligned.loopBody hfirst hrest
    have hfree := haligned.separate_loopBody hseparate hfirst hrest
    obtain ⟨-, -, hlow, hhigh, hbody⟩ := hfirst
    have hdeclared := Statement.declared_occurrencesAll body hinside hfree hbody
    rw [List.map_cons, Aligned.blocks_after] at hdeclared
    simp only [Emitter.statement, Statement.occurrences, Emitter.names_term]
    intro occurrence hoccurrence
    rcases List.mem_append.mp hoccurrence with hbounds | hmem
    · rcases List.mem_append.mp hbounds with hmem | hmem
      · exact haligned.declared_occurrences hseparate hscoped hlow occurrence hmem
      · exact haligned.declared_occurrences hseparate hscoped hhigh occurrence hmem
    · exact hdeclared occurrence hmem
  | .comparison _ _, _, _, _, _, _, _, _, haligned, hseparate,
      hscoped@⟨_, ⟨_, hleft, hright⟩, _⟩ => by
    simp only [Emitter.statement, Statement.occurrences, Emitter.names_term]
    intro occurrence hoccurrence
    rcases List.mem_append.mp hoccurrence with hmem | hmem
    · exact haligned.declared_occurrences hseparate hscoped hleft occurrence hmem
    · exact haligned.declared_occurrences hseparate hscoped hright occurrence hmem
  | .print _, _, _, _, _, _, _, _, haligned, hseparate, hscoped@⟨_, ⟨_, hfound⟩, _⟩ => by
    simp only [Emitter.statement, Statement.occurrences, Emitter.names_term]
    exact haligned.declared_occurrences hseparate hscoped hfound
  | .returnValue _, _, _, _, _, _, _, _, haligned, hseparate, hscoped@⟨_, ⟨_, hfound⟩, _⟩ => by
    simp only [Emitter.statement, Statement.occurrences, Emitter.names_term]
    exact haligned.declared_occurrences hseparate hscoped hfound
  | .yieldValue _, _, _, _, _, _, _, _, haligned, hseparate, hscoped@⟨_, ⟨_, hfound⟩, _⟩ => by
    rw [Statement.occurrences_yieldValue, Emitter.names_term]
    exact haligned.declared_occurrences hseparate hscoped hfound
  | .call _, _, _, _, _, _, _, _, haligned, hseparate, hscoped@⟨_, ⟨_, hfound⟩, _⟩ => by
    simp only [Emitter.statement, Statement.occurrences, Emitter.names_callTerm]
    exact haligned.declared_occurrences hseparate hscoped hfound

/-- Every use in statements has its declaration. -/
theorem Statement.declared_occurrencesAll : ∀ (statements : List Statement)
    {emitter : Emitter} {ownership : Ownership} {next last : Nat} {level : Level}
    {outer : List Level}, Aligned emitter ownership next level outer →
    Level.Separate next last (level :: outer) →
    Statement.AllScoped level.frame (outer.map Level.frame) next last statements →
    ∀ occurrence ∈ Statement.occurrencesAll ownership
        ((level.past ++ Statement.declarations statements (emitter.statements statements).1) ::
          outer.map Level.declarations) statements (emitter.statements statements).1,
      occurrence.Declared
  | [], _, _, _, _, _, _, _, _, _ => by
    intro occurrence hoccurrence
    cases hoccurrence
  | first :: rest, emitter, ownership, next, last, level, outer, haligned, hseparate,
      hscoped@⟨middle, hfirst, hrest⟩ => by
    intro occurrence hoccurrence
    rcases List.mem_append.mp hoccurrence with hnow | hlater
    · exact Statement.declared_occurrences first rest haligned hseparate hscoped occurrence hnow
    · have hle := (Emitter.names_statements emitter rest hrest).le
      rw [← level.frame_after emitter] at hrest
      refine Statement.declared_occurrencesAll rest (haligned.after hfirst)
        (hseparate.after haligned.future_eq emitter hfirst hle) hrest occurrence ?_
      have hblocks := Aligned.blocks_after level emitter first rest
      unfold Level.declarations Level.withFuture at hblocks
      rw [hblocks]
      exact hlater

end

/-! ### Scripts of sources -/

/-- Before anything is met, the states are aligned in the outermost frame. -/
theorem aligned_initial : Aligned .initial .initial 0 (.ofFrame Frame.root) [] where
  block_eq := rfl
  outer_eq := rfl
  declared_eq := rfl
  future_eq := rfl
  names_below _ _ hwritten := by cases hwritten
  rebound_below _ _ howner := by cases howner
  frames_below other hother name target htarget := by
    obtain rfl := List.mem_singleton.mp hother
    exact (Frame.not_bindsValue_root name ⟨_, htarget, trivial⟩).elim
  sound := ⟨Level.sound_ofFrame Frame.not_bindsValue_root [], trivial⟩

theorem separate_initial (last : Nat) : Level.Separate 0 last [.ofFrame Frame.root] where
  nodup := List.nodup_nil
  past_below level hlevel declaration hdeclaration := by
    obtain rfl := List.mem_singleton.mp hlevel
    cases hdeclaration
  future_above level hlevel declaration hdeclaration := by
    obtain rfl := List.mem_singleton.mp hlevel
    cases hdeclaration

/-- In the script of an accepted source, folded or not, the entity of every use has exactly one
declaration in the open blocks, and it has the written name. The name resolves to it if and only if
no other declaration takes the name in the blocks out to it, and then a function or a parameter is
involved: only those keep their names. -/
theorem resolves_unless_captured {source : Source} {folded : Bool} {program : Program}
    (h : source.program folded = .ok program) :
    program.occurrences.map Occurrence.use = Statement.usesAll program.statements ∧
      ∀ occurrence ∈ program.occurrences, ∀ owner ∈ occurrence.owner?,
        ∃ own ∈ occurrence.blocks.flatten, own.owner = owner ∧ own.name = occurrence.name ∧
          (∀ other ∈ occurrence.blocks.flatten, other.owner = owner → other = own) ∧
          (Script.ResolvesTo occurrence.name own occurrence.blocks ↔
            ∀ other ∈ Script.reach own occurrence.blocks, ¬ own.CapturedBy other) := by
  obtain ⟨last, hscoped⟩ := Source.scoped_of_program h
  refine ⟨Statement.uses_occurrencesAll .initial _ .initial program.statements, ?_⟩
  intro occurrence hoccurrence owner howner
  have hdeclared := Statement.declared_occurrencesAll program.statements aligned_initial
    (separate_initial last) hscoped occurrence hoccurrence
  obtain ⟨own, hmem, hown, hname, hunique, hothers⟩ := hdeclared owner howner
  refine ⟨own, hmem, hown, hname, hunique, ?_⟩
  rw [← hname, Script.resolvesTo_iff hmem]
  constructor
  · rintro honly other hother ⟨hotherName, hne, -⟩
    exact hne (honly other hother hotherName)
  · intro hfree other hother hotherName
    by_contra hne
    exact hfree other hother ⟨hotherName, hne, hothers other hother hotherName hne⟩

/-- The theorem at a source where a function declares a variable of the name of another. -/
theorem resolves_unless_captured_shadowing :
    ∃ program,
      (Source.ofText "" "let a = 1\ndefine g() then\n  let a = 2\n  return a\nprint g()").program
        false = .ok program ∧
      program.occurrences.map Occurrence.use = Statement.usesAll program.statements ∧
      ∀ occurrence ∈ program.occurrences, ∀ owner ∈ occurrence.owner?,
        ∃ own ∈ occurrence.blocks.flatten, own.owner = owner ∧ own.name = occurrence.name ∧
          (∀ other ∈ occurrence.blocks.flatten, other.owner = owner → other = own) ∧
          (Script.ResolvesTo occurrence.name own occurrence.blocks ↔
            ∀ other ∈ Script.reach own occurrence.blocks, ¬ own.CapturedBy other) := by
  have haccepted : ∃ program, (Source.ofText ""
      "let a = 1\ndefine g() then\n  let a = 2\n  return a\nprint g()").program false =
        .ok program :=
    exists_of_isOk (by decide +kernel)
  obtain ⟨program, hprogram⟩ := haccepted
  exact ⟨program, hprogram, resolves_unless_captured hprogram⟩

/-- A parameter that captures a variable: the variable of the inner function is written as `a_1`,
which is the name of the parameter. -/
theorem parameter_captures_variable :
    ∃ program,
      (Source.ofText "" ("let a = 1\ndefine g() then\n  let a = 2\n" ++
        "  define h(a_1) then return a\n  return h(5)\nprint g()")).program false = .ok program ∧
      ∃ occurrence ∈ program.occurrences, occurrence.owner? = some 2 ∧ occurrence.name = "a_1" ∧
        ⟨.variable, "a_1", 2⟩ ∈ occurrence.blocks.flatten ∧
        Script.ResolvesTo "a_1" ⟨.parameter, "a_1", 4⟩ occurrence.blocks := by
  exact exists_of_any (by decide +kernel)

end Presage
