import Presage.Proofs.FreshNames
import Presage.Proofs.Scoping

/-!
The steps of an emitter on scoped statements. Emitting a statement leaves the blocks around the
innermost one as they are (`outer_statement`), changes the innermost one by the name the statement
binds there (`block_statement`), and writes down names for the identities of the statement alone
(`names_statement`).

`Bindings.Mirrors` says that a block binds exactly the names that a frame binds to values. It is
kept step by step (`Bindings.Mirrors.step`), so a declaration never replaces a name that the block
binds, and names that are visible stay visible (`mem_visible_statement`).
-/

set_option autoImplicit false
set_option relaxedAutoImplicit false

namespace Presage

/-! ### Values of bindings -/

namespace Bindings

variable {κ α : Type} [BEq κ] [LawfulBEq κ]

theorem mem_values_of_get? {bindings : Bindings κ α} {key : κ} {value : α}
    (h : bindings.get? key = some value) : value ∈ bindings.values := by
  obtain ⟨before, rest, hentries, -⟩ := List.lookup_eq_some_iff.mp h
  refine List.mem_map.mpr ⟨(key, value), ?_, rfl⟩
  rw [hentries]
  exact List.mem_append_right before List.mem_cons_self

/-- A new key leaves all values there and adds its own. -/
theorem mem_values_insert_of_unbound {bindings : Bindings κ α} {key : κ}
    (h : bindings.get? key = none) {value other : α} :
    other ∈ (bindings.insert key value).values ↔ other = value ∨ other ∈ bindings.values := by
  have hkeep : bindings.entries.filter (fun entry ↦ !(entry.1 == key)) = bindings.entries := by
    refine List.filter_eq_self.mpr fun entry hentry ↦ ?_
    have hne := List.lookup_eq_none_iff.mp h entry hentry
    rw [bne_iff_ne] at hne
    simpa using fun heq ↦ hne heq.symm
  unfold values insert
  rw [hkeep, List.map_cons, List.mem_cons]

end Bindings

namespace Emitter

/-! ### What a statement leaves of the state -/

/-- The innermost block after a statement. -/
def blockAfter (emitter : Emitter) : Statement → Bindings String String
  | .functionDeclaration name _ _ _ => emitter.block.insert name name
  | .variableDeclaration target _ => (emitter.declare target).2.block
  | .variableReassignment target _ => (emitter.rebind target).2.block
  | _ => emitter.block

theorem rebind_outer (emitter : Emitter) (target : Variable) :
    (emitter.rebind target).2.outer = emitter.outer := by
  unfold rebind
  split <;> rfl

/-- The block of a function's body stands inside the block of the function. -/
theorem enterFunction_outer (emitter : Emitter) (parameters : List Parameter) :
    (emitter.enterFunction parameters).outer = emitter.block :: emitter.outer := by
  have hbind : ∀ (parameters : List Parameter) (state : Emitter),
      (parameters.foldl (fun state parameter ↦ state.bind parameter.name) state).outer =
        state.outer := by
    intro parameters
    induction parameters with
    | nil => exact fun state ↦ rfl
    | cons parameter rest ih => exact fun state ↦ ih (state.bind parameter.name)
  exact hbind parameters emitter.openBlock

theorem enterFunction_names (emitter : Emitter) (parameters : List Parameter) :
    (emitter.enterFunction parameters).names = emitter.names := by
  have hbind : ∀ (parameters : List Parameter) (state : Emitter),
      (parameters.foldl (fun state parameter ↦ state.bind parameter.name) state).names =
        state.names := by
    intro parameters
    induction parameters with
    | nil => exact fun state ↦ rfl
    | cons parameter rest ih => exact fun state ↦ ih (state.bind parameter.name)
  exact hbind parameters emitter.openBlock

mutual

/-- Emitting a statement leaves the blocks around the innermost one as they are. -/
theorem outer_statement (emitter : Emitter) : ∀ statement : Statement,
    (emitter.statement statement).2.outer = emitter.outer
  | .functionDeclaration name function parameters body => by
    have hbody := outer_statements ((emitter.bind name).enterFunction parameters) body
    rw [enterFunction_outer] at hbody
    simp only [statement, closeBlock, hbody]
    rfl
  | .variableDeclaration _ _ => rfl
  | .variableReassignment target _ => rebind_outer emitter target
  | .predictiveLoop iterator _ _ _ body => by
    have hbody := outer_statements (emitter.openBlock.declare iterator).2 body
    have hopen : (emitter.openBlock.declare iterator).2.outer =
        emitter.block :: emitter.outer := rfl
    rw [hopen] at hbody
    simp only [statement, closeBlock, hbody]
  | .comparison _ _ => rfl
  | .print _ => rfl
  | .returnValue _ => rfl
  | .yieldValue _ => rfl
  | .call _ => rfl

theorem outer_statements (emitter : Emitter) : ∀ statements : List Statement,
    (emitter.statements statements).2.outer = emitter.outer
  | [] => rfl
  | first :: rest => by
    simp only [statements]
    rw [outer_statements (emitter.statement first).2 rest, outer_statement emitter first]

end

/-- Emitting a statement changes the innermost block by the name the statement binds there. -/
theorem block_statement (emitter : Emitter) (statement : Statement) :
    (emitter.statement statement).2.block = emitter.blockAfter statement := by
  cases statement with
  | functionDeclaration name function parameters body =>
    have hbody := outer_statements ((emitter.bind name).enterFunction parameters) body
    rw [enterFunction_outer] at hbody
    simp only [Emitter.statement, closeBlock, hbody]
    rfl
  | predictiveLoop iterator low high pattern body =>
    have hbody := outer_statements (emitter.openBlock.declare iterator).2 body
    have hopen : (emitter.openBlock.declare iterator).2.outer =
        emitter.block :: emitter.outer := rfl
    rw [hopen] at hbody
    simp only [Emitter.statement, closeBlock, hbody]
    rfl
  | _ => rfl

/-- What is visible after a function is what is visible around its body. -/
theorem visible_functionDeclaration (emitter : Emitter) (name : String) (function : Func)
    (parameters : List Parameter) (body : List Statement) :
    (emitter.statement (.functionDeclaration name function parameters body)).2.visible =
      (emitter.bind name).visible := by
  unfold visible
  rw [outer_statement, block_statement]
  rfl

/-- Only identities below `next` have a written name. -/
def NamesBelow (emitter : Emitter) (next : Nat) : Prop :=
  ∀ id written, emitter.names.get? id = some written → id < next

/-- The state `after` has the names of `before` for the identities below `next`, and otherwise only
names for identities below `last`. -/
structure NamesGrow (before after : Emitter) (next last : Nat) : Prop where
  le : next ≤ last
  old : ∀ id < next, after.names.get? id = before.names.get? id
  below : before.NamesBelow next → after.NamesBelow last

theorem NamesGrow.refl (emitter : Emitter) (next : Nat) : NamesGrow emitter emitter next next :=
  ⟨Nat.le_refl next, fun _ _ ↦ rfl, fun h ↦ h⟩

theorem NamesGrow.trans {first second third : Emitter} {next middle last : Nat}
    (hfirst : NamesGrow first second next middle) (hsecond : NamesGrow second third middle last) :
    NamesGrow first third next last where
  le := Nat.le_trans hfirst.le hsecond.le
  old id hid := (hsecond.old id (Nat.lt_of_lt_of_le hid hfirst.le)).trans (hfirst.old id hid)
  below h := hsecond.below (hfirst.below h)

/-- Identities may be handed out without a name being written down. -/
theorem NamesGrow.of_names_eq {before after : Emitter} {next last : Nat} (hle : next ≤ last)
    (hnames : after.names = before.names) : NamesGrow before after next last where
  le := hle
  old id _ := by rw [hnames]
  below h id written hwritten := by
    rw [hnames] at hwritten
    exact Nat.lt_of_lt_of_le (h id written hwritten) hle

/-- Writing down a name for the next identity. -/
theorem NamesGrow.of_insert {before after : Emitter} {next : Nat} {written : String}
    (hnames : after.names = before.names.insert next written) :
    NamesGrow before after next (next + 1) where
  le := Nat.le_succ next
  old id hid := by
    rw [hnames, Bindings.get?_insert, if_neg]
    simpa using Nat.ne_of_lt hid
  below h id other hother := by
    rw [hnames, Bindings.get?_insert] at hother
    split at hother
    · next hid =>
      obtain rfl := eq_of_beq hid
      exact Nat.lt_succ_self id
    · exact Nat.lt_succ_of_lt (h id other hother)

theorem namesGrow_declare (emitter : Emitter) {target : Variable} {next : Nat}
    (hid : target.id = next) : NamesGrow emitter (emitter.declare target).2 next (next + 1) := by
  subst hid
  exact .of_insert rfl

theorem namesGrow_rebind (emitter : Emitter) {target : Variable} {next : Nat}
    (hid : target.id = next) : NamesGrow emitter (emitter.rebind target).2 next (next + 1) := by
  unfold rebind
  split
  · subst hid
    exact .of_insert rfl
  · exact namesGrow_declare emitter hid

theorem closeBlock_names (emitter : Emitter) : emitter.closeBlock.names = emitter.names := by
  unfold closeBlock
  split <;> rfl

/-- A function writes down the names that its body does. -/
theorem NamesGrow.functionDeclaration {emitter : Emitter} {name : String} {function : Func}
    {parameters : List Parameter} {body : List Statement} {next first last : Nat}
    (h : NamesGrow ((emitter.bind name).enterFunction parameters)
      (((emitter.bind name).enterFunction parameters).statements body).2 first last)
    (hle : next ≤ first) :
    NamesGrow (emitter.bind name)
      (emitter.statement (.functionDeclaration name function parameters body)).2 next last := by
  have hopened : NamesGrow (emitter.bind name)
      ((emitter.bind name).enterFunction parameters) next first :=
    .of_names_eq hle (enterFunction_names _ _)
  refine (hopened.trans h).trans (.of_names_eq (Nat.le_refl last) ?_)
  exact closeBlock_names _

mutual

/-- A scoped statement writes down names for its own identities alone. -/
theorem names_statement (emitter : Emitter) : ∀ (statement : Statement) {frame : Frame}
    {outer : List Frame} {next last : Nat}, statement.Scoped frame outer next last →
      NamesGrow emitter (emitter.statement statement).2 next last
  | .functionDeclaration name _ parameters body, _, _, next, last, ⟨_, _, _, _, _, hbody⟩ => by
    have hbodyNames := names_statements ((emitter.bind name).enterFunction parameters) body
      hbody
    have hbound : NamesGrow emitter (emitter.bind name) next next :=
      .of_names_eq (Nat.le_refl next) rfl
    exact hbound.trans (hbodyNames.functionDeclaration (by omega))
  | .variableDeclaration _ _, _, _, _, _, ⟨_, hid, hlast, _⟩ => by
    subst hlast
    exact namesGrow_declare emitter hid
  | .variableReassignment _ _, _, _, _, _, ⟨_, hid, hlast, _⟩ => by
    subst hlast
    exact namesGrow_rebind emitter hid
  | .predictiveLoop iterator _ _ _ body, _, _, next, last, ⟨_, hid, _, _, hbody⟩ => by
    have hbodyNames := names_statements (emitter.openBlock.declare iterator).2 body hbody
    have hopened : NamesGrow emitter emitter.openBlock next next :=
      .of_names_eq (Nat.le_refl next) rfl
    have hdeclared := namesGrow_declare emitter.openBlock hid
    refine ((hopened.trans hdeclared).trans hbodyNames).trans (.of_names_eq (Nat.le_refl last) ?_)
    exact closeBlock_names _
  | .comparison _ _, _, _, _, _, ⟨hlast, _⟩ => hlast ▸ .refl emitter _
  | .print _, _, _, _, _, ⟨hlast, _⟩ => hlast ▸ .refl emitter _
  | .returnValue _, _, _, _, _, ⟨hlast, _⟩ => hlast ▸ .refl emitter _
  | .yieldValue _, _, _, _, _, ⟨hlast, _⟩ => hlast ▸ .refl emitter _
  | .call _, _, _, _, _, ⟨hlast, _⟩ => hlast ▸ .refl emitter _

theorem names_statements (emitter : Emitter) : ∀ (statements : List Statement) {frame : Frame}
    {outer : List Frame} {next last : Nat}, Statement.AllScoped frame outer next last statements →
      NamesGrow emitter (emitter.statements statements).2 next last
  | [], _, _, _, _, hlast => hlast ▸ .refl emitter _
  | first :: rest, _, _, _, _, ⟨_, hfirst, hrest⟩ =>
    (names_statement emitter first hfirst).trans
      (names_statements (emitter.statement first).2 rest hrest)

end

end Emitter

/-! ### Blocks and frames -/

/-- The block binds exactly the names that the frame binds to values. -/
def Bindings.Mirrors (block : Bindings String String) (frame : Frame) : Prop :=
  ∀ name, (∃ written, block.get? name = some written) ↔ frame.BindsValue name

namespace Bindings.Mirrors

variable {block : Bindings String String} {frame : Frame}

theorem unbound (h : block.Mirrors frame) {name : String} (hname : ¬ frame.BindsValue name) :
    block.get? name = none := by
  cases hget : block.get? name with
  | none => rfl
  | some written => exact (hname ((h name).mp ⟨written, hget⟩)).elim

theorem empty_of_not_bindsValue (h : ∀ name, ¬ frame.BindsValue name) :
    (Bindings.empty : Bindings String String).Mirrors frame := by
  intro name
  constructor
  · rintro ⟨written, hwritten⟩
    rw [get?_empty] at hwritten
    cases hwritten
  · exact fun hname ↦ (h name hname).elim

/-- A name bound in both, in the frame to a value. -/
theorem insert (h : block.Mirrors frame) (name written : String) {entity : Entity}
    (hentity : entity.IsValue) :
    (block.insert name written).Mirrors (frame.insert name entity) := by
  intro other
  unfold Frame.BindsValue
  rw [get?_insert, get?_insert]
  by_cases hother : (other == name) = true
  · rw [if_pos hother, if_pos hother]
    exact ⟨fun _ ↦ ⟨entity, rfl, hentity⟩, fun _ ↦ ⟨written, rfl⟩⟩
  · rw [if_neg hother, if_neg hother]
    exact h other

/-- A name bound in the frame to another value. -/
theorem rebind (h : block.Mirrors frame) {name : String} (hname : frame.BindsValue name)
    {entity : Entity} (hentity : entity.IsValue) : block.Mirrors (frame.insert name entity) := by
  intro other
  unfold Frame.BindsValue
  rw [get?_insert]
  by_cases hother : (other == name) = true
  · rw [if_pos hother]
    obtain rfl := eq_of_beq hother
    exact ⟨fun _ ↦ ⟨entity, rfl, hentity⟩, fun _ ↦ (h other).mpr hname⟩
  · rw [if_neg hother]
    exact h other

/-- Where a frame binds a name to a value, its variable is rebound and nothing is declared. -/
theorem rebind_eq {emitter : Emitter} (h : emitter.block.Mirrors frame) {target : Variable}
    (hname : frame.BindsValue target.name) :
    ∃ written, emitter.block.get? target.name = some written ∧
      emitter.rebind target =
        (written, { emitter with names := emitter.names.insert target.id written }) := by
  obtain ⟨written, hwritten⟩ := (h target.name).mpr hname
  refine ⟨written, hwritten, ?_⟩
  unfold Emitter.rebind
  rw [hwritten]

/-- Emitting a scoped statement keeps the innermost block and frame in step. -/
theorem step {emitter : Emitter} (h : emitter.block.Mirrors frame) {statement : Statement}
    {outer : List Frame} {next last : Nat} (hscoped : statement.Scoped frame outer next last) :
    (emitter.statement statement).2.block.Mirrors (frame.after statement) := by
  rw [Emitter.block_statement]
  cases statement with
  | functionDeclaration name function parameters body =>
    obtain ⟨rfl, -⟩ := hscoped
    exact h.insert _ _ trivial
  | variableDeclaration target initializer => exact h.insert _ _ trivial
  | variableReassignment target value =>
    obtain ⟨written, -, hrebind⟩ := h.rebind_eq hscoped.1
    simp only [Emitter.blockAfter, hrebind]
    exact h.rebind hscoped.1 trivial
  | _ => exact h

end Bindings.Mirrors

namespace Emitter

/-- Names that are visible stay visible, as no binding of a block is replaced. -/
theorem mem_visible_statement {emitter : Emitter} {frame : Frame}
    (h : emitter.block.Mirrors frame) {statement : Statement} {outer : List Frame}
    {next last : Nat} (hscoped : statement.Scoped frame outer next last) {written : String}
    (hwritten : written ∈ emitter.visible) :
    written ∈ (emitter.statement statement).2.visible := by
  have hblock : ∀ name ∈ emitter.block.values, name ∈ (emitter.blockAfter statement).values := by
    intro other hname
    cases statement with
    | functionDeclaration name function parameters body =>
      obtain ⟨rfl, hfree, -⟩ := hscoped
      have hunbound := h.unbound (Analysis.not_bindsValue_of_unbound hfree)
      exact (Bindings.mem_values_insert_of_unbound hunbound).mpr (Or.inr hname)
    | variableDeclaration target initializer =>
      exact (Bindings.mem_values_insert_of_unbound (h.unbound hscoped.1)).mpr (Or.inr hname)
    | variableReassignment target value =>
      obtain ⟨bound, -, hrebind⟩ := h.rebind_eq hscoped.1
      simp only [blockAfter, hrebind]
      exact hname
    | _ => exact hname
  unfold visible at hwritten ⊢
  rw [outer_statement, block_statement]
  rw [List.flatMap_cons, List.mem_append] at hwritten ⊢
  exact hwritten.imp_left (hblock written)

end Emitter

end Presage
