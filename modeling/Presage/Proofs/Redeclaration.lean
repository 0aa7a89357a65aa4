import Presage.Proofs.Lockstep
import Presage.Proofs.Occurrences

/-!
Names that one scope of a script introduces twice. `Script.Stmt.scopesAll` lists the scopes of a
script with what they introduce, in the order of writing: the parameters of a function or the
iterator of a loop, and then the variables and functions that the body declares itself.

A variable or an iterator takes a name that nothing visible has, so it never has the name of what
its scope introduced before it. A function and a parameter keep their own names, which is where two
names can meet: `Binder.MayClash` says that both are parameters, or that a function is declared
under the numbered name that was chosen for a variable before it. `Statement.apart_binders` shows by
induction along a block that no other names are equal, and `Statement.names_distinct` that at the
top level, where nothing is renamed, all are different. `compile_redeclares_only` is the result for
the scripts of sources.
-/

set_option autoImplicit false
set_option relaxedAutoImplicit false

namespace Presage

namespace Script

/-! ### Scopes of a script -/

/-- A name that a scope introduces, and how. -/
structure Binder where
  introduction : Introduction
  name : String
deriving DecidableEq

/-- What a statement introduces in the scope that it stands in. -/
def Stmt.binder? : Stmt → Option Binder
  | .declare name _ => some ⟨.variable, name⟩
  | .function _ name _ _ => some ⟨.function, name⟩
  | _ => none

/-- What statements introduce in the scope that they stand in. -/
def binders (statements : List Stmt) : List Binder := statements.filterMap Stmt.binder?

theorem binders_cons (first : Stmt) (rest : List Stmt) :
    binders (first :: rest) = first.binder?.toList ++ binders rest := by
  unfold binders
  rw [List.filterMap_cons]
  cases first.binder? <;> rfl

/-- What parameters introduce in the scope of the function's body. -/
def Parameter.binders (parameters : List Parameter) : List Binder :=
  parameters.map fun parameter ↦ ⟨.parameter, parameter.name⟩

mutual

/-- The scopes that a statement opens. -/
def Stmt.scopes : Stmt → List (List Binder)
  | .function _ _ parameters body =>
    (Parameter.binders parameters ++ binders body) :: Stmt.scopesAll body
  | .loop _ iterator _ _ body => (⟨.iterator, iterator⟩ :: binders body) :: Stmt.scopesAll body
  | _ => []

/-- The scopes that statements open. -/
def Stmt.scopesAll : List Stmt → List (List Binder)
  | [] => []
  | first :: rest => Stmt.scopes first ++ Stmt.scopesAll rest

end

namespace Binder

/-- Functions and parameters are written under their own names. -/
def KeepsName (binder : Binder) : Prop :=
  binder.introduction = .parameter ∨ binder.introduction = .function

theorem not_keepsName {binder : Binder}
    (h : binder.introduction = .variable ∨ binder.introduction = .iterator) :
    ¬ binder.KeepsName := by
  unfold KeepsName
  rcases h with h | h <;> simp [h]

/-- Two names of one scope that may be equal: those of two parameters, and that of a function with
a number at its end which a variable or an iterator was given before. -/
def MayClash (earlier later : Binder) : Prop :=
  earlier.introduction = .parameter ∧ later.introduction = .parameter ∨
    ¬ earlier.KeepsName ∧ later.introduction = .function ∧
      ∃ name number, later.name = Emitter.candidate name (number + 1)

/-- The names differ unless they are two that may be equal. -/
def Apart (earlier later : Binder) : Prop := earlier.name = later.name → earlier.MayClash later

/-- Where names differ unless they may be equal, they all differ exactly if those do that may be
equal. -/
theorem nodup_iff_of_apart {scope : List Binder} (h : scope.Pairwise Apart) :
    (scope.map Binder.name).Nodup ↔
      scope.Pairwise fun earlier later ↦ earlier.MayClash later → earlier.name ≠ later.name := by
  rw [List.Nodup, List.pairwise_map]
  constructor
  · intro hne
    refine hne.imp ?_
    intro earlier later hname _
    exact hname
  · intro hclash
    exact hclash.imp₂ (fun _ _ hne hapart heq ↦ hne (hapart heq) heq) h

end Binder

end Script

open Script (Binder)

/-! ### What a block holds of its names -/

theorem Bindings.get?_insert_self {κ α : Type} [BEq κ] [LawfulBEq κ] (bindings : Bindings κ α)
    (key : κ) (value : α) : (bindings.insert key value).get? key = some value := by
  rw [get?_insert, if_pos (beq_self_eq_true key)]

/-- The name of each binder is bound in the block, for a variable under the name that the chosen one
is a candidate for, and for a function or a parameter under itself. -/
def Bindings.Holds (block : Bindings String String) (binders : List Binder) : Prop :=
  ∀ binder ∈ binders, ∃ name number, block.get? name = some binder.name ∧
    binder.name = Emitter.candidate name number ∧ (binder.KeepsName → number = 0)

namespace Bindings.Holds

variable {block : Bindings String String} {binders : List Binder}

/-- What is bound stays bound when a name is that was not. -/
theorem insert (h : block.Holds binders) {name written : String} (hname : block.get? name = none) :
    (block.insert name written).Holds binders := by
  intro binder hbinder
  obtain ⟨bound, number, hbound, hcandidate⟩ := h binder hbinder
  refine ⟨bound, number, ?_, hcandidate⟩
  rw [get?_insert, if_neg]
  · exact hbound
  · intro heq
    rw [eq_of_beq heq, hname] at hbound
    cases hbound

theorem append (h : block.Holds binders) {binder : Binder} {name : String} (number : Nat)
    (hname : block.get? name = some binder.name)
    (hcandidate : binder.name = Emitter.candidate name number)
    (hkeeps : binder.KeepsName → number = 0) : block.Holds (binders ++ [binder]) := by
  intro other hother
  rcases List.mem_append.mp hother with hold | hnew
  · exact h other hold
  · rw [List.mem_singleton.mp hnew]
    exact ⟨name, number, hname, hcandidate, hkeeps⟩

/-- A statement that introduces nothing leaves all as it is. -/
theorem of_none (h : block.Holds binders) {binder? : Option Binder} (hnone : binder? = none) :
    (∀ earlier ∈ binders, ∀ later ∈ binder?, earlier.Apart later) ∧
      block.Holds (binders ++ binder?.toList) := by
  subst hnone
  rw [Option.toList_none, List.append_nil]
  exact ⟨fun _ _ later hlater ↦ absurd hlater (Option.not_mem_none later), h⟩

/-- A name that is not visible is apart from all that the block holds. -/
theorem apart_of_not_mem (h : block.Holds binders) {later : Binder}
    (hlater : later.name ∉ block.values) : ∀ earlier ∈ binders, earlier.Apart later := by
  intro earlier hearlier heq
  obtain ⟨name, number, hname, -⟩ := h earlier hearlier
  exact (hlater (heq ▸ mem_values_of_get? hname)).elim

/-- A function whose name is not bound has at most the name that was chosen for a variable. -/
theorem apart_of_unbound (h : block.Holds binders) {later : Binder}
    (hfunction : later.introduction = .function) (hlater : block.get? later.name = none) :
    ∀ earlier ∈ binders, earlier.Apart later := by
  intro earlier hearlier heq
  obtain ⟨name, number, hname, hcandidate, hkeeps⟩ := h earlier hearlier
  cases number with
  | zero =>
    -- The first candidate is the name itself, which would be bound.
    rw [← heq, hcandidate] at hlater
    exact absurd (hlater.symm.trans hname) nofun
  | succ number =>
    right
    refine ⟨fun hkeep ↦ absurd (hkeeps hkeep) nofun, hfunction, name, number, ?_⟩
    rw [← heq, hcandidate]

end Bindings.Holds

/-! ### Along a block -/

namespace Emitter

/-- A chosen name is a candidate for the variable. -/
theorem exists_candidate_freshName (taken : List String) (name : String) :
    ∃ number, freshName taken name = candidate name number :=
  ⟨_, rfl⟩

/-- The block of a function's body holds the parameters, whose defaults are written before. -/
theorem holds_enterFunction (emitter before : Emitter) (parameters : List Parameter) :
    (emitter.enterFunction parameters).block.Holds
      (Script.Parameter.binders (parameters.map before.parameter)) := by
  intro binder hbinder
  rw [Script.Parameter.binders, List.map_map] at hbinder
  obtain ⟨parameter, hparameter, rfl⟩ := List.mem_map.mp hbinder
  exact ⟨parameter.name, 0, get?_enterFunction emitter (List.mem_map_of_mem hparameter), rfl,
    fun _ ↦ rfl⟩

/-- The block of a loop's body holds the iterator. -/
theorem holds_openBlock_declare (emitter : Emitter) (iterator : Variable) :
    (emitter.openBlock.declare iterator).2.block.Holds
      [⟨.iterator, (emitter.openBlock.declare iterator).1⟩] := by
  intro binder hbinder
  rw [List.mem_singleton.mp hbinder]
  obtain ⟨number, hnumber⟩ := exists_candidate_freshName emitter.openBlock.visible iterator.name
  refine ⟨iterator.name, number, ?_, hnumber, fun h ↦ absurd h (Binder.not_keepsName (.inr rfl))⟩
  exact Bindings.get?_insert_self _ _ _

/-- What a statement introduces is apart from all that its block holds, and the block holds it from
then on. -/
theorem holds_statement {emitter : Emitter} {frame : Frame} {past : List Binder}
    (hholds : emitter.block.Holds past) (hmirrors : emitter.block.Mirrors frame)
    {statement : Statement} {outer : List Frame} {next last : Nat}
    (hscoped : statement.Scoped frame outer next last) :
    (∀ earlier ∈ past, ∀ later ∈ (emitter.statement statement).1.binder?, earlier.Apart later) ∧
      (emitter.statement statement).2.block.Holds
        (past ++ (emitter.statement statement).1.binder?.toList) := by
  rw [block_statement]
  cases statement with
  | functionDeclaration name function parameters body =>
    obtain ⟨rfl, hnew, -⟩ := hscoped
    have hunbound := hmirrors.unbound (Analysis.not_bindsValue_of_unbound hnew)
    constructor
    · intro earlier hearlier later hlater
      obtain rfl := Option.some.inj hlater
      exact hholds.apart_of_unbound rfl hunbound earlier hearlier
    · refine (hholds.insert hunbound).append 0 ?_ rfl fun _ ↦ rfl
      exact Bindings.get?_insert_self _ _ _
  | variableDeclaration target initializer =>
    have hunbound := hmirrors.unbound hscoped.1
    obtain ⟨number, hnumber⟩ := exists_candidate_freshName emitter.visible target.name
    constructor
    · intro earlier hearlier later hlater
      obtain rfl := Option.some.inj hlater
      refine hholds.apart_of_not_mem (fun hmem ↦ ?_) earlier hearlier
      exact freshName_not_mem emitter.visible target.name (List.mem_append_left _ hmem)
    · refine (hholds.insert hunbound).append number ?_ hnumber
        fun h ↦ absurd h (Binder.not_keepsName (.inl rfl))
      exact Bindings.get?_insert_self _ _ _
  | variableReassignment target value =>
    obtain ⟨written, -, hrebind⟩ := hmirrors.rebind_eq hscoped.1
    simp only [blockAfter, hrebind]
    exact hholds.of_none rfl
  | yieldValue value =>
    refine hholds.of_none ?_
    simp only [Emitter.statement]
    split <;> rfl
  | _ => exact hholds.of_none rfl

end Emitter

/-- What the statements of a block introduce is apart from one another and from what the block held
before them. -/
theorem Statement.apart_binders {statements : List Statement} {emitter : Emitter} {frame : Frame}
    {outer : List Frame} {next last : Nat} {past : List Binder}
    (hholds : emitter.block.Holds past) (hmirrors : emitter.block.Mirrors frame)
    (hscoped : Statement.AllScoped frame outer next last statements)
    (hpast : past.Pairwise Binder.Apart) :
    (past ++ Script.binders (emitter.statements statements).1).Pairwise Binder.Apart := by
  induction statements generalizing emitter frame next past with
  | nil => exact (List.append_nil past).symm ▸ hpast
  | cons first rest ih =>
    obtain ⟨middle, hfirst, hrest⟩ := hscoped
    obtain ⟨hapart, hheld⟩ := emitter.holds_statement hholds hmirrors hfirst
    have hsingle : (emitter.statement first).1.binder?.toList.Pairwise Binder.Apart := by
      cases (emitter.statement first).1.binder? with
      | none => exact .nil
      | some binder => exact List.pairwise_singleton _ binder
    have hmet : (past ++ (emitter.statement first).1.binder?.toList).Pairwise Binder.Apart :=
      List.pairwise_append.mpr ⟨hpast, hsingle, fun earlier hearlier later hlater ↦
        hapart earlier hearlier later (Option.mem_toList.mp hlater)⟩
    have hall := ih hheld (hmirrors.step hfirst) hrest hmet
    rw [List.append_assoc, ← Script.binders_cons] at hall
    exact hall

/-- Two parameters may have one name. -/
theorem Script.Parameter.apart_binders (parameters : List Script.Parameter) :
    (Script.Parameter.binders parameters).Pairwise Binder.Apart := by
  rw [Script.Parameter.binders, List.pairwise_map]
  refine List.pairwise_of_forall fun earlier later _ ↦ ?_
  exact Or.inl ⟨rfl, rfl⟩

/-! ### Inside of statements -/

mutual

/-- In the scopes that a scoped statement opens, names differ unless they may be equal. -/
theorem Statement.scopesApart : ∀ (statement : Statement) {emitter : Emitter} {frame : Frame}
    {outer : List Frame} {next last : Nat}, statement.Scoped frame outer next last →
      ∀ scope ∈ (emitter.statement statement).1.scopes, scope.Pairwise Binder.Apart
  | .functionDeclaration name function parameters body, emitter, _, _, next, _,
      ⟨_, _, _, hnames, _, hbody⟩ => by
    have hmirrors := (emitter.bind name).mirrors_enterFunction hnames (next + 1)
    have hholds := (emitter.bind name).holds_enterFunction emitter parameters
    refine List.forall_mem_cons.mpr ⟨?_, Statement.allScopesApart body hbody⟩
    exact Statement.apart_binders hholds hmirrors hbody (Script.Parameter.apart_binders _)
  | .predictiveLoop iterator _ _ _ body, emitter, _, _, _, _, ⟨_, _, _, _, hbody⟩ => by
    refine List.forall_mem_cons.mpr ⟨?_, Statement.allScopesApart body hbody⟩
    exact Statement.apart_binders (emitter.holds_openBlock_declare iterator)
      (emitter.mirrors_openBlock_declare iterator) hbody (List.pairwise_singleton _ _)
  | .variableDeclaration _ _, _, _, _, _, _, _ => nofun
  | .variableReassignment _ _, _, _, _, _, _, _ => nofun
  | .comparison _ _, _, _, _, _, _, _ => nofun
  | .print _, _, _, _, _, _, _ => nofun
  | .returnValue _, _, _, _, _, _, _ => nofun
  | .yieldValue _, _, _, _, _, _, _ => by
    simp only [Emitter.statement]
    split <;> exact nofun
  | .call _, _, _, _, _, _, _ => nofun

theorem Statement.allScopesApart : ∀ (statements : List Statement) {emitter : Emitter}
    {frame : Frame} {outer : List Frame} {next last : Nat},
    Statement.AllScoped frame outer next last statements →
      ∀ scope ∈ Script.Stmt.scopesAll (emitter.statements statements).1,
        scope.Pairwise Binder.Apart
  | [], _, _, _, _, _, _ => nofun
  | first :: rest, _, _, _, _, _, ⟨_, hfirst, hrest⟩ => by
    intro scope hscope
    rcases List.mem_append.mp hscope with hmem | hmem
    · exact Statement.scopesApart first hfirst scope hmem
    · exact Statement.allScopesApart rest hrest scope hmem

end

/-! ### The top level -/

namespace Emitter

/-- A variable keeps its name where nothing visible has it. -/
theorem freshName_eq_self {taken : List String} {name : String} (h : name ∉ taken) :
    freshName taken name = name := by
  unfold freshName
  rw [List.range_succ_eq_map, List.find?_cons_of_pos]
  · rfl
  · simpa [candidate] using h

/-- Only the top level is open, and its names are bound under themselves. -/
structure Plain (emitter : Emitter) : Prop where
  outer_eq : emitter.outer = []
  bound : ∀ written ∈ emitter.block.values, emitter.block.get? written ≠ none

namespace Plain

variable {emitter : Emitter} {frame : Frame} {outer : List Frame} {next last : Nat}

theorem initial : Emitter.initial.Plain := ⟨rfl, nofun⟩

theorem not_mem_visible (h : emitter.Plain) {name : String}
    (hname : emitter.block.get? name = none) : name ∉ emitter.visible := by
  unfold visible
  rw [h.outer_eq, List.flatMap_singleton]
  exact fun hmem ↦ h.bound name hmem hname

/-- At the top level a statement introduces nothing and leaves the block, or it introduces a name
that was not bound and binds it under itself. -/
theorem block_statement (h : emitter.Plain) (hmirrors : emitter.block.Mirrors frame)
    {statement : Statement} (hscoped : statement.Scoped frame outer next last) :
    (emitter.statement statement).1.binder? = none ∧
        (emitter.statement statement).2.block = emitter.block ∨
      ∃ binder, (emitter.statement statement).1.binder? = some binder ∧
        emitter.block.get? binder.name = none ∧
        (emitter.statement statement).2.block =
          emitter.block.insert binder.name binder.name := by
  rw [Emitter.block_statement]
  cases statement with
  | functionDeclaration name function parameters body =>
    obtain ⟨rfl, hnew, -⟩ := hscoped
    right
    exact ⟨_, rfl, hmirrors.unbound (Analysis.not_bindsValue_of_unbound hnew), rfl⟩
  | variableDeclaration target initializer =>
    right
    have hunbound := hmirrors.unbound hscoped.1
    have hname : (emitter.declare target).1 = target.name :=
      freshName_eq_self (h.not_mem_visible hunbound)
    refine ⟨⟨.variable, target.name⟩, ?_, hunbound, ?_⟩
    · show some (Binder.mk .variable (emitter.declare target).1) = _
      rw [hname]
    · show emitter.block.insert target.name (emitter.declare target).1 = _
      rw [hname]
  | variableReassignment target value =>
    obtain ⟨written, -, hrebind⟩ := hmirrors.rebind_eq hscoped.1
    left
    refine ⟨rfl, ?_⟩
    simp only [blockAfter, hrebind]
  | yieldValue value =>
    left
    simp only [Emitter.statement]
    exact ⟨by split <;> rfl, rfl⟩
  | _ => exact Or.inl ⟨rfl, rfl⟩

theorem statement (h : emitter.Plain) (hmirrors : emitter.block.Mirrors frame)
    {statement : Statement} (hscoped : statement.Scoped frame outer next last) :
    (emitter.statement statement).2.Plain := by
  refine ⟨(outer_statement emitter statement).trans h.outer_eq, ?_⟩
  rcases h.block_statement hmirrors hscoped with ⟨-, hblock⟩ | ⟨binder, -, -, hblock⟩
  · rw [hblock]
    exact h.bound
  · rw [hblock]
    intro written hwritten
    rw [Bindings.get?_insert]
    by_cases heq : (written == binder.name) = true
    · rw [if_pos heq]
      exact nofun
    · rw [if_neg heq]
      have hold := List.mem_cons.mp (Bindings.values_insert_subset _ _ _ hwritten)
      exact h.bound written (hold.resolve_left fun hname ↦ heq (beq_iff_eq.mpr hname))

end Plain

end Emitter

/-- At the top level, the names that statements introduce are all different, and none of them was
bound before. -/
theorem Statement.names_distinct {statements : List Statement} {emitter : Emitter} {frame : Frame}
    {outer : List Frame} {next last : Nat} (hplain : emitter.Plain)
    (hmirrors : emitter.block.Mirrors frame)
    (hscoped : Statement.AllScoped frame outer next last statements) :
    ((Script.binders (emitter.statements statements).1).map Binder.name).Nodup ∧
      ∀ binder ∈ Script.binders (emitter.statements statements).1,
        emitter.block.get? binder.name = none := by
  induction statements generalizing emitter frame next with
  | nil => exact ⟨.nil, nofun⟩
  | cons first rest ih =>
    obtain ⟨middle, hfirst, hrest⟩ := hscoped
    obtain ⟨hnodup, hunbound⟩ := ih (hplain.statement hmirrors hfirst) (hmirrors.step hfirst) hrest
    simp only [Emitter.statements, Script.binders_cons]
    rcases hplain.block_statement hmirrors hfirst with
      ⟨hnone, hblock⟩ | ⟨binder, hsome, hnew, hblock⟩
    · rw [hnone]
      rw [hblock] at hunbound
      exact ⟨hnodup, hunbound⟩
    · have hrestUnbound : ∀ other ∈ Script.binders
          ((emitter.statement first).2.statements rest).1,
          other.name ≠ binder.name ∧ emitter.block.get? other.name = none := by
        intro other hother
        have hget := hunbound other hother
        rw [hblock, Bindings.get?_insert] at hget
        split at hget
        · cases hget
        · next hne => exact ⟨fun heq ↦ hne (beq_iff_eq.mpr heq), hget⟩
      rw [hsome]
      refine ⟨List.nodup_cons.mpr ⟨?_, hnodup⟩, List.forall_mem_cons.mpr ⟨hnew, ?_⟩⟩
      · intro hmem
        obtain ⟨other, hother, heq⟩ := List.mem_map.mp hmem
        exact (hrestUnbound other hother).1 heq
      · exact fun other hother ↦ (hrestUnbound other hother).2

/-! ### Scripts of sources -/

/-- The text that a source is compiled to, folded or not, is that of a script in which the top level
introduces no name twice. In another scope two names are equal only if they are those of two
parameters or of a function with a numbered name and a variable or iterator before it, so that the
scope introduces no name twice exactly if no two of these are equal. -/
theorem compile_redeclares_only {source : Source} {folded : Bool} {text : String}
    (h : source.compile folded = .ok text) :
    ∃ program, source.program folded = .ok program ∧ text = Script.render program.script ∧
      ((Script.binders program.script).map Binder.name).Nodup ∧
      ∀ scope ∈ Script.Stmt.scopesAll program.script,
        scope.Pairwise (fun earlier later ↦
          earlier.name = later.name → earlier.MayClash later) ∧
        ((scope.map Binder.name).Nodup ↔
          scope.Pairwise fun earlier later ↦
            earlier.MayClash later → earlier.name ≠ later.name) := by
  obtain ⟨program, hprogram, htext⟩ := Source.exists_of_compile h
  obtain ⟨last, hscoped⟩ := Source.scoped_of_program hprogram
  have hmirrors : Emitter.initial.block.Mirrors Frame.root :=
    .empty_of_not_bindsValue Frame.not_bindsValue_root
  refine ⟨program, hprogram, htext,
    (Statement.names_distinct .initial hmirrors hscoped).1, fun scope hscope ↦ ?_⟩
  have hapart := Statement.allScopesApart program.statements hscoped scope hscope
  exact ⟨hapart, Binder.nodup_iff_of_apart hapart⟩

/-- The theorem at a source where a function in a function has a numbered name and the variables of
the two functions are renamed. -/
theorem compile_redeclares_only_numbered :
    ∃ source, source = Source.ofText "" ("let a = 1\ndefine g(b) then\n  let a = 2\n" ++
        "  define b_1() then\n    let b = a\n    return b\n  return a\nprint g(3)") ∧
      ∃ text, source.compile true = .ok text ∧
        ∃ program, source.program true = .ok program ∧ text = Script.render program.script ∧
          ((Script.binders program.script).map Binder.name).Nodup ∧
          ∀ scope ∈ Script.Stmt.scopesAll program.script,
            scope.Pairwise (fun earlier later ↦
              earlier.name = later.name → earlier.MayClash later) ∧
            ((scope.map Binder.name).Nodup ↔
              scope.Pairwise fun earlier later ↦
                earlier.MayClash later → earlier.name ≠ later.name) :=
  ⟨_, rfl, Exists.imp (fun _ htext ↦ ⟨htext, compile_redeclares_only htext⟩)
    (exists_of_isOk (by decide +kernel))⟩

/-- A scope that introduces a name twice: the variable `a` of the function is given the name `a_1`,
as an `a` is visible, and then a function `a_1` is declared beside it. -/
theorem function_redeclares_variable :
    ∃ source, source = Source.ofText "" ("let a = 1\ndefine g() then\n  let a = 2\n" ++
        "  define a_1() then return 3\n  return a\nprint g()") ∧
      source.compile false = .ok ("let a = 1;\n\nfunction g() \x7b\n  let a_1 = 2;\n" ++
        "  function a_1() \x7b\n    return 3;\n  \x7d\n  return a_1;\n\x7d\n\n" ++
        "console.log(g());\n") ∧
      ∃ program, source.program false = .ok program ∧
        [⟨.variable, "a_1"⟩, ⟨.function, "a_1"⟩] ∈ Script.Stmt.scopesAll program.script ∧
        ∃ scope ∈ Script.Stmt.scopesAll program.script, ¬ (scope.map Binder.name).Nodup := by
  exact ⟨_, rfl, by decide +kernel, exists_of_any (by decide +kernel)⟩

end Presage
