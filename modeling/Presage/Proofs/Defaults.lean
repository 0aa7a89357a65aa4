import Mathlib.Data.List.Basic
import Presage.Proofs.NewNames
import Presage.Proofs.Resolution

/-!
Names in the defaults of parameters. A default means what its names mean around the function, and is
written in the list of the parameters, whose names come before those of the blocks around. The
defaults of a program are walked beside its script as its other expressions are
(`Program.defaultOccurrences`), and every name that the script has in a default is met
(`Statement.names_defaultOccurrences`).

`defaults_resolve_unless_taken` says what the names resolve to. Every entity that a default uses has
one declaration in the blocks around the function, under the written name. Behind the parameters the
name resolves to it exactly if no parameter is called so, and nothing captures it outside. A
parameter that is called so takes the name: `parameter_takes_default` is such a function.
-/

set_option autoImplicit false
set_option relaxedAutoImplicit false

namespace Presage

open Script (Declaration Block)

/-! ### Names of defaults -/

/-- The uses in the defaults of parameters. -/
def Parameter.usesAll (parameters : List Parameter) : List Use :=
  parameters.flatMap fun parameter ↦ (parameter.default?.map Expr.uses).getD []

/-- The names in the defaults of parameters. -/
def Script.Parameter.namesAll (parameters : List Script.Parameter) : List String :=
  parameters.flatMap fun parameter ↦ (parameter.default?.map Script.Term.names).getD []

theorem Parameter.mem_usesAll_iff {parameters : List Parameter} {use : Use} :
    use ∈ Parameter.usesAll parameters ↔
      ∃ parameter ∈ parameters, ∃ default ∈ parameter.default?, use ∈ default.uses := by
  unfold usesAll
  rw [List.mem_flatMap]
  refine exists_congr fun parameter ↦ and_congr_right fun _ ↦ ?_
  cases parameter.default? <;> simp

theorem Emitter.namesAll_parameters (emitter : Emitter) (parameters : List Parameter) :
    Script.Parameter.namesAll (parameters.map emitter.parameter) =
      (Parameter.usesAll parameters).map emitter.useName := by
  unfold Script.Parameter.namesAll Parameter.usesAll
  rw [List.flatMap_map, List.map_flatMap]
  refine List.flatMap_congr fun parameter _ ↦ ?_
  cases hdefault : parameter.default? with
  | none => simp [Emitter.parameter, hdefault]
  | some default => simp [Emitter.parameter, hdefault, Emitter.names_term]

/-- A name in a default, as it occurs in the blocks around the function, with the declarations of
the parameters of the function. -/
structure DefaultOccurrence where
  parameters : Block
  occurrence : Occurrence

mutual

/-- The names in the defaults of a statement that is written as the given one. -/
def Statement.defaultOccurrences (ownership : Ownership) (blocks : List Block) :
    Statement → Script.Stmt → List DefaultOccurrence
  | .functionDeclaration _ function parameters body, .function _ _ written lines =>
    (ownership.occurrences blocks (Parameter.usesAll parameters)
        (Script.Parameter.namesAll written)).map
      (DefaultOccurrence.mk (Script.Parameter.declarations (function.id + 1) written)) ++
    Statement.defaultOccurrencesAll (ownership.enterFunction function parameters)
      ((Script.Parameter.declarations (function.id + 1) written ++
        Statement.declarations body lines) :: blocks) body lines
  | .predictiveLoop iterator _ _ _ body, .loop _ name _ _ lines =>
    Statement.defaultOccurrencesAll (ownership.enterLoop iterator)
      ((⟨.iterator, name, iterator.id⟩ :: Statement.declarations body lines) :: blocks) body lines
  | _, _ => []

def Statement.defaultOccurrencesAll (ownership : Ownership) (blocks : List Block) :
    List Statement → List Script.Stmt → List DefaultOccurrence
  | statement :: rest, line :: lines =>
    Statement.defaultOccurrences ownership blocks statement line ++
      Statement.defaultOccurrencesAll (ownership.after statement) blocks rest lines
  | _, _ => []

end

/-- The names in the defaults of a program, as they are in its script. -/
def Program.defaultOccurrences (program : Program) : List DefaultOccurrence :=
  Statement.defaultOccurrencesAll .initial
    [Statement.declarations program.statements program.script] program.statements program.script

/-! ### Nothing is left out -/

mutual

/-- The uses in the defaults of a statement. -/
def Statement.defaultUses : Statement → List Use
  | .functionDeclaration _ _ parameters body =>
    Parameter.usesAll parameters ++ Statement.defaultUsesAll body
  | .predictiveLoop _ _ _ _ body => Statement.defaultUsesAll body
  | _ => []

def Statement.defaultUsesAll : List Statement → List Use
  | [] => []
  | statement :: rest => Statement.defaultUses statement ++ Statement.defaultUsesAll rest

end

mutual

/-- The names in the defaults of a statement, each with the names of all parameters of its
function. -/
def Script.Stmt.defaultNames : Script.Stmt → List (List String × String)
  | .function _ _ parameters body =>
    (Script.Parameter.namesAll parameters).map
      (Prod.mk (parameters.map Script.Parameter.name)) ++ Script.Stmt.defaultNamesAll body
  | .loop _ _ _ _ body => Script.Stmt.defaultNamesAll body
  | _ => []

def Script.Stmt.defaultNamesAll : List Script.Stmt → List (List String × String)
  | [] => []
  | line :: rest => Script.Stmt.defaultNames line ++ Script.Stmt.defaultNamesAll rest

end

/-- The name in a default with the names of all parameters of its function. -/
def DefaultOccurrence.names (found : DefaultOccurrence) : List String × String :=
  (found.parameters.map Declaration.name, found.occurrence.name)

theorem Script.Parameter.map_name_declarations (next : Nat) (parameters : List Script.Parameter) :
    (Script.Parameter.declarations next parameters).map Declaration.name =
      parameters.map Script.Parameter.name := by
  induction parameters generalizing next with
  | nil => rfl
  | cons parameter rest ih => rw [declarations, List.map_cons, ih, List.map_cons]

mutual

/-- Every name in the defaults of an emitted statement is met, with its use. -/
theorem Statement.names_defaultOccurrences (ownership : Ownership) (blocks : List Block)
    (emitter : Emitter) : ∀ statement : Statement,
    (statement.defaultOccurrences ownership blocks (emitter.statement statement).1).map
        DefaultOccurrence.names = (emitter.statement statement).1.defaultNames ∧
      (statement.defaultOccurrences ownership blocks (emitter.statement statement).1).map
        (fun found ↦ found.occurrence.use) = statement.defaultUses
  | .functionDeclaration name function parameters body => by
    have hbody := Statement.names_defaultOccurrencesAll
      (ownership.enterFunction function parameters)
      ((Script.Parameter.declarations (function.id + 1) (parameters.map emitter.parameter) ++
        Statement.declarations body
          (((emitter.bind name).enterFunction parameters).statements body).1) :: blocks)
      ((emitter.bind name).enterFunction parameters) body
    simp only [Emitter.statement, Statement.defaultOccurrences, Script.Stmt.defaultNames,
      Statement.defaultUses, List.map_append, hbody.1, hbody.2, Emitter.namesAll_parameters,
      Ownership.occurrences_map, List.map_map]
    refine ⟨congrArg (· ++ _) (List.map_congr_left fun use _ ↦ ?_), congrArg (· ++ _) ?_⟩
    · refine Prod.ext ?_ rfl
      exact (Script.Parameter.map_name_declarations _ _).trans (List.map_map ..)
    · exact List.map_id _
  | .predictiveLoop iterator low high pattern body =>
    Statement.names_defaultOccurrencesAll _ _ _ body
  | .yieldValue value => by
    simp only [Emitter.statement]
    split <;> exact ⟨rfl, rfl⟩
  | .variableDeclaration _ _ | .variableReassignment _ _ | .comparison _ _ | .print _
  | .returnValue _ | .call _ => ⟨rfl, rfl⟩

theorem Statement.names_defaultOccurrencesAll (ownership : Ownership) (blocks : List Block)
    (emitter : Emitter) : ∀ statements : List Statement,
    (Statement.defaultOccurrencesAll ownership blocks statements
        (emitter.statements statements).1).map DefaultOccurrence.names =
        Script.Stmt.defaultNamesAll (emitter.statements statements).1 ∧
      (Statement.defaultOccurrencesAll ownership blocks statements
        (emitter.statements statements).1).map (fun found ↦ found.occurrence.use) =
        Statement.defaultUsesAll statements
  | [] => ⟨rfl, rfl⟩
  | statement :: rest => by
    have hfirst := Statement.names_defaultOccurrences ownership blocks emitter statement
    have hrest := Statement.names_defaultOccurrencesAll (ownership.after statement) blocks
      (emitter.statement statement).2 rest
    simp only [Emitter.statements, Statement.defaultOccurrencesAll, Script.Stmt.defaultNamesAll,
      Statement.defaultUsesAll, List.map_append, hfirst.1, hfirst.2, hrest.1, hrest.2, and_self]

end

/-! ### Declarations around the function -/

/-- Behind a block that does not have the declaration, its name resolves to it when the block does
not have the name. -/
theorem Script.resolvesTo_cons_iff {declaration : Declaration} {block : Block}
    {blocks : List Block} (h : declaration ∈ blocks.flatten) (hblock : declaration ∉ block) :
    ResolvesTo declaration.name declaration (block :: blocks) ↔
      declaration.name ∉ block.map Declaration.name ∧
        ResolvesTo declaration.name declaration blocks := by
  have hmem : declaration ∈ (block :: blocks).flatten := List.mem_append_right block h
  rw [resolvesTo_iff hmem, resolvesTo_iff h, reach, if_neg hblock]
  constructor
  · intro honly
    refine ⟨fun hname ↦ ?_, fun other hother ↦ honly other (List.mem_append_right block hother)⟩
    obtain ⟨other, hother, hsame⟩ := List.mem_map.mp hname
    exact hblock (honly other (List.mem_append_left _ hother) hsame ▸ hother)
  · rintro ⟨hfree, honly⟩ other hother hsame
    rcases List.mem_append.mp hother with hinner | houter
    · exact (hfree (List.mem_map.mpr ⟨other, hinner, hsame⟩)).elim
    · exact honly other houter hsame

/-- The name in a default stands for an entity that is declared in the blocks around the function,
and none of the parameters is declared there. -/
structure DefaultOccurrence.Enclosed (found : DefaultOccurrence) : Prop where
  owned : found.occurrence.owner?.isSome
  declared : found.occurrence.Declared
  apart : ∀ declaration ∈ found.occurrence.blocks.flatten, declaration ∉ found.parameters

/-- No frame has a struct type, which would not be declared. -/
abbrev Frame.Structless (frames : List Frame) : Prop :=
  Frame.Each (fun _ entity ↦ ∀ target, entity ≠ .type (.struct target)) frames

/-- A use that holds what its name means has a declaration if no struct type is bound. -/
theorem Use.FoundIn.owned {frames : List Frame} (hstructless : Frame.Structless frames) {use : Use}
    (hfound : use.FoundIn frames) (ownership : Ownership) : (ownership.owner? use).isSome := by
  cases use with
  | reference target | functionReference target | call target => rfl
  | construct target =>
    obtain ⟨name, hlookup⟩ := hfound
    exact (hstructless.of_lookup? hlookup target rfl).elim

theorem Frame.Structless.after {frame : Frame} {frames : List Frame}
    (h : Frame.Structless (frame :: frames)) (statement : Statement) :
    Frame.Structless (frame.after statement :: frames) := by
  obtain ⟨hframe, hframes⟩ := Frame.each_cons.mp h
  exact Frame.each_cons.mpr ⟨hframe.after (fun _ _ ↦ nofun) fun _ _ _ _ _ ↦ nofun, hframes⟩

theorem Frame.Structless.enterFunction {frames : List Frame} (h : Frame.Structless frames)
    (next : Nat) (parameters : List Parameter) :
    Frame.Structless (Frame.withParameters .empty next parameters :: frames) :=
  Frame.each_cons.mpr ⟨Frame.each_empty.withParameters (fun _ _ ↦ nofun) _ _, h⟩

theorem Frame.Structless.enterLoop {frames : List Frame} (h : Frame.Structless frames)
    (iterator : Variable) :
    Frame.Structless (Bindings.empty.insert iterator.name (.var iterator) :: frames) :=
  Frame.each_cons.mpr ⟨Frame.each_empty.insert fun _ ↦ nofun, h⟩

/-- The levels have no declaration of the innermost one anywhere else. -/
theorem Level.Separate.apart {first last : Nat} {level : Level} {outer : List Level}
    (h : Level.Separate first last (level :: outer)) :
    ∀ declaration ∈ (outer.map Level.declarations).flatten, declaration ∉ level.past := by
  intro declaration houter hlevel
  have hnodup := h.nodup
  rw [List.flatMap_cons, List.map_append, List.nodup_append] at hnodup
  obtain ⟨-, -, hdisjoint⟩ := hnodup
  rw [← List.flatMap_def] at houter
  exact hdisjoint declaration.owner
    (List.mem_map_of_mem (List.mem_append_left level.future hlevel)) declaration.owner
    (List.mem_map_of_mem houter) rfl

namespace Aligned

variable {emitter : Emitter} {ownership : Ownership} {next last : Nat} {level : Level}
  {outer : List Level} {name : String} {function : Func} {parameters : List Parameter}
  {body rest : List Statement}

/-- The names in the defaults of a function that stands before the given statements. -/
theorem enclosed_defaults (h : Aligned emitter ownership next level outer)
    (hseparate : Level.Separate next last (level :: outer))
    (hstructless : Frame.Structless (level.frame :: outer.map Level.frame))
    (hscoped : Statement.AllScoped level.frame (outer.map Level.frame) next last
      (.functionDeclaration name function parameters body :: rest)) :
    ∀ occurrence ∈ ownership.occurrences
        ((level.past ++ Statement.declarations
            (.functionDeclaration name function parameters body :: rest)
            (emitter.statements (.functionDeclaration name function parameters body :: rest)).1) ::
          outer.map Level.declarations)
        (Parameter.usesAll parameters) ((Parameter.usesAll parameters).map emitter.useName),
      DefaultOccurrence.Enclosed
        ⟨Script.Parameter.declarations (function.id + 1) (parameters.map emitter.parameter),
          occurrence⟩ := by
  have ⟨_, hfirst, hrest⟩ := hscoped
  have hfound : ∀ use ∈ Parameter.usesAll parameters,
      use.FoundIn (level.frame :: outer.map Level.frame) := by
    intro use huse
    obtain ⟨parameter, hparameter, default, hdefault, hmem⟩ := Parameter.mem_usesAll_iff.mp huse
    exact hfirst.2.2.2.2.1 parameter hparameter default hdefault use hmem
  have hapart := (h.separate_functionBody hseparate hfirst hrest).apart
  rw [List.map_cons, blocks_after, hfirst.past_withParameters emitter] at hapart
  intro occurrence hoccurrence
  have hdeclared := h.declared_occurrences hseparate hscoped hfound occurrence hoccurrence
  rw [Ownership.occurrences_map] at hoccurrence
  obtain ⟨use, huse, rfl⟩ := List.mem_map.mp hoccurrence
  exact ⟨(hfound use huse).owned hstructless ownership, hdeclared, hapart⟩

end Aligned

mutual

/-- Every name in the defaults of a statement, with the statements after it, is enclosed. -/
theorem Statement.enclosed_defaults : ∀ (statement : Statement) (rest : List Statement)
    {emitter : Emitter} {ownership : Ownership} {next last : Nat} {level : Level}
    {outer : List Level}, Aligned emitter ownership next level outer →
    Level.Separate next last (level :: outer) →
    Frame.Structless (level.frame :: outer.map Level.frame) →
    Statement.AllScoped level.frame (outer.map Level.frame) next last (statement :: rest) →
    ∀ found ∈ statement.defaultOccurrences ownership
        ((level.past ++
            Statement.declarations (statement :: rest)
              (emitter.statements (statement :: rest)).1) ::
          outer.map Level.declarations) (emitter.statement statement).1,
      found.Enclosed
  | .functionDeclaration name function parameters body, rest, emitter, ownership, next, last, level,
      outer, haligned, hseparate, hstructless, hscoped@⟨middle, hfirst, hrest⟩ => by
    -- The defaults are met before the function is bound, with the blocks that it stands in.
    have hdefaults := haligned.enclosed_defaults hseparate hstructless hscoped
    have hinside := haligned.functionBody hfirst hrest
    have hfree := haligned.separate_functionBody hseparate hfirst hrest
    have hpast := hfirst.past_withParameters emitter
    have hframes := hstructless.after (.functionDeclaration name function parameters body)
    have hinnerFrames := hframes.enterFunction (next + 1) function.parameters
    obtain ⟨-, -, -, -, -, hbody⟩ := hfirst
    have hframe := Level.frame_withParameters Level.empty (next + 1) function.parameters
    change _ = Frame.withParameters .empty (next + 1) function.parameters at hframe
    rw [← hframe] at hbody hinnerFrames
    have henclosed := Statement.enclosed_defaultsAll body hinside hfree hinnerFrames hbody
    rw [hpast, List.map_cons, Aligned.blocks_after] at henclosed
    simp only [Emitter.statement, Statement.defaultOccurrences, Emitter.namesAll_parameters]
    intro found hmem
    rcases List.mem_append.mp hmem with hdefault | hinner
    · obtain ⟨occurrence, hoccurrence, rfl⟩ := List.mem_map.mp hdefault
      exact hdefaults occurrence hoccurrence
    · exact henclosed found hinner
  | .predictiveLoop iterator low high pattern body, rest, emitter, ownership, next, last, level,
      outer, haligned, hseparate, hstructless, ⟨middle, hfirst, hrest⟩ => by
    have hinside := haligned.loopBody hfirst hrest
    have hfree := haligned.separate_loopBody hseparate hfirst hrest
    obtain ⟨-, -, -, -, hbody⟩ := hfirst
    have henclosed := Statement.enclosed_defaultsAll body hinside hfree
      (hstructless.enterLoop iterator) hbody
    rw [List.map_cons, Aligned.blocks_after] at henclosed
    exact henclosed
  | .yieldValue value, _, emitter, _, _, _, _, _, _, _, _, _ => by
    simp only [Emitter.statement]
    split <;> nofun
  | .variableDeclaration _ _, _, _, _, _, _, _, _, _, _, _, _ => nofun
  | .variableReassignment _ _, _, _, _, _, _, _, _, _, _, _, _ => nofun
  | .comparison _ _, _, _, _, _, _, _, _, _, _, _, _ => nofun
  | .print _, _, _, _, _, _, _, _, _, _, _, _ => nofun
  | .returnValue _, _, _, _, _, _, _, _, _, _, _, _ => nofun
  | .call _, _, _, _, _, _, _, _, _, _, _, _ => nofun

/-- Every name in the defaults of statements is enclosed. -/
theorem Statement.enclosed_defaultsAll : ∀ (statements : List Statement)
    {emitter : Emitter} {ownership : Ownership} {next last : Nat} {level : Level}
    {outer : List Level}, Aligned emitter ownership next level outer →
    Level.Separate next last (level :: outer) →
    Frame.Structless (level.frame :: outer.map Level.frame) →
    Statement.AllScoped level.frame (outer.map Level.frame) next last statements →
    ∀ found ∈ Statement.defaultOccurrencesAll ownership
        ((level.past ++ Statement.declarations statements (emitter.statements statements).1) ::
          outer.map Level.declarations) statements (emitter.statements statements).1,
      found.Enclosed
  | [], _, _, _, _, _, _, _, _, _, _ => nofun
  | first :: rest, emitter, ownership, next, last, level, outer, haligned, hseparate, hstructless,
      hscoped@⟨middle, hfirst, hrest⟩ => by
    intro found hmem
    rcases List.mem_append.mp hmem with hnow | hlater
    · exact Statement.enclosed_defaults first rest haligned hseparate hstructless hscoped found hnow
    · have hle := (Emitter.names_statements emitter rest hrest).le
      have hframes := hstructless.after first
      rw [← level.frame_after emitter] at hrest hframes
      refine Statement.enclosed_defaultsAll rest (haligned.after hfirst)
        (hseparate.after haligned.future_eq emitter hfirst hle) hframes hrest found ?_
      have hblocks := Aligned.blocks_after level emitter first rest
      unfold Level.declarations Level.withFuture at hblocks
      rw [hblocks]
      exact hlater

end

/-! ### Scripts of sources -/

/-- An enclosed name resolves as in the blocks around the function unless a parameter has it. -/
theorem DefaultOccurrence.Enclosed.resolves {found : DefaultOccurrence} (h : found.Enclosed) :
    ∃ own ∈ found.occurrence.blocks.flatten, found.occurrence.owner? = some own.owner ∧
      own.name = found.occurrence.name ∧
      (∀ other ∈ found.occurrence.blocks.flatten, other.owner = own.owner → other = own) ∧
      (Script.ResolvesTo found.occurrence.name own (found.parameters :: found.occurrence.blocks) ↔
        found.occurrence.name ∉ found.parameters.map Declaration.name ∧
        ∀ other ∈ Script.reach own found.occurrence.blocks, ¬ own.CapturedBy other) := by
  obtain ⟨owner, howner⟩ := Option.isSome_iff_exists.mp h.owned
  obtain ⟨own, hmem, rfl, hname, hunique, hothers⟩ := h.declared owner howner
  refine ⟨own, hmem, howner, hname, hunique, ?_⟩
  rw [← hname, Script.resolvesTo_cons_iff hmem (h.apart own hmem), Script.resolvesTo_iff hmem]
  refine and_congr_right fun _ ↦ ⟨?_, fun hfree other hother hsame ↦ ?_⟩
  · rintro honly other hother ⟨hsame, hne, -⟩
    exact hne (honly other hother hsame)
  · by_contra hne
    exact hfree other hother ⟨hsame, hne, hothers other hother hsame hne⟩

/-- In the text that a source is compiled to, folded or not, every name in a default belongs to an
entity that has exactly one declaration in the blocks around the function, under that name. Behind
the parameters the name resolves to it if and only if none of them has the name and nothing captures
it in the blocks around. -/
theorem defaults_resolve_unless_taken {source : Source} {folded : Bool} {text : String}
    (h : source.compile folded = .ok text) :
    ∃ program, source.program folded = .ok program ∧ text = Script.render program.script ∧
      program.defaultOccurrences.map DefaultOccurrence.names =
        Script.Stmt.defaultNamesAll program.script ∧
      program.defaultOccurrences.map (fun found ↦ found.occurrence.use) =
        Statement.defaultUsesAll program.statements ∧
      ∀ found ∈ program.defaultOccurrences,
        ∃ own ∈ found.occurrence.blocks.flatten, found.occurrence.owner? = some own.owner ∧
          own.name = found.occurrence.name ∧
          (∀ other ∈ found.occurrence.blocks.flatten, other.owner = own.owner → other = own) ∧
          (Script.ResolvesTo found.occurrence.name own
              (found.parameters :: found.occurrence.blocks) ↔
            found.occurrence.name ∉ found.parameters.map Declaration.name ∧
            ∀ other ∈ Script.reach own found.occurrence.blocks, ¬ own.CapturedBy other) := by
  obtain ⟨program, hprogram, htext⟩ := Source.exists_of_compile h
  obtain ⟨last, hscoped⟩ := Source.scoped_of_program hprogram
  obtain ⟨hnames, huses⟩ := Statement.names_defaultOccurrencesAll .initial
    [Statement.declarations program.statements program.script] .initial program.statements
  refine ⟨program, hprogram, htext, hnames, huses, fun found hfound ↦ ?_⟩
  exact (Statement.enclosed_defaultsAll program.statements aligned_initial (separate_initial last)
    Frame.structless_root hscoped found hfound).resolves

/-- The theorem at a source where a default reads a variable and calls a function. -/
theorem defaults_resolve_unless_taken_call :
    ∃ source, source = Source.ofText "" ("let a = 1\ndefine g(x) then return x + 1\n" ++
        "define f(b = g(a), c = a) then return b + c\nprint f()") ∧
      ∃ text, source.compile true = .ok text ∧
        ∃ program, source.program true = .ok program ∧ text = Script.render program.script ∧
          program.defaultOccurrences.map DefaultOccurrence.names =
            Script.Stmt.defaultNamesAll program.script ∧
          program.defaultOccurrences.map (fun found ↦ found.occurrence.use) =
            Statement.defaultUsesAll program.statements ∧
          ∀ found ∈ program.defaultOccurrences,
            ∃ own ∈ found.occurrence.blocks.flatten, found.occurrence.owner? = some own.owner ∧
              own.name = found.occurrence.name ∧
              (∀ other ∈ found.occurrence.blocks.flatten,
                other.owner = own.owner → other = own) ∧
              (Script.ResolvesTo found.occurrence.name own
                  (found.parameters :: found.occurrence.blocks) ↔
                found.occurrence.name ∉ found.parameters.map Declaration.name ∧
                ∀ other ∈ Script.reach own found.occurrence.blocks, ¬ own.CapturedBy other) :=
  ⟨_, rfl, Exists.imp (fun _ htext ↦ ⟨htext, defaults_resolve_unless_taken htext⟩)
    (exists_of_isOk (by decide +kernel))⟩

/-- A parameter that takes the name in the default of another: the variable `a` is meant, and the
parameter `a` is what the name resolves to. -/
theorem parameter_takes_default :
    ∃ source, source = Source.ofText ""
        "let a = 1\ndefine f(a, b = a) then return b\nprint f(5)" ∧
      source.compile false = .ok ("let a = 1;\n\n" ++
        "function f(a, b = a) \x7b\n  return b;\n\x7d\n\n" ++ "console.log(f(5));\n") ∧
      ∃ program, source.program false = .ok program ∧
        Script.Stmt.defaultNamesAll program.script = [(["a", "b"], "a")] ∧
        ∃ found ∈ program.defaultOccurrences, found.occurrence.owner? = some 0 ∧
          ⟨.variable, "a", 0⟩ ∈ found.occurrence.blocks.flatten ∧
          Script.ResolvesTo "a" ⟨.parameter, "a", 2⟩
            (found.parameters :: found.occurrence.blocks) := by
  exact ⟨_, rfl, by decide +kernel, exists_of_any (by decide +kernel)⟩

end Presage
