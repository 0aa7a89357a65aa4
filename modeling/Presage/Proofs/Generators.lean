import Presage.Proofs.Lockstep
import Presage.Proofs.Walks

/-!
Which functions of a script are generators. Whether a function is one is decided by a search through
its body, before the body is written. Whether a value is yielded or logged is decided when its
statement is met, by a flag that says whether a function is open. The two have to agree, however
loops and functions are nested.

An emitter walks through a program (`Emitter.walker`), and the places of the script are those of the
program (`Emitter.within_script_iff`). A statement leaves the flag as it was, and a body changes it
only if it is that of a function, so the flag says whether a function is around
(`Emitter.inFunction_of_meets`). The search finds the values that are yielded in a body outside of
the functions in it (`Statement.anyYields_iff`), and these are the ones whose nearest function is
the one of the body. `yields_stand_in_generators` puts the two together.
-/

set_option autoImplicit false
set_option relaxedAutoImplicit false

namespace Presage

/-! ### Places in a script -/

namespace Script.Stmt

def body : Stmt → List Stmt
  | function _ _ _ body | loop _ _ _ _ body => body
  | _ => []

/-- The statement is one of the given ones or stands inside of them, in the bodies of the statements
`around`, from the inside out. -/
inductive Within (statements : List Stmt) : List Stmt → Stmt → Prop
  | top {statement : Stmt} (h : statement ∈ statements) : Within statements [] statement
  | inner {around : List Stmt} {outer statement : Stmt} (houter : Within statements around outer)
      (h : statement ∈ outer.body) : Within statements (outer :: around) statement

def isFunction : Stmt → Bool
  | function _ _ _ _ => true
  | _ => false

/-- The text of the statement starts with `function*`, at any depth. -/
def IsGenerator (statement : Stmt) : Prop :=
  ∀ depth, ∃ rest, (statement.lines depth).head? = some (indented depth ("function*" ++ rest))

theorem isGenerator_function_iff {generator : Bool} {name : String} {parameters : List Parameter}
    {body : List Stmt} :
    (function generator name parameters body).IsGenerator ↔ generator = true := by
  constructor
  · intro h
    obtain ⟨rest, hrest⟩ := h 0
    cases generator with
    | true => rfl
    | false =>
      simp only [lines] at hrest
      have hchars := congrArg (fun text ↦ text.toList[8]?) (Option.some.inj hrest)
      simp [indented] at hchars
  · rintro rfl depth
    refine ⟨" " ++ name ++ "(" ++ ", ".intercalate (parameters.map Parameter.render) ++ ") \x7b",
      ?_⟩
    simp only [lines, if_true, ← String.append_assoc]
    rfl

end Script.Stmt

/-! ### Statements that are met -/

namespace Emitter

/-- The state in which the first statement in the body of a function or a loop is met. -/
def enterBody (emitter : Emitter) : Statement → Emitter
  | .functionDeclaration name _ parameters _ => (emitter.bind name).enterFunction parameters
  | .predictiveLoop iterator _ _ _ _ => (emitter.openBlock.declare iterator).2
  | _ => emitter

/-- The walk of an emitter through the statements that it emits. -/
def walker : Walker Emitter := ⟨fun emitter statement ↦ (emitter.statement statement).2, enterBody⟩

/-- The lines of statements are written one after the other, each in the state that those before it
leave. -/
theorem mem_statements_iff {emitter : Emitter} {statements : List Statement} {line : Script.Stmt} :
    line ∈ (emitter.statements statements).1 ↔
      ∃ before statement after, statements = before ++ statement :: after ∧
        line = lineOf (before.foldl walker.step emitter, statement) := by
  induction statements generalizing emitter with
  | nil =>
    constructor
    · intro h
      cases h
    · rintro ⟨before, statement, after, h, -⟩
      exact absurd h.symm (List.append_ne_nil_of_right_ne_nil before (List.cons_ne_nil _ _))
  | cons first rest ih =>
    have hlines : (emitter.statements (first :: rest)).1 =
        lineOf (emitter, first) :: ((emitter.statement first).2.statements rest).1 := rfl
    rw [hlines, List.mem_cons, ih]
    constructor
    · rintro (rfl | ⟨before, statement, after, rfl, rfl⟩)
      · exact ⟨[], first, rest, rfl, rfl⟩
      · exact ⟨first :: before, statement, after, rfl, rfl⟩
    · rintro ⟨before, statement, after, h, rfl⟩
      cases before with
      | nil =>
        obtain ⟨rfl, rfl⟩ := List.cons.inj h
        exact Or.inl rfl
      | cons earlier before =>
        obtain ⟨rfl, rfl⟩ := List.cons.inj h
        exact Or.inr ⟨before, statement, after, rfl, rfl⟩

/-- The body of a statement is written in the state that entering it gives. -/
theorem body_lineOf (met : Emitter × Statement) :
    (lineOf met).body = ((met.1.enterBody met.2).statements met.2.body).1 := by
  obtain ⟨emitter, statement⟩ := met
  cases statement with
  | yieldValue value =>
    simp only [lineOf, Emitter.statement]
    split <;> rfl
  | _ => rfl

theorem isFunction_lineOf (met : Emitter × Statement) :
    (lineOf met).isFunction = met.2.isFunction := by
  obtain ⟨emitter, statement⟩ := met
  cases statement with
  | yieldValue value =>
    simp only [lineOf, Emitter.statement]
    split <;> rfl
  | _ => rfl

/-- What stands in the script of statements, and inside of what, is what is written for the
statements that are met. -/
theorem within_script_iff {start : Emitter} {statements : List Statement}
    {around : List Script.Stmt} {line : Script.Stmt} :
    Script.Stmt.Within (start.statements statements).1 around line ↔
      ∃ visits met, walker.Meets start statements visits met ∧ around = visits.map lineOf ∧
        line = lineOf met := by
  constructor
  · intro h
    induction h with
    | top hmem =>
      obtain ⟨before, statement, after, hstatements, rfl⟩ := mem_statements_iff.mp hmem
      exact ⟨[], _, .top hstatements, rfl, rfl⟩
    | inner _ hmem ih =>
      obtain ⟨visits, outer, houter, rfl, rfl⟩ := ih
      rw [body_lineOf] at hmem
      obtain ⟨before, statement, after, hbody, rfl⟩ := mem_statements_iff.mp hmem
      exact ⟨outer :: visits, _, .inner houter hbody, rfl, rfl⟩
  · rintro ⟨visits, met, h, rfl, rfl⟩
    induction h with
    | top hstatements =>
      exact .top (mem_statements_iff.mpr ⟨_, _, _, hstatements, rfl⟩)
    | inner _ hbody ih =>
      refine .inner ih ?_
      rw [body_lineOf]
      exact mem_statements_iff.mpr ⟨_, _, _, hbody, rfl⟩

/-! ### The flag -/

theorem closeBlock_inFunction (emitter : Emitter) :
    emitter.closeBlock.inFunction = emitter.inFunction := by
  unfold closeBlock
  split <;> rfl

mutual

/-- A statement leaves the flag as it was. -/
theorem inFunction_statement (emitter : Emitter) : ∀ statement : Statement,
    (emitter.statement statement).2.inFunction = emitter.inFunction
  | .functionDeclaration _ _ _ _ => rfl
  | .variableDeclaration _ _ => rfl
  | .variableReassignment target _ => by
    simp only [statement, rebind]
    split <;> rfl
  | .predictiveLoop iterator _ _ _ body => by
    simp only [statement, closeBlock_inFunction]
    exact inFunction_statements (emitter.openBlock.declare iterator).2 body
  | .comparison _ _ => rfl
  | .print _ => rfl
  | .returnValue _ => rfl
  | .yieldValue _ => rfl
  | .call _ => rfl

theorem inFunction_statements (emitter : Emitter) : ∀ statements : List Statement,
    (emitter.statements statements).2.inFunction = emitter.inFunction
  | [] => rfl
  | first :: rest => by
    simp only [statements]
    rw [inFunction_statements (emitter.statement first).2 rest, inFunction_statement emitter first]

end

theorem inFunction_foldl (emitter : Emitter) (statements : List Statement) :
    (statements.foldl walker.step emitter).inFunction = emitter.inFunction := by
  induction statements generalizing emitter with
  | nil => rfl
  | cons first rest ih => rw [List.foldl_cons, ih, walker, inFunction_statement]

/-- In the body of a function a function is open, and in that of a loop if one was open before. -/
theorem inFunction_enterBody (emitter : Emitter) (statement : Statement) :
    (emitter.enterBody statement).inFunction = (statement.isFunction || emitter.inFunction) := by
  cases statement <;> rfl

/-- The flag says whether a function is around. -/
theorem inFunction_of_meets {start : Emitter} {statements : List Statement}
    {around : List (Emitter × Statement)} {met : Emitter × Statement}
    (h : walker.Meets start statements around met) :
    met.1.inFunction = (around.any (fun outer ↦ outer.2.isFunction) || start.inFunction) := by
  induction h with
  | top _ => exact inFunction_foldl start _
  | @inner around outer _ _ _ _ _ ih =>
    have hentered := inFunction_enterBody outer.1 outer.2
    rw [inFunction_foldl, walker, hentered, ih, List.any_cons, Bool.or_assoc]

end Emitter

/-! ### The search for a yield -/

namespace Statement

/-- What stands inside of a statement that stands inside of others stands inside of all of them. -/
theorem Within.trans {statements around inside : List Statement} {outer statement : Statement}
    (houter : Within statements around outer) (h : Within outer.body inside statement) :
    Within statements (inside ++ outer :: around) statement := by
  induction h with
  | top hmem => exact .inner houter hmem
  | inner _ hmem ih => exact .inner ih hmem

theorem Within.mono {statements others around : List Statement} {statement : Statement}
    (hsubset : statements ⊆ others) (h : Within statements around statement) :
    Within others around statement := by
  induction h with
  | top hmem => exact .top (hsubset hmem)
  | inner _ hmem ih => exact .inner ih hmem

/-- The statements yield a value at a place that no function inside of them is around. -/
def YieldsOutsideFunctions (statements : List Statement) : Prop :=
  ∃ around value, Within statements around (.yieldValue value) ∧
    ∀ outer ∈ around, outer.isFunction = false

theorem YieldsOutsideFunctions.mono {statements others : List Statement}
    (hsubset : statements ⊆ others) (h : YieldsOutsideFunctions statements) :
    YieldsOutsideFunctions others := by
  obtain ⟨around, value, hwithin, hloops⟩ := h
  exact ⟨around, value, hwithin.mono hsubset, hloops⟩

theorem anyYields_of_mem {statements : List Statement} {statement : Statement}
    (hmem : statement ∈ statements) (h : statement.yields = true) :
    anyYields statements = true := by
  induction statements with
  | nil => cases hmem
  | cons first rest ih =>
    rw [anyYields, Bool.or_eq_true]
    rcases List.mem_cons.mp hmem with rfl | hrest
    · exact Or.inl h
    · exact Or.inr (ih hrest)

/-- A body that yields makes every loop around it yield, up to the next function. -/
theorem anyYields_of_within {statements around : List Statement} {statement : Statement}
    (hwithin : Within statements around statement) (h : statement.yields = true)
    (hloops : ∀ outer ∈ around, outer.isFunction = false) : anyYields statements = true := by
  induction hwithin with
  | top hmem => exact anyYields_of_mem hmem h
  | @inner around outer statement _ hmem ih =>
    obtain ⟨houter, haround⟩ := List.forall_mem_cons.mp hloops
    refine ih ?_ haround
    cases outer with
    | functionDeclaration name function parameters body => cases houter
    | predictiveLoop iterator low high pattern body => exact anyYields_of_mem hmem h
    | _ => cases hmem

mutual

theorem yieldsOutsideFunctions_of_yields : ∀ statement : Statement, statement.yields = true →
    YieldsOutsideFunctions [statement]
  | .yieldValue value, _ => ⟨[], value, .top (List.mem_singleton_self _), List.forall_mem_nil _⟩
  | .predictiveLoop iterator low high pattern body, h => by
    obtain ⟨around, value, hwithin, hloops⟩ := yieldsOutsideFunctions_of_anyYields body h
    have htop : Within [predictiveLoop iterator low high pattern body] []
        (.predictiveLoop iterator low high pattern body) := .top (List.mem_singleton_self _)
    refine ⟨_, value, htop.trans hwithin, List.forall_mem_append.mpr ⟨hloops, ?_⟩⟩
    exact List.forall_mem_singleton.mpr rfl

theorem yieldsOutsideFunctions_of_anyYields : ∀ statements : List Statement,
    anyYields statements = true → YieldsOutsideFunctions statements
  | first :: rest, h => by
    rcases Bool.or_eq_true_iff.mp h with hfirst | hrest
    · have hyields := yieldsOutsideFunctions_of_yields first hfirst
      exact hyields.mono (List.cons_subset_cons first (List.nil_subset rest))
    · exact (yieldsOutsideFunctions_of_anyYields rest hrest).mono (List.subset_cons_self first rest)

end

/-- The search finds a yield exactly if there is one outside of the functions. -/
theorem anyYields_iff {statements : List Statement} :
    anyYields statements = true ↔ YieldsOutsideFunctions statements := by
  constructor
  · exact yieldsOutsideFunctions_of_anyYields statements
  · rintro ⟨around, value, hwithin, hloops⟩
    exact anyYields_of_within hwithin rfl hloops

end Statement

/-! ### Generators -/

namespace Emitter

/-- A function is written as a generator exactly if its body yields outside of the functions in
it. -/
theorem isGenerator_lineOf_iff {met : Emitter × Statement} (h : met.2.isFunction = true) :
    (lineOf met).IsGenerator ↔ Statement.YieldsOutsideFunctions met.2.body := by
  obtain ⟨emitter, statement⟩ := met
  cases statement with
  | functionDeclaration name function parameters body =>
    exact Script.Stmt.isGenerator_function_iff.trans Statement.anyYields_iff
  | _ => cases h

/-- A value is yielded where a function is open, and logged where none is. -/
theorem lineOf_yieldValue (emitter : Emitter) (value : Expr) :
    lineOf (emitter, .yieldValue value) =
      if emitter.inFunction = true then .yieldValue (emitter.term value)
      else .log (emitter.term value) := rfl

theorem exists_yieldValue_of_lineOf {met : Emitter × Statement} {term : Script.Term}
    (h : lineOf met = .yieldValue term) :
    met.1.inFunction = true ∧ ∃ value, met.2 = .yieldValue value := by
  obtain ⟨emitter, statement⟩ := met
  cases statement with
  | yieldValue value =>
    rw [lineOf_yieldValue] at h
    split at h
    · next hflag => exact ⟨hflag, value, rfl⟩
    · cases h
  | _ => cases h

/-- The nearest function around a value that is yielded is a generator. -/
theorem nearest_isGenerator {start : Emitter} {statements : List Statement}
    {around : List (Emitter × Statement)} {met : Emitter × Statement} {value : Expr}
    (h : walker.Meets start statements around met) (hyields : met.2 = .yieldValue value)
    (hfunction : ∃ outer ∈ around, outer.2.isFunction = true) :
    ∃ nearest, (around.map lineOf).find? Script.Stmt.isFunction = some nearest ∧
      nearest.IsGenerator := by
  obtain ⟨nearest, hnearest⟩ := Option.isSome_iff_exists.mp (List.find?_isSome.mpr hfunction)
  obtain ⟨hisFunction, inside, outside, haround, hinside⟩ :=
    List.find?_eq_some_iff_append.mp hnearest
  -- Between the nearest function and the value there are loops only.
  have hloops : ∀ outer ∈ inside.map Prod.snd, outer.isFunction = false := by
    intro outer houter
    obtain ⟨visit, hvisit, rfl⟩ := List.mem_map.mp houter
    simpa using hinside visit hvisit
  refine ⟨lineOf nearest, ?_, ?_⟩
  · have hsame : Script.Stmt.isFunction ∘ lineOf = fun outer ↦ outer.2.isFunction :=
      funext isFunction_lineOf
    rw [List.find?_map, hsame, hnearest, Option.map_some]
  · rw [haround] at h
    have hwithin := h.split.2.within
    rw [hyields] at hwithin
    exact (isGenerator_lineOf_iff hisFunction).mpr ⟨_, value, hwithin, hloops⟩

/-- What is written for a statement that is met, as far as it has to do with yielding. -/
structure YieldsRightly (around : List (Emitter × Statement)) (met : Emitter × Statement) :
    Prop where
  /-- A function is a generator exactly if its body yields outside of the functions in it. -/
  generator : (lineOf met).isFunction = true →
    met.2.isFunction = true ∧
      ((lineOf met).IsGenerator ↔ Statement.YieldsOutsideFunctions met.2.body)
  /-- Where something is yielded, the nearest function around is a generator. -/
  nearest : ∀ term, lineOf met = .yieldValue term →
    ∃ nearest, (around.map lineOf).find? Script.Stmt.isFunction = some nearest ∧
      nearest.IsGenerator
  /-- A value to be yielded is yielded inside of a function. -/
  yielded : ∀ value, met.2 = .yieldValue value →
    (∃ outer ∈ around, outer.2.isFunction = true) →
    ∀ depth, (lineOf met).lines depth =
      [Script.indented depth ("yield " ++ (met.1.term value).render ++ ";")]
  /-- A value to be yielded is logged outside of every function. -/
  logged : ∀ value, met.2 = .yieldValue value →
    (∀ outer ∈ around, outer.2.isFunction = false) →
    ∀ depth, (lineOf met).lines depth =
      [Script.indented depth ("console.log(" ++ (met.1.term value).render ++ ");")]

theorem yieldsRightly_of_meets {statements : List Statement} {around : List (Emitter × Statement)}
    {met : Emitter × Statement} (h : walker.Meets initial statements around met) :
    YieldsRightly around met := by
  have hflag : met.1.inFunction = true ↔ ∃ outer ∈ around, outer.2.isFunction = true := by
    rw [inFunction_of_meets h, initial, Bool.or_false, List.any_eq_true]
  constructor
  · intro hline
    rw [isFunction_lineOf] at hline
    exact ⟨hline, isGenerator_lineOf_iff hline⟩
  · intro term hterm
    obtain ⟨hfunction, value, hyields⟩ := exists_yieldValue_of_lineOf hterm
    exact nearest_isGenerator h hyields (hflag.mp hfunction)
  · intro value hyields hfunction depth
    obtain ⟨emitter, statement⟩ := met
    subst hyields
    rw [lineOf_yieldValue, if_pos (hflag.mpr hfunction)]
    rfl
  · intro value hyields hnone depth
    obtain ⟨emitter, statement⟩ := met
    subst hyields
    have hclosed : ¬ emitter.inFunction = true := by
      intro hopen
      obtain ⟨outer, houter, hfunction⟩ := hflag.mp hopen
      rw [hnone outer houter] at hfunction
      cases hfunction
    rw [lineOf_yieldValue, if_neg hclosed]
    rfl

end Emitter

/-- In the script of any program the generators are the functions that yield. The places of the
script and of the program are those of the statements that the emitter meets; and of every statement
it meets: a function is written as a generator exactly if its body yields outside of the functions
in it, the nearest function around a line that yields is a generator, and a value to be yielded is
yielded inside of functions and logged outside of them. -/
theorem yields_stand_in_generators (program : Program) :
    (∀ around line, Script.Stmt.Within program.script around line ↔
        ∃ visits met, Emitter.walker.Meets .initial program.statements visits met ∧
          around = visits.map Emitter.lineOf ∧ line = Emitter.lineOf met) ∧
      (∀ around statement, Statement.Within program.statements around statement ↔
        ∃ visits met, Emitter.walker.Meets .initial program.statements visits met ∧
          around = visits.map Prod.snd ∧ statement = met.2) ∧
      ∀ visits met, Emitter.walker.Meets .initial program.statements visits met →
        Emitter.YieldsRightly visits met :=
  ⟨fun _ _ ↦ Emitter.within_script_iff, fun _ _ ↦ Walker.within_iff_meets,
    fun _ _ hmet ↦ Emitter.yieldsRightly_of_meets hmet⟩

/-- The theorem at a function that yields in a loop beside a function that does not yield, and at a
value that is yielded outside of them. -/
theorem yields_stand_in_generators_nested :
    ∃ program : Program,
      program.scriptText =
        "function* f() \x7b\n  function g() \x7b\n    console.log(1);\n  \x7d\n" ++
          "  // predictive pattern: prime\n  for (let i = 0; i <= 3; i++) \x7b\n    yield i;\n" ++
          "  \x7d\n\x7d\n\nconsole.log(true);\n" ∧
      (∀ around line, Script.Stmt.Within program.script around line ↔
          ∃ visits met, Emitter.walker.Meets .initial program.statements visits met ∧
            around = visits.map Emitter.lineOf ∧ line = Emitter.lineOf met) ∧
        (∀ around statement, Statement.Within program.statements around statement ↔
          ∃ visits met, Emitter.walker.Meets .initial program.statements visits met ∧
            around = visits.map Prod.snd ∧ statement = met.2) ∧
        ∀ visits met, Emitter.walker.Meets .initial program.statements visits met →
          Emitter.YieldsRightly visits met := by
  refine ⟨⟨[.functionDeclaration "f" ⟨0, "f", [], none⟩ []
      [.functionDeclaration "g" ⟨1, "g", [], none⟩ [] [.print (.number 1 .int)],
        .predictiveLoop ⟨2, "i", some .int⟩ (.number 0 .int) (.number 3 .int) "prime"
          [.yieldValue (.reference ⟨2, "i", some .int⟩)]],
    .yieldValue (.boolean true)]⟩, ?_, yields_stand_in_generators _⟩
  decide +kernel

end Presage
