import Presage.Proofs.Uses

/-!
Names in a script and what they resolve to. A `Script.Block` lists the declarations of one block of
a script. Each is visible in the whole block, and a name means what the innermost block that
declares it says (`Script.meanings`); a name that a block declares twice has two meanings there.

`Program.occurrences` walks a program beside its script, and gives for every use outside the
defaults of parameters the name it is written as, the blocks that are open there, and the identity
whose declaration the name should resolve to: that of the entity itself, or for a variable that came
from a reassignment that of the binding it rebinds. `uses_occurrences` says that no use is left out.
-/

set_option autoImplicit false
set_option relaxedAutoImplicit false

namespace Presage

namespace Script

/-- How a block introduces a name. -/
inductive Introduction where
  | variable
  | iterator
  | parameter
  | function
deriving DecidableEq

/-- A name that a block introduces, for the entity with the given identity. -/
structure Declaration where
  introduction : Introduction
  name : String
  owner : Nat
deriving DecidableEq

/-- The declarations of a block, in the order of writing. -/
abbrev Block := List Declaration

/-- What a name may mean in open blocks, given from the inside out: the declarations of that name in
the innermost block that has any. -/
def meanings (name : String) : List Block → List Declaration
  | [] => []
  | block :: outer =>
    match block.filter fun declaration ↦ declaration.name = name with
    | [] => meanings name outer
    | found => found

/-- The name means the declaration and nothing else. -/
def ResolvesTo (name : String) (declaration : Declaration) (blocks : List Block) : Prop :=
  declaration ∈ meanings name blocks ∧ ∀ other ∈ meanings name blocks, other = declaration

instance (name : String) (declaration : Declaration) (blocks : List Block) :
    Decidable (ResolvesTo name declaration blocks) :=
  inferInstanceAs (Decidable (_ ∧ _))

/-- The declarations of parameters, for identities from `next` on. -/
def Parameter.declarations (next : Nat) : List Parameter → Block
  | [] => []
  | parameter :: rest => ⟨.parameter, parameter.name, next⟩ :: declarations (next + 1) rest

end Script

open Script (Declaration Block)

/-! ### Declarations of a program in its script -/

/-- What a statement declares in the block that it stands in. -/
def Statement.declaration? : Statement → Script.Stmt → Option Declaration
  | .variableDeclaration target _, .declare name _ => some ⟨.variable, name, target.id⟩
  | .functionDeclaration _ function _ _, .function _ name _ _ =>
    some ⟨.function, name, function.id⟩
  | _, _ => none

/-- What statements declare in the block that they stand in. -/
def Statement.declarations : List Statement → List Script.Stmt → Block
  | statement :: rest, line :: lines =>
    (statement.declaration? line).toList ++ Statement.declarations rest lines
  | _, _ => []

/-- Which declaration stands for what, at a point of a program. -/
structure Ownership where
  /-- The identity that declared each name bound in the innermost block. -/
  declared : Bindings String Nat
  /-- For a variable that came from a reassignment, the identity that declared what it rebinds. -/
  rebound : Bindings Nat Nat

namespace Ownership

/-- Before anything is declared. -/
def initial : Ownership := ⟨.empty, .empty⟩

/-- The identity whose declaration stands for a variable. -/
def owner (ownership : Ownership) (target : Variable) : Nat :=
  (ownership.rebound.get? target.id).getD target.id

/-- The identity whose declaration a use should resolve to. Struct types are not declared. -/
def owner? (ownership : Ownership) : Use → Option Nat
  | .reference target => some (ownership.owner target)
  | .functionReference target | .call target => some target.id
  | .construct _ => none

def after (ownership : Ownership) : Statement → Ownership
  | .functionDeclaration _ function _ _ =>
    { ownership with declared := ownership.declared.insert function.name function.id }
  | .variableDeclaration target _ =>
    { ownership with declared := ownership.declared.insert target.name target.id }
  | .variableReassignment target _ =>
    match ownership.declared.get? target.name with
    | some owner => { ownership with rebound := ownership.rebound.insert target.id owner }
    | none => ownership
  | _ => ownership

/-- Names for the identities from `next` on, one for each parameter. -/
def declareParameters (declared : Bindings String Nat) (next : Nat) :
    List Parameter → Bindings String Nat
  | [] => declared
  | parameter :: rest => declareParameters (declared.insert parameter.name next) (next + 1) rest

/-- In the body of a function, whose parameters have the identities after its own. -/
def enterFunction (ownership : Ownership) (function : Func) (parameters : List Parameter) :
    Ownership :=
  { ownership with declared := declareParameters .empty (function.id + 1) parameters }

/-- In the body of a loop. -/
def enterLoop (ownership : Ownership) (iterator : Variable) : Ownership :=
  { ownership with declared := Bindings.empty.insert iterator.name iterator.id }

end Ownership

/-! ### Occurrences -/

/-- A use of an entity together with how and where it is written. -/
structure Occurrence where
  use : Use
  owner? : Option Nat
  name : String
  blocks : List Block

/-- The occurrences in an expression, whose names are those of the term it is written as. -/
def Ownership.occurrences (ownership : Ownership) (blocks : List Block) (uses : List Use)
    (names : List String) : List Occurrence :=
  (uses.zip names).map fun (use, name) ↦ ⟨use, ownership.owner? use, name, blocks⟩

mutual

/-- The occurrences in a statement that is written as the given one, outside of defaults. -/
def Statement.occurrences (ownership : Ownership) (blocks : List Block) :
    Statement → Script.Stmt → List Occurrence
  | .functionDeclaration _ function parameters body, .function _ _ written lines =>
    Statement.occurrencesAll (ownership.enterFunction function parameters)
      ((Script.Parameter.declarations (function.id + 1) written ++
        Statement.declarations body lines) :: blocks) body lines
  | .variableDeclaration _ initializer, .declare _ term =>
    ownership.occurrences blocks initializer.uses term.names
  | .variableReassignment _ value, .assign _ term =>
    ownership.occurrences blocks value.uses term.names
  | .predictiveLoop iterator low high _ body, .loop _ name lowTerm highTerm lines =>
    ownership.occurrences blocks low.uses lowTerm.names ++
      ownership.occurrences blocks high.uses highTerm.names ++
      Statement.occurrencesAll (ownership.enterLoop iterator)
        ((⟨.iterator, name, iterator.id⟩ :: Statement.declarations body lines) :: blocks) body lines
  | .comparison left right, .logEqual leftTerm rightTerm =>
    ownership.occurrences blocks left.uses leftTerm.names ++
      ownership.occurrences blocks right.uses rightTerm.names
  | .print value, .log term | .returnValue value, .returnValue term
  | .yieldValue value, .yieldValue term | .yieldValue value, .log term =>
    ownership.occurrences blocks value.uses term.names
  | .call invocation, .evaluate term => ownership.occurrences blocks invocation.uses term.names
  | _, _ => []

def Statement.occurrencesAll (ownership : Ownership) (blocks : List Block) :
    List Statement → List Script.Stmt → List Occurrence
  | statement :: rest, line :: lines =>
    Statement.occurrences ownership blocks statement line ++
      Statement.occurrencesAll (ownership.after statement) blocks rest lines
  | _, _ => []

end

/-- The occurrences in a program, with the names they have in its script. -/
def Program.occurrences (program : Program) : List Occurrence :=
  Statement.occurrencesAll .initial [Statement.declarations program.statements program.script]
    program.statements program.script

/-! ### Nothing is left out -/

mutual

/-- The uses in a statement, outside of defaults. -/
def Statement.uses : Statement → List Use
  | .functionDeclaration _ _ _ body => Statement.usesAll body
  | .variableDeclaration _ value | .variableReassignment _ value | .print value
  | .returnValue value | .yieldValue value => value.uses
  | .predictiveLoop _ low high _ body => low.uses ++ high.uses ++ Statement.usesAll body
  | .comparison left right => left.uses ++ right.uses
  | .call invocation => invocation.uses

def Statement.usesAll : List Statement → List Use
  | [] => []
  | statement :: rest => Statement.uses statement ++ Statement.usesAll rest

end

/-- The occurrences in an emitted expression: each use as the emitter writes it. -/
theorem Ownership.occurrences_map (ownership : Ownership) (blocks : List Block) (uses : List Use)
    (written : Use → String) :
    ownership.occurrences blocks uses (uses.map written) =
      uses.map fun use ↦ ⟨use, ownership.owner? use, written use, blocks⟩ := by
  unfold occurrences
  induction uses with
  | nil => rfl
  | cons use rest ih => rw [List.map_cons, List.zip_cons_cons, List.map_cons, ih, List.map_cons]

theorem Ownership.map_use_occurrences (ownership : Ownership) (blocks : List Block)
    (uses : List Use) (written : Use → String) :
    (ownership.occurrences blocks uses (uses.map written)).map Occurrence.use = uses := by
  rw [occurrences_map, List.map_map]
  exact List.map_id uses

/-- A yielded value is written in one of two statements, with the same occurrences. -/
theorem Statement.occurrences_yieldValue (ownership : Ownership) (blocks : List Block)
    (emitter : Emitter) (value : Expr) :
    Statement.occurrences ownership blocks (.yieldValue value)
        (emitter.statement (.yieldValue value)).1 =
      ownership.occurrences blocks value.uses (emitter.term value).names := by
  simp only [Emitter.statement]
  split
  · simp only [Statement.occurrences]
  · simp only [Statement.occurrences]

mutual

/-- The occurrences in an emitted statement are its uses. -/
theorem Statement.uses_occurrences (ownership : Ownership) (blocks : List Block)
    (emitter : Emitter) : ∀ statement : Statement,
    (statement.occurrences ownership blocks (emitter.statement statement).1).map Occurrence.use =
      statement.uses
  | .functionDeclaration _ _ _ body => Statement.uses_occurrencesAll _ _ _ body
  | .variableDeclaration _ value => by
    simp only [Emitter.statement, Statement.occurrences, Statement.uses, Emitter.names_term]
    exact ownership.map_use_occurrences blocks value.uses emitter.useName
  | .variableReassignment _ value => by
    simp only [Emitter.statement, Statement.occurrences, Statement.uses, Emitter.names_term]
    exact ownership.map_use_occurrences blocks value.uses emitter.useName
  | .predictiveLoop _ low high _ body => by
    simp only [Emitter.statement, Statement.occurrences, Statement.uses, Emitter.names_term,
      List.map_append, Ownership.map_use_occurrences]
    rw [Statement.uses_occurrencesAll _ _ _ body]
  | .comparison left right => by
    simp only [Emitter.statement, Statement.occurrences, Statement.uses, Emitter.names_term,
      List.map_append, Ownership.map_use_occurrences]
  | .print value => by
    simp only [Emitter.statement, Statement.occurrences, Statement.uses, Emitter.names_term]
    exact ownership.map_use_occurrences blocks value.uses emitter.useName
  | .returnValue value => by
    simp only [Emitter.statement, Statement.occurrences, Statement.uses, Emitter.names_term]
    exact ownership.map_use_occurrences blocks value.uses emitter.useName
  | .yieldValue value => by
    rw [Statement.occurrences_yieldValue, Emitter.names_term]
    exact ownership.map_use_occurrences blocks value.uses emitter.useName
  | .call invocation => by
    simp only [Emitter.statement, Statement.occurrences, Statement.uses, Emitter.names_callTerm]
    exact ownership.map_use_occurrences blocks invocation.uses emitter.useName

theorem Statement.uses_occurrencesAll (ownership : Ownership) (blocks : List Block)
    (emitter : Emitter) : ∀ statements : List Statement,
    (Statement.occurrencesAll ownership blocks statements (emitter.statements statements).1).map
        Occurrence.use =
      Statement.usesAll statements
  | [] => rfl
  | statement :: rest => by
    simp only [Emitter.statements, Statement.occurrencesAll, Statement.usesAll, List.map_append]
    rw [Statement.uses_occurrences ownership blocks emitter statement,
      Statement.uses_occurrencesAll _ _ _ rest]

end

end Presage
