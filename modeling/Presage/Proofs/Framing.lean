import Presage.Proofs.Scoping

/-!
What an analysis leaves alone. `Context.Framed` says that two contexts differ in nothing but what
the current scope binds to some names: the scopes around it are the same, and so are its flags.

The analysis of an expression hands the state on from part to part, and the state that comes back is
the one it was given (`Analysis.state_of_expression`). A statement binds the one name that it
declares or gives another value, and none if it is not of that kind
(`Analysis.framed_of_statement`); statements in turn bind the names of theirs
(`Analysis.framed_of_statements`), whatever the bodies inside of them have bound.
-/

set_option autoImplicit false
set_option relaxedAutoImplicit false

namespace Presage

/-! ### Contexts -/

namespace Context

/-- From the first context to the second nothing has changed, except for what the current scope
binds to the names. -/
structure Framed (names : List String) (before after : Context) : Prop where
  depth : after.depth = before.depth
  outer : after.outer = before.outer
  inLoop : after.current.inLoop = before.current.inLoop
  function : after.current.function? = before.current.function?
  locals : ∀ name ∉ names, after.lookupLocal? name = before.lookupLocal? name

theorem Framed.refl (context : Context) : Framed [] context context :=
  ⟨rfl, rfl, rfl, rfl, fun _ _ ↦ rfl⟩

theorem Framed.trans {names names' : List String} {first middle last : Context}
    (hfirst : Framed names first middle) (hlast : Framed names' middle last) :
    Framed (names ++ names') first last where
  depth := hlast.depth.trans hfirst.depth
  outer := hlast.outer.trans hfirst.outer
  inLoop := hlast.inLoop.trans hfirst.inLoop
  function := hlast.function.trans hfirst.function
  locals name hname := by
    rw [List.mem_append, not_or] at hname
    exact (hlast.locals name hname.2).trans (hfirst.locals name hname.1)

theorem framed_bind (context : Context) (name : String) (entity : Entity) :
    Framed [name] context (context.bind name entity) where
  depth := rfl
  outer := rfl
  inLoop := rfl
  function := rfl
  locals other hother := by
    show (context.current.locals.insert name entity).get? other = _
    rw [Bindings.get?_insert, if_neg (by simpa using hother)]
    rfl

end Context

/-! ### Expressions -/

namespace Analysis

variable {source : Source} {analyzer next : Analyzer} {node : Node}

theorem state_of_expression {value : Expr}
    (h : expression source analyzer node = .ok (value, next)) :
    next = analyzer ∧ valueOf source analyzer.context node = .ok value := by
  rw [expression_eq] at h
  cases hvalue : valueOf source analyzer.context node with
  | error cause =>
    rw [hvalue] at h
    cases h
  | ok found =>
    rw [hvalue] at h
    obtain ⟨rfl, rfl⟩ := Prod.mk.inj (Except.ok.inj h)
    exact ⟨rfl, rfl⟩

/-! ### Statements -/

/-- The name that a statement declares or gives another value. -/
def boundName? (source : Source) : Node → Option String
  | .functionDefinition _ name _ _ | .variableDeclaration _ name _
  | .variableReassignment _ name _ => some (name.text source)
  | _ => none

variable {result : Statement}

/-- A statement that binds no name leaves the context as it was. -/
theorem context_of_boundName?_eq_none (h : statement source analyzer node = .ok (result, next))
    (hname : boundName? source node = none) : next.context = analyzer.context := by
  rw [context_of_statement h]
  cases rule_of_statement h with
  | functionDefinition | variableDeclaration | rebinding | shadowing => cases hname
  | _ => rfl

/-- A statement that binds a name binds it to a value of that name, in the current scope. -/
theorem context_of_boundName?_eq_some (h : statement source analyzer node = .ok (result, next))
    {name : String} (hname : boundName? source node = some name) :
    ∃ entity : Entity, next.context = analyzer.context.bind name entity ∧ entity.IsValue ∧
      entity.Named name := by
  rw [context_of_statement h]
  cases rule_of_statement h with
  | functionDefinition =>
    obtain rfl := Option.some.inj hname
    exact ⟨.func _, rfl, trivial, rfl⟩
  | variableDeclaration | rebinding | shadowing =>
    obtain rfl := Option.some.inj hname
    exact ⟨.var _, rfl, trivial, rfl⟩
  | _ => cases hname

theorem framed_of_statement (h : statement source analyzer node = .ok (result, next)) :
    analyzer.context.Framed (boundName? source node).toList next.context := by
  cases hname : boundName? source node with
  | none =>
    rw [context_of_boundName?_eq_none h hname]
    exact .refl _
  | some name =>
    obtain ⟨entity, hcontext, -⟩ := context_of_boundName?_eq_some h hname
    rw [hcontext]
    exact Context.framed_bind _ name entity

/-- Statements in turn bind no names but those that they bind one by one. -/
theorem framed_of_statements {nodes : List Node} {results : List Statement} {last : Analyzer}
    (h : statements source analyzer nodes = .ok (results, last)) :
    analyzer.context.Framed (nodes.flatMap fun node ↦ (boundName? source node).toList)
      last.context := by
  induction nodes generalizing analyzer results with
  | nil =>
    simp only [statements] at h
    obtain ⟨-, rfl⟩ := Prod.mk.inj (Except.ok.inj h)
    exact .refl _
  | cons node rest ih =>
    obtain ⟨first, middle, others, hfirst, hothers, -⟩ := exists_of_statements_cons h
    exact (framed_of_statement hfirst).trans (ih hothers)

end Analysis

/-- An analysis leaves alone what is around the current scope. Expressions leave the state as it is,
and what they give depends on nothing in it but the open scopes. A statement that is accepted
changes nothing but the name in the current scope that it declares or gives another value, and that
name is then bound to a value; loops, comparisons, calls and what prints, returns or yields change
nothing. The names of statements in turn add up. -/
theorem analysis_framed (source : Source) (analyzer : Analyzer) :
    (∀ node value next, Analysis.expression source analyzer node = .ok (value, next) →
      next = analyzer ∧ ∀ other : Analyzer, other.context = analyzer.context →
        Analysis.expression source other node = .ok (value, other)) ∧
    (∀ node result next, Analysis.statement source analyzer node = .ok (result, next) →
      analyzer.context.Framed (Analysis.boundName? source node).toList next.context ∧
      (Analysis.boundName? source node = none → next.context = analyzer.context) ∧
      ∀ name, Analysis.boundName? source node = some name →
        ∃ entity : Entity, next.context = analyzer.context.bind name entity ∧ entity.IsValue ∧
          entity.Named name) ∧
    ∀ nodes results last, Analysis.statements source analyzer nodes = .ok (results, last) →
      analyzer.context.Framed (nodes.flatMap fun node ↦ (Analysis.boundName? source node).toList)
        last.context := by
  refine ⟨?_, ?_, ?_⟩
  · intro node value next h
    obtain ⟨rfl, hvalue⟩ := Analysis.state_of_expression h
    refine ⟨rfl, fun other hcontext ↦ ?_⟩
    rw [Analysis.expression_eq, hcontext, hvalue]
    rfl
  · intro node result next h
    refine ⟨Analysis.framed_of_statement h, Analysis.context_of_boundName?_eq_none h, ?_⟩
    intro name hname
    exact Analysis.context_of_boundName?_eq_some h hname
  · intro nodes results last h
    exact Analysis.framed_of_statements h

/-- A function with a loop inside, which gives a name a value. -/
theorem analysis_framed_nested :
    ∃ source span node rest result next,
      source = Source.ofText ""
        "define f(a) then for i in predictive_range(0, 1, p) \x7b b = i \x7d" ∧
      source.tree = .ok (.program span (node :: rest)) ∧
      Analysis.statement source .initial node = .ok (result, next) ∧
      Context.root.Framed ["f"] next.context ∧
      ∃ entity : Entity, next.context = Context.root.bind "f" entity ∧ entity.IsValue ∧
        entity.Named "f" := by
  obtain ⟨source, hsource⟩ : ∃ source,
      source = Source.ofText ""
        "define f(a) then for i in predictive_range(0, 1, p) \x7b b = i \x7d" := ⟨_, rfl⟩
  have haccepted : ∃ program, source.program false = .ok program := by
    rw [hsource]
    exact exists_of_isOk (by decide +kernel)
  have hfirst : ∃ tree, source.tree = .ok tree ∧
      tree.children.head?.bind (Analysis.boundName? source) = some "f" := by
    rw [hsource]
    exact exists_of_any (by decide +kernel)
  obtain ⟨program, hprogram⟩ := haccepted
  obtain ⟨span, nodes, results, last, htree, hanalysed, -⟩ := Source.exists_of_program hprogram
  obtain ⟨_, htree', hbinds⟩ := hfirst
  obtain rfl := Except.ok.inj (htree.symm.trans htree')
  obtain ⟨node, hnode, hname⟩ := Option.bind_eq_some_iff.mp hbinds
  obtain ⟨rest, rfl⟩ : ∃ rest, nodes = node :: rest := List.head?_eq_some_iff.mp hnode
  rw [Analysis.statements] at hanalysed
  obtain ⟨⟨result, next⟩, hstatement, -⟩ := exists_of_bind_eq_ok hanalysed
  obtain ⟨hframed, -, hbound⟩ := (analysis_framed source .initial).2.1 node result next hstatement
  rw [hname] at hframed
  exact ⟨source, span, node, rest, result, next, hsource, htree, hstatement, hframed,
    hbound "f" hname⟩

end Presage
