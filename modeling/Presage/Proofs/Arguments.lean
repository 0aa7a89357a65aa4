import Mathlib
import Presage.Proofs.Calls

/-!
Arguments and parameters. An argument is checked against one parameter: with the name of a parameter
before it, against the first parameter of that name, and otherwise against the one at its own index
(`checkedIndex?`). The script has the values of the arguments in the order in which they are
written, without the names, so a value is bound to the parameter at its index.

`arguments_passed_by_place` says this of every call of every source that is compiled, and that the
two parameters are the same one exactly if the argument stands at the first parameter of its name or
has none. Where it stands elsewhere, its value goes to another parameter than the one it was checked
against: `keyword_passed_by_place` is such a call.
-/

set_option autoImplicit false
set_option relaxedAutoImplicit false

namespace Presage

namespace Analysis

variable {source : Source} {context : Context} {function : Func}

/-- The index of the parameter that the argument at `index` is checked against. -/
def checkedIndex? (source : Source) (function : Func) (index : Nat) : Node → Option Nat
  | .keywordArgument _ name _ =>
    function.parameters.findIdx? fun parameter ↦ parameter.name == name.text source
  | _ => some index

/-- The argument at `index` has no name before it, or that of the parameter at `index`, which is the
first of its name. -/
def StandsAtItsParameter (source : Source) (function : Func) (index : Nat) : Node → Prop
  | .keywordArgument _ name _ =>
    (∃ parameter ∈ function.parameters[index]?, parameter.name = name.text source) ∧
      ∀ earlier < index, ∀ parameter ∈ function.parameters[earlier]?,
        parameter.name ≠ name.text source
  | _ => True

theorem checkedIndex?_eq_iff {index : Nat} {argument : Node} :
    checkedIndex? source function index argument = some index ↔
      StandsAtItsParameter source function index argument := by
  cases argument with
  | keywordArgument span name value =>
    rw [checkedIndex?, StandsAtItsParameter, List.findIdx?_eq_some_iff_getElem]
    simp only [beq_iff_eq, Option.mem_def, List.getElem?_eq_some_iff]
    constructor
    · rintro ⟨hindex, hname, hearlier⟩
      refine ⟨⟨_, ⟨hindex, rfl⟩, hname⟩, ?_⟩
      rintro earlier hlt parameter ⟨-, rfl⟩
      exact hearlier earlier hlt
    · rintro ⟨⟨parameter, ⟨hindex, rfl⟩, hname⟩, hearlier⟩
      exact ⟨hindex, hname, fun earlier hlt ↦ hearlier earlier hlt _ ⟨hlt.trans hindex, rfl⟩⟩
  | _ => exact iff_of_true rfl trivial

/-- The parameter that an argument is checked against stands at the index that it is checked at. -/
theorem exists_checked {index : Nat} {argument : Node} {parameter? : Option Parameter}
    (h : parameterFor? source function index argument = .ok parameter?)
    (hindex : index < function.parameters.length) :
    ∃ checked parameter, checkedIndex? source function index argument = some checked ∧
      function.parameters[checked]? = some parameter ∧ parameter? = some parameter := by
  cases argument with
  | keywordArgument span name value =>
    obtain ⟨_, hrequire, hfound⟩ := exists_of_bind_eq_ok h
    obtain ⟨parameter, hparameter⟩ := Option.isSome_iff_exists.mp (of_require hrequire)
    have hindexed := hparameter
    rw [List.find?_eq_bind_findIdx?_getElem?] at hindexed
    obtain ⟨checked, hchecked, hget⟩ := Option.bind_eq_some_iff.mp hindexed
    exact ⟨checked, parameter, hchecked, hget, (Except.ok.inj hfound).symm.trans hparameter⟩
  | _ =>
    have hget := List.getElem?_eq_getElem hindex
    exact ⟨index, _, rfl, hget, (Except.ok.inj h).symm.trans hget⟩

/-- Arguments are checked one by one, each with its own index. -/
theorem exists_of_checkArguments {pairs : List (Node × Expr)} {start : Nat}
    (h : checkArguments source function start pairs = .ok ()) {index : Nat} {argument : Node}
    {value : Expr} (hpair : pairs[index]? = some (argument, value)) :
    ∃ parameter?, parameterFor? source function (start + index) argument = .ok parameter? ∧
      checkAssignable value.ty? (parameter?.bind Parameter.ty?) argument = .ok () := by
  induction pairs generalizing start index with
  | nil => cases hpair
  | cons pair rest ih =>
    obtain ⟨parameter?, hparameter, h⟩ := exists_of_bind_eq_ok h
    obtain ⟨_, hassignable, hrest⟩ := exists_of_bind_eq_ok h
    cases index with
    | zero =>
      obtain rfl := Option.some.inj hpair
      exact ⟨parameter?, hparameter, hassignable⟩
    | succ index =>
      have hnext := ih hrest hpair
      rw [Nat.add_right_comm] at hnext
      exact hnext

/-- The values of arguments are those of their expressions, in turn. -/
theorem expression_of_valuesOf {arguments : List Node} {values : List Expr}
    (h : valuesOf source context arguments = .ok values) :
    List.Forall₂ (fun argument value ↦
      valueOf source context argument.argumentValue = .ok value) arguments values := by
  induction arguments generalizing values with
  | nil =>
    rw [valuesOf_nil] at h
    obtain rfl := Except.ok.inj h
    exact .nil
  | cons argument rest ih =>
    rw [valuesOf_cons] at h
    obtain ⟨first, hfirst, h⟩ := exists_of_bind_eq_ok h
    obtain ⟨others, hothers, h⟩ := exists_of_bind_eq_ok h
    obtain rfl := Except.ok.inj h
    exact .cons hfirst (ih hothers)

end Analysis

/-! ### Calls -/

/-- What happens to the argument at `index` of a call of the function, with its value. -/
structure ArgumentPassed (source : Source) (function : Func) (index : Nat) (argument : Node)
    (value : Expr) : Prop where
  /-- It is checked against one of the parameters. -/
  checked : ∃ checked parameter,
    Analysis.checkedIndex? source function index argument = some checked ∧
      function.parameters[checked]? = some parameter ∧
      Analysis.parameterFor? source function index argument = .ok (some parameter) ∧
      Analysis.checkAssignable value.ty? parameter.ty? argument = .ok ()
  /-- There is a parameter at its own index, which a script binds it to. -/
  bound : index < function.parameters.length
  /-- The two are the same parameter if it stands there, and only then. -/
  agrees : Analysis.checkedIndex? source function index argument = some index ↔
    Analysis.StandsAtItsParameter source function index argument

/-- What happens to a call: the analysis meets it in its scopes as a call of `function`, and the
emitter meets the program's own call. -/
structure CallPassed (source : Source) (folded : Bool) (script : List Script.Stmt)
    (analysed : Context × (Node × List Node)) (met : Emitter × Call) (function : Func) :
    Prop where
  callee : met.2.callee = .function function
  named : analysed.1.lookup? (analysed.2.1.text source) = some (.func function)
  /-- The script declares the function, with its parameters in their order. -/
  declared : function.signature ∈ Script.Stmt.signaturesAll script
  /-- The values are passed in the order of the arguments, without names. -/
  written : met.1.written met.2 = (function.name, met.2.arguments.map met.1.term)
  valued : List.Forall₂ (fun argument passed ↦ ∃ value,
    Analysis.valueOf source analysed.1 argument.argumentValue = .ok value ∧
      passed = if folded then value.fold else value) analysed.2.2 met.2.arguments
  counted : met.2.arguments.length = function.requiredCount
  passed : ∀ index argument value, analysed.2.2[index]? = some argument →
    Analysis.valueOf source analysed.1 argument.argumentValue = .ok value →
    ArgumentPassed source function index argument value

/-- What is met as an accepted call is passed, argument by argument. -/
theorem Analysis.CallRule.passes {source : Source} {context : Context} {name : Node}
    {arguments : List Node} {target : Func} {values : List Expr} {ty? : Option Ty}
    (h : CallRule source context name arguments ⟨.function target, values, ty?⟩) (index : Nat)
    (argument : Node) (value : Expr) (hargument : arguments[index]? = some argument)
    (hvalue : valueOf source context argument.argumentValue = .ok value) :
    ArgumentPassed source target index argument value := by
  cases h with
  | function hname hvalues hcount hcheck =>
    have hvalued := expression_of_valuesOf hvalues
    obtain ⟨hlt, hget⟩ := List.getElem?_eq_some_iff.mp hargument
    have hlt' : index < values.length := hvalued.length_eq ▸ hlt
    have hfound : values[index]? = some value := by
      have heq := hvalued.get hlt hlt'
      rw [List.get_eq_getElem, hget, hvalue] at heq
      exact (List.getElem?_eq_getElem hlt').trans (congrArg some (Except.ok.inj heq).symm)
    have hindex : index < target.parameters.length :=
      (hcount ▸ hlt').trans_le List.countP_le_length
    have hpair : (arguments.zip values)[index]? = some (argument, value) :=
      List.getElem?_zip_eq_some.mpr ⟨hargument, hfound⟩
    obtain ⟨parameter?, hparameter, hassignable⟩ := exists_of_checkArguments hcheck hpair
    rw [Nat.zero_add] at hparameter
    obtain ⟨checked, parameter, hchecked, hat, rfl⟩ := exists_checked hparameter hindex
    exact ⟨⟨checked, parameter, hchecked, hat, hparameter, hassignable⟩, hindex,
      checkedIndex?_eq_iff⟩

theorem CompiledAs.passed {source : Source} {folded : Bool} {script : List Script.Stmt}
    {analysed : Context × (Node × List Node)} {met : Emitter × Call}
    (h : CompiledAs source folded script analysed met) :
    ∃ function, CallPassed source folded script analysed met function := by
  obtain ⟨⟨callee, values, ty?⟩, hcall, hknown⟩ := h
  obtain ⟨function, rfl, hdeclared⟩ := hknown.known
  have hcallee : met.2.callee = .function function := by
    rw [hcall]
    cases folded <;> rfl
  have harguments : met.2.arguments =
      values.map fun value ↦ if folded then value.fold else value := by
    rw [hcall]
    cases folded with
    | false => exact (List.map_id _).symm
    | true => exact Expr.foldAll_eq_map values
  have hwritten : met.1.written met.2 = (function.name, met.2.arguments.map met.1.term) := by
    rw [Emitter.written, hcallee, Emitter.terms_eq_map]
    rfl
  have hrule : Analysis.CallRule source analysed.1 analysed.2.1 analysed.2.2
    ⟨.function function, values, ty?⟩ := hknown.accepted
  have hpassed := hrule.passes
  cases hrule with
  | function hname hvalues hcount hcheck =>
    refine ⟨function, hcallee, hname, hdeclared, hwritten, ?_, ?_, hpassed⟩
    · rw [harguments, List.forall₂_map_right_iff]
      exact (Analysis.expression_of_valuesOf hvalues).imp fun _ value hvalue ↦ ⟨value, hvalue, rfl⟩
    · rw [harguments, List.length_map, hcount]

/-- The calls of every source that is compiled go in step with those of its script. The calls that
the analysis meets are those of the tree, and the calls that the emitter meets are those of the
program, which the script has as they are written there. Every argument is checked against a
parameter of the function that is called, and its value is passed at its own index; the parameter at
this index is the one it was checked against exactly if the argument has no name before it or stands
at the first parameter of that name. -/
theorem arguments_passed_by_place {source : Source} {folded : Bool} {text : String}
    (h : source.compile folded = .ok text) :
    ∃ span nodes program, source.tree = .ok (.program span nodes) ∧
      source.program folded = .ok program ∧ text = Script.render program.script ∧
      (Analysis.callsMet source .initial nodes).map Prod.snd = Node.callsAll nodes ∧
      (Emitter.initial.callsMet program.statements).map Prod.snd =
        Statement.callsAll program.statements ∧
      (Emitter.initial.callsMet program.statements).map Emitter.writtenAt =
        Script.Stmt.callsAll program.script ∧
      List.Forall₂ (fun analysed met ↦ ∃ function,
          CallPassed source folded program.script analysed met function)
        (Analysis.callsMet source .initial nodes)
        (Emitter.initial.callsMet program.statements) := by
  obtain ⟨program, hprogram, htext⟩ := Source.exists_of_compile h
  obtain ⟨span, nodes, htree, hmet, hcalls⟩ := Source.calls_of_program hprogram
  exact ⟨span, nodes, program, htree, hprogram, htext, hmet, Emitter.map_snd_callsMet _ _,
    Emitter.map_written_callsMet _ _, hcalls.imp fun _ _ ↦ CompiledAs.passed⟩

/-- The theorem at a call with a name before its second argument. -/
theorem arguments_passed_by_place_mixed :
    ∃ source, source = Source.ofText ""
        "define f(a, b, c = 1) then return a - b\nprint f(2, b = 3)" ∧
      ∃ text, source.compile true = .ok text ∧
        ∃ span nodes program, source.tree = .ok (.program span nodes) ∧
          source.program true = .ok program ∧ text = Script.render program.script ∧
          (Analysis.callsMet source .initial nodes).map Prod.snd = Node.callsAll nodes ∧
          (Emitter.initial.callsMet program.statements).map Prod.snd =
            Statement.callsAll program.statements ∧
          (Emitter.initial.callsMet program.statements).map Emitter.writtenAt =
            Script.Stmt.callsAll program.script ∧
          List.Forall₂ (fun analysed met ↦ ∃ function,
              CallPassed source true program.script analysed met function)
            (Analysis.callsMet source .initial nodes)
            (Emitter.initial.callsMet program.statements) :=
  ⟨_, rfl, Exists.imp (fun _ htext ↦ ⟨htext, arguments_passed_by_place htext⟩)
    (exists_of_isOk (by decide +kernel))⟩

/-- A call with the names of its parameters in another order than theirs: the first argument names
the second parameter and is checked against it, and the script passes its value for the first. -/
theorem keyword_passed_by_place :
    ∃ source, source = Source.ofText ""
        "define f(a, b) then return a - b\nprint f(b = 1, a = 2)" ∧
      source.compile false =
        .ok "function f(a, b) \x7b\n  return (a - b);\n\x7d\n\nconsole.log(f(1, 2));\n" ∧
      ∃ tree name first second, source.tree = .ok tree ∧ tree.calls = [(name, [first, second])] ∧
        ∃ function : Func, function = ⟨0, "f", [⟨"a", none⟩, ⟨"b", none⟩], none⟩ ∧
          (∃ body, source.program false = .ok ⟨[
            .functionDeclaration function.name function function.parameters body,
            .print (.call ⟨.function function, [.number 1 .int, .number 2 .int], none⟩)]⟩) ∧
          Analysis.parameterFor? source function 0 first = .ok (some ⟨"b", none⟩) ∧
          Analysis.parameterFor? source function 1 second = .ok (some ⟨"a", none⟩) ∧
          Analysis.checkedIndex? source function 0 first = some 1 ∧
          Analysis.checkedIndex? source function 1 second = some 0 := by
  refine ⟨_, rfl, by decide +kernel, _, _, _, _, by cbv, by cbv, _, rfl, ⟨_, by cbv⟩, by cbv,
    by cbv, by cbv, by cbv⟩

end Presage
