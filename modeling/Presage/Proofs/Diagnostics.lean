import Presage.Compile
import Presage.Proofs.StatementReading
import Presage.Proofs.TreeShapes

/-!
What is reported about a source, and where. An analysis is `Reported` when it succeeds or fails at
the start of a token with a cause that is semantic: neither internal nor one of those that a text
alone can have. On trees that come from texts every step of an analysis is reported
(`Analysis.reported_expression`, `Analysis.reported_statement`), since the two internal failures and
the one for numbers need trees of other shapes.

`compile_reported` puts the stages together. The diagnostic of a source that is not compiled is
never internal, stands at the character where no token can be cut off or at the start of a token,
and is semantic if there is a tree.
-/

set_option autoImplicit false
set_option relaxedAutoImplicit false

namespace Presage

/-- Causes that a tree of the language has. -/
def Cause.IsSemantic (cause : Cause) : Prop :=
  cause.isInternal = false ∧ cause.isSyntactic = false

namespace Analysis

variable {source : Source} {stream : TokenStream} {context : Context} {α β : Type}

/-- The computation succeeds, or fails at a token of the stream with a semantic cause. -/
def Reported (stream : TokenStream) : Except Diagnostic α → Prop
  | .ok _ => True
  | .error diagnostic => diagnostic.cause.IsSemantic ∧ stream.StartsAt diagnostic.position

namespace Reported

theorem bind {first : Except Diagnostic α} {second : α → Except Diagnostic β}
    (hfirst : Reported stream first) (hsecond : ∀ value, Reported stream (second value)) :
    Reported stream (first >>= second) := by
  cases first with
  | error diagnostic => exact hfirst
  | ok value => exact hsecond value

theorem mapM {action : α → Except Diagnostic β} {values : List α}
    (h : ∀ value ∈ values, Reported stream (action value)) :
    Reported stream (values.mapM action) := by
  induction values with
  | nil => trivial
  | cons value rest ih =>
    obtain ⟨hvalue, hrest⟩ := List.forall_mem_cons.mp h
    rw [List.mapM_cons]
    exact .bind hvalue fun _ ↦ .bind (ih hrest) fun _ ↦ trivial

end Reported

/-! ### Checks and names -/

theorem reported_require {condition : Bool} {cause : Cause} {node : Node}
    (hcause : cause.IsSemantic) (hnode : stream.StartsAt node.span.start) :
    Reported stream (require condition cause node) := by
  unfold require
  split
  · trivial
  · exact ⟨hcause, hnode⟩

theorem reported_requireUndeclared {node : Node} (hnode : stream.StartsAt node.span.start) :
    Reported stream (requireUndeclared source context node) :=
  reported_require ⟨rfl, rfl⟩ hnode

theorem reported_resolve {node : Node} (hnode : stream.StartsAt node.span.start) :
    Reported stream (resolve source context node) := by
  unfold resolve
  split
  · trivial
  · exact ⟨⟨rfl, rfl⟩, hnode⟩

theorem reported_identifier {node : Node} (hnode : stream.StartsAt node.span.start) :
    Reported stream (identifier source context node) := by
  refine .bind (reported_resolve hnode) fun entity ↦ ?_
  cases entity with
  | var target => trivial
  | func target => trivial
  | type ty => exact ⟨⟨rfl, rfl⟩, hnode⟩

/-- A leaf that is a number can be read, and one that is an operator is no expression. -/
theorem reported_leaf {kind : LeafKind} {span : Span} (hstart : stream.StartsAt span.start)
    (hkind : kind ≠ .operator)
    (hnumber : kind = .number → ∃ value, Integer.read? (source.read span) = some value) :
    Reported stream (leaf source context kind span) := by
  cases kind with
  | number =>
    obtain ⟨value, hvalue⟩ := hnumber rfl
    unfold leaf
    rw [hvalue]
    trivial
  | identifier => exact reported_identifier hstart
  | operator => exact (hkind rfl).elim
  | _ => trivial

/-! ### Operators and calls -/

/-- The operators of the language have types for all operands, or want other ones. -/
theorem reported_binaryTy? {left operator right : Node} {left? right? : Option Ty}
    (hoperator : operator.text source ∈ ["+", "-", "*", "/", "and", "or"])
    (hleft : stream.StartsAt left.span.start) (hright : stream.StartsAt right.span.start) :
    Reported stream (binaryTy? source left operator right left? right?) := by
  simp only [binaryTy?]
  split
  · trivial
  split
  · split
    · exact .bind (reported_require ⟨rfl, rfl⟩ hleft) fun _ ↦
        .bind (reported_require ⟨rfl, rfl⟩ hright) fun _ ↦ trivial
    · trivial
  next harithmetic =>
  split
  · exact .bind (reported_require ⟨rfl, rfl⟩ hleft) fun _ ↦
      .bind (reported_require ⟨rfl, rfl⟩ hright) fun _ ↦ trivial
  next hlogical =>
  -- What is left is the failure for operators of no kind, and there is no such operator.
  have hoperators : operator.text source ∈ arithmeticOperators ++ logicalOperators := hoperator
  rcases List.mem_append.mp hoperators with hmem | hmem
  · exact (harithmetic hmem).elim
  · exact (hlogical hmem).elim

theorem reported_callee {name : Node} (hname : stream.StartsAt name.span.start) :
    Reported stream (callee source context name) := by
  refine .bind (reported_resolve hname) fun entity ↦ ?_
  split
  · trivial
  · trivial
  · exact ⟨⟨rfl, rfl⟩, hname⟩

theorem reported_parameterFor? {function : Func} {index : Nat} {node : Node}
    (hname : ∀ span name value, node = .keywordArgument span name value →
      stream.StartsAt name.span.start) :
    Reported stream (parameterFor? source function index node) := by
  unfold parameterFor?
  split
  · next span name value =>
    exact .bind (reported_require ⟨rfl, rfl⟩ (hname span name value rfl)) fun _ ↦ trivial
  · trivial

theorem reported_checkAssignable {given? expected? : Option Ty} {node : Node}
    (hnode : stream.StartsAt node.span.start) :
    Reported stream (checkAssignable given? expected? node) := by
  unfold checkAssignable
  split
  · exact reported_require ⟨rfl, rfl⟩ hnode
  · trivial

theorem reported_checkArguments {function : Func} {index : Nat} {pairs : List (Node × Expr)}
    (hstarts : ∀ pair ∈ pairs, stream.StartsAt pair.1.span.start)
    (hnames : ∀ pair ∈ pairs, ∀ span name value, pair.1 = .keywordArgument span name value →
      stream.StartsAt name.span.start) :
    Reported stream (checkArguments source function index pairs) := by
  induction pairs generalizing index with
  | nil => trivial
  | cons pair rest ih =>
    obtain ⟨hstart, hstarts⟩ := List.forall_mem_cons.mp hstarts
    obtain ⟨hname, hnames⟩ := List.forall_mem_cons.mp hnames
    exact .bind (reported_parameterFor? hname) fun _ ↦
      .bind (reported_checkAssignable hstart) fun _ ↦ ih hstarts hnames

theorem reported_checkedCall {position : Position} {target : Callee} {arguments : List Node}
    {values : List Expr} (hposition : stream.StartsAt position)
    (hstarts : ∀ argument ∈ arguments, stream.StartsAt argument.span.start)
    (hnames : ∀ span name value, .keywordArgument span name value ∈ arguments →
      stream.StartsAt name.span.start) :
    Reported stream (checkedCall source position target arguments values) := by
  cases target with
  | struct target => trivial
  | function target =>
    have hchecked : Reported stream (checkArguments source target 0 (arguments.zip values)) := by
      refine reported_checkArguments (fun pair hpair ↦ ?_) fun pair hpair span name value heq ↦ ?_
      · exact hstarts pair.1 (List.of_mem_zip hpair).1
      · exact hnames span name value (heq ▸ (List.of_mem_zip hpair).1)
    simp only [checkedCall]
    split
    · exact ⟨⟨rfl, rfl⟩, hposition⟩
    · exact .bind hchecked fun _ ↦ trivial

/-! ### Expressions and statements -/

theorem reported_valuesOf {nodes : List Node}
    (h : ∀ node ∈ nodes, Reported stream (valueOf source context node.argumentValue)) :
    Reported stream (valuesOf source context nodes) := by
  induction nodes with
  | nil =>
    rw [valuesOf_nil]
    trivial
  | cons node rest ih =>
    obtain ⟨hnode, hrest⟩ := List.forall_mem_cons.mp h
    rw [valuesOf_cons]
    exact .bind hnode fun _ ↦ .bind (ih hrest) fun _ ↦ trivial

theorem reported_expression {node : Node} (h : ExpressionOf source stream node) :
    Reported stream (valueOf source context node) := by
  induction h with
  | leaf hstart hkind hnumber =>
    rw [valueOf_leaf]
    exact reported_leaf hstart hkind hnumber
  | parenthesized _ _ ih =>
    rw [valueOf_parenthesized]
    exact ih
  | call hstart hname hstarts hnames _ ih =>
    rw [valueOf_call]
    exact .bind (reported_callee hname) fun _ ↦ .bind (reported_valuesOf ih) fun _ ↦
      .bind (reported_checkedCall hstart hstarts hnames) fun _ ↦ trivial
  | binary _ hleft hright hoperator ihleft ihright =>
    rw [valueOf_binary]
    exact .bind ihleft fun _ ↦ .bind ihright fun _ ↦
      .bind (reported_binaryTy? hoperator hleft.start hright.start) fun _ ↦ trivial

theorem reported_parameterOf {node : Node} (h : ParameterOf source stream node) :
    Reported stream (parameterOf source context node) := by
  cases h with
  | required => trivial
  | defaulted hdefault =>
    rw [parameterOf_some]
    exact .bind (reported_expression hdefault) fun _ ↦ trivial

theorem reported_statements {nodes : List Node} {analyzer : Analyzer}
    (h : ∀ node ∈ nodes, ∀ analyzer, Reported stream (statement source analyzer node)) :
    Reported stream (statements source analyzer nodes) := by
  induction nodes generalizing analyzer with
  | nil =>
    simp only [statements]
    trivial
  | cons node rest ih =>
    obtain ⟨hnode, hrest⟩ := List.forall_mem_cons.mp h
    simp only [statements]
    exact .bind (hnode analyzer) fun _ ↦ .bind (ih hrest) fun _ ↦ trivial

theorem reported_statement {node : Node} (h : StatementOf source stream node)
    (analyzer : Analyzer) : Reported stream (statement source analyzer node) := by
  induction h generalizing analyzer with
  | functionDefinition hname hparameters _ ih =>
    rw [statement_functionDefinition]
    refine .bind (reported_requireUndeclared hname) fun _ ↦ ?_
    refine .bind (.mapM fun parameter hmem ↦ reported_parameterOf (hparameters parameter hmem))
      fun _ ↦ ?_
    exact .bind (reported_statements ih) fun _ ↦ trivial
  | predictiveLoop hname hlow hhigh _ ih =>
    rw [statement_predictiveLoop]
    refine .bind (reported_requireUndeclared hname) fun _ ↦ ?_
    refine .bind (reported_expression hlow) fun _ ↦ .bind (reported_expression hhigh) fun _ ↦ ?_
    refine .bind (reported_require ⟨rfl, rfl⟩ hlow.start) fun _ ↦ ?_
    refine .bind (reported_require ⟨rfl, rfl⟩ hhigh.start) fun _ ↦ ?_
    exact .bind (reported_statements ih) fun _ ↦ trivial
  | comparison hleft hright =>
    rw [statement_comparison]
    refine .bind (reported_expression hleft) fun _ ↦ .bind (reported_expression hright) fun _ ↦ ?_
    split
    · exact .bind (reported_require ⟨rfl, rfl⟩ hright.start) fun _ ↦ trivial
    · trivial
  | print hvalue =>
    rw [statement_print]
    exact .bind (reported_expression hvalue) fun _ ↦ trivial
  | returnValue hstart hvalue =>
    rw [statement_return]
    exact .bind (reported_expression hvalue) fun _ ↦
      .bind (reported_require ⟨rfl, rfl⟩ hstart) fun _ ↦ trivial
  | yieldValue hstart hvalue =>
    rw [statement_yield]
    exact .bind (reported_expression hvalue) fun _ ↦
      .bind (reported_require ⟨rfl, rfl⟩ hstart) fun _ ↦ trivial
  | variableDeclaration hname hinitializer =>
    rw [statement_variableDeclaration]
    exact .bind (reported_requireUndeclared hname) fun _ ↦
      .bind (reported_expression hinitializer) fun _ ↦ trivial
  | variableReassignment hvalue =>
    rw [statement_variableReassignment]
    refine .bind (reported_expression hvalue) fun _ ↦ ?_
    split <;> trivial
  | call hcall =>
    cases hcall with
    | call hstart hname hstarts hnames hvalues =>
      rw [statement_call]
      refine .bind (reported_callee hname) fun _ ↦ ?_
      refine .bind (reported_valuesOf fun argument hmem ↦ ?_) fun _ ↦ ?_
      · exact reported_expression (hvalues argument hmem)
      · exact .bind (reported_checkedCall hstart hstarts hnames) fun _ ↦ trivial

theorem reported_program {tree : Node} (h : ProgramOf source stream tree) (analyzer : Analyzer) :
    Reported stream (program source analyzer tree) := by
  obtain ⟨hstatements⟩ := h
  refine .bind (reported_statements fun node hnode ↦ ?_) fun _ ↦ trivial
  exact reported_statement (hstatements node hnode)

end Analysis

/-! ### Diagnostics of sources -/

/-- A source that is not compiled fails as a text, as a stream of tokens, or as a tree. -/
theorem Source.failure_of_compile {source : Source} {folded : Bool} {diagnostic : Diagnostic}
    (h : source.compile folded = .error diagnostic) :
    TokenStream.ofSource source = .error diagnostic ∨
      ∃ stream, TokenStream.ofSource source = .ok stream ∧
        (Node.ofTokens stream = .error diagnostic ∨
          ∃ tree, Node.ofTokens stream = .ok tree ∧
            Analysis.program source .initial tree = .error diagnostic) := by
  have hbuild : source.build folded = .error diagnostic := by
    rcases of_bind_eq_error h with hprogram | ⟨program, -, htext⟩
    · exact of_map_eq_error hprogram
    · cases htext
  rcases of_bind_eq_error hbuild with htree | ⟨tree, htree, hresult⟩
  · rcases of_bind_eq_error htree with hstream | ⟨stream, hstream, htree⟩
    · exact Or.inl hstream
    · exact Or.inr ⟨stream, hstream, Or.inl htree⟩
  · obtain ⟨stream, hstream, htree⟩ := exists_of_bind_eq_ok htree
    refine Or.inr ⟨stream, hstream, Or.inr ⟨tree, htree, ?_⟩⟩
    rcases of_bind_eq_error hresult with hanalysis | ⟨result, -, hfolded⟩
    · exact hanalysis
    · cases hfolded

/-- The trees of a source have the shapes that an analysis reports on. -/
theorem programOf_of_ofTokens {source : Source} {stream : TokenStream} {tree : Node}
    (hsize : source.size < UInt32.size) (hstream : TokenStream.ofSource source = .ok stream)
    (htree : Node.ofTokens stream = .ok tree) : ProgramOf source stream tree :=
  Phrase.programOf (TokenStream.tiles_of_ofSource hsize hstream)
    ((Node.ofTokens_eq_ok_iff stream tree).mp htree)

/-- The diagnostic of a source that is not compiled, and whose size fits in a word, is not internal
and has the line and the column of its offset. It stands at the first character that starts no
lexeme, or at the start of a token; where there is a tree, it is not about the text of the
source. -/
theorem compile_reported {source : Source} {folded : Bool} {diagnostic : Diagnostic}
    (hsize : source.size < UInt32.size) (h : source.compile folded = .error diagnostic) :
    diagnostic.cause.isInternal = false ∧
      source.position? diagnostic.position.offset = some diagnostic.position ∧
      ((∃ before c after, TokenStream.ofSource source = .error diagnostic ∧
          source.chars = before ++ c :: after ∧ Lexeme.Reaches source.chars before (c :: after) ∧
          Lexeme.Stuck c after ∧ diagnostic.position.offset = Text.byteSize before) ∨
        ∃ stream, TokenStream.ofSource source = .ok stream ∧
          (∃ token ∈ stream.toList, token.span.start = diagnostic.position) ∧
          ∀ tree, Node.ofTokens stream = .ok tree → diagnostic.cause.isSyntactic = false) := by
  rcases Source.failure_of_compile h with hstream | ⟨stream, hstream, hfailure⟩
  · obtain ⟨before, c, after, hreaches, hstuck, rfl⟩ := TokenStream.scan_eq_error_iff.mp hstream
    have htext := hreaches.append_eq.symm
    have hoffset : (source.position (0 + Text.byteSize before)).offset = Text.byteSize before := by
      rw [Nat.zero_add, Source.position_byteSize htext]
      exact Position.offset_behind (Text.byteSize_lt_of_append htext hsize)
    refine ⟨rfl, ?_, Or.inl ⟨before, c, after, hstream, htext, hreaches, hstuck, hoffset⟩⟩
    rw [hoffset, Nat.zero_add, Source.position_byteSize htext]
    exact Source.position?_byteSize htext
  · have htiles := TokenStream.tiles_of_ofSource hsize hstream
    have hplaced : stream.StartsAt diagnostic.position →
        source.position? diagnostic.position.offset = some diagnostic.position := by
      rintro ⟨token, htoken, hstart⟩
      rw [← hstart]
      exact (htiles.bounded token htoken).1
    rcases hfailure with htree | ⟨tree, htree, hanalysis⟩
    · obtain ⟨hinternal, hstart⟩ := Node.reported_of_ofTokens htree
      refine ⟨hinternal, hplaced hstart, Or.inr ⟨stream, hstream, hstart, fun tree hread ↦ ?_⟩⟩
      -- There is no tree, so the cause may well be about the text.
      rw [htree] at hread
      cases hread
    · have hreported :=
        Analysis.reported_program (programOf_of_ofTokens hsize hstream htree) Analyzer.initial
      rw [hanalysis] at hreported
      obtain ⟨⟨hinternal, hsyntactic⟩, hstart⟩ := hreported
      exact ⟨hinternal, hplaced hstart, Or.inr ⟨stream, hstream, hstart, fun _ _ ↦ hsyntactic⟩⟩

/-- The theorem at a source whose tree has an operand of the wrong type in its second line. -/
theorem compile_reported_operand :
    ∃ source, source = Source.ofText "" "let a = 1\nprint true and (a + 2)" ∧
      source.size < UInt32.size ∧ ∃ diagnostic, source.compile true = .error diagnostic ∧
        diagnostic.cause.isInternal = false ∧
        source.position? diagnostic.position.offset = some diagnostic.position ∧
        ((∃ before c after, TokenStream.ofSource source = .error diagnostic ∧
            source.chars = before ++ c :: after ∧ Lexeme.Reaches source.chars before (c :: after) ∧
            Lexeme.Stuck c after ∧ diagnostic.position.offset = Text.byteSize before) ∨
          ∃ stream, TokenStream.ofSource source = .ok stream ∧
            (∃ token ∈ stream.toList, token.span.start = diagnostic.position) ∧
            ∀ tree, Node.ofTokens stream = .ok tree → diagnostic.cause.isSyntactic = false) := by
  have hsize : (Source.ofText "" "let a = 1\nprint true and (a + 2)").size < UInt32.size := by
    decide +kernel
  have herror : (Source.ofText "" "let a = 1\nprint true and (a + 2)").compile true =
      .error ⟨.expectedBoolean, ⟨25, 2, 16⟩⟩ := by
    decide +kernel
  exact ⟨_, rfl, hsize, _, herror, compile_reported hsize herror⟩

end Presage
