import Presage.Proofs.Calls
import Presage.Proofs.Quoting
import Presage.Proofs.Spans

/-!
String literals from the text of a source to its script. The quotes of a literal are handled three
times: the scan leaves them out of the value of a token, the analysis strips them off the text of a
leaf, and the script puts quotes around again and escapes what is between them.

The string literals of tokens, trees, programs and scripts are listed in their order. The four lists
go in step: the string leaves of a tree are the string tokens that spell it
(`Phrase.strings_of_statements`), an analysed program holds the leaves without their quotes
(`Analysis.hereditary_strings`), and the script has the strings of the program
(`Emitter.strings_statement`). What a script writes for a string is read back in `Quoting`.
-/

set_option autoImplicit false
set_option relaxedAutoImplicit false

namespace Presage

/-! ### String literals of tokens and trees -/

/-- The tokens that are string literals. -/
def Token.strings (tokens : List Token) : List Token :=
  tokens.filter fun token ↦ token.kind == .string

mutual

/-- The spans of the string literals in a tree. -/
def Node.strings : Node → List Span
  | .program _ statements => Node.stringsAll statements
  | .functionDefinition _ _ parameters body => Node.stringsAll parameters ++ Node.stringsAll body
  | .predictiveLoop _ _ low high _ body =>
    Node.strings low ++ Node.strings high ++ Node.stringsAll body
  | .comparisonStatement _ left right | .binary _ left _ right =>
    Node.strings left ++ Node.strings right
  | .printStatement _ value | .returnStatement _ value | .yieldStatement _ value
  | .variableDeclaration _ _ value | .variableReassignment _ _ value | .keywordArgument _ _ value
  | .parenthesized _ value => Node.strings value
  | .parameter _ _ none => []
  | .parameter _ _ (some default) => Node.strings default
  | .call _ _ arguments => Node.stringsAll arguments
  | .leaf .string span => [span]
  | .leaf _ _ => []

def Node.stringsAll : List Node → List Span
  | [] => []
  | node :: rest => Node.strings node ++ Node.stringsAll rest

end

theorem Node.strings_argumentValue (node : Node) : node.argumentValue.strings = node.strings := by
  cases node with
  | keywordArgument span name value => simp only [argumentValue, strings]
  | _ => rfl

/-! ### String literals of programs and scripts -/

mutual

/-- The string literals in an expression. -/
def Expr.strings : Expr → List String
  | .call ⟨_, arguments, _⟩ => Expr.stringsAll arguments
  | .binary _ left right _ => Expr.strings left ++ Expr.strings right
  | .string value _ => [value]
  | .boolean _ | .number _ _ | .reference _ | .functionReference _ => []

def Expr.stringsAll : List Expr → List String
  | [] => []
  | value :: rest => Expr.strings value ++ Expr.stringsAll rest

end

theorem Expr.strings_call (invocation : Call) :
    (Expr.call invocation).strings = Expr.stringsAll invocation.arguments := by
  obtain ⟨callee, arguments, ty?⟩ := invocation
  rw [Expr.strings]

/-- The string literals in the defaults of parameters. -/
def Parameter.stringsAll (parameters : List Parameter) : List String :=
  Expr.stringsAll (parameters.filterMap Parameter.default?)

mutual

/-- The string literals in a statement. -/
def Statement.strings : Statement → List String
  | .functionDeclaration _ _ parameters body =>
    Parameter.stringsAll parameters ++ Statement.stringsAll body
  | .predictiveLoop _ low high _ body => low.strings ++ high.strings ++ Statement.stringsAll body
  | .comparison left right => left.strings ++ right.strings
  | .variableDeclaration _ value | .variableReassignment _ value | .print value
  | .returnValue value | .yieldValue value => value.strings
  | .call invocation => Expr.stringsAll invocation.arguments

def Statement.stringsAll : List Statement → List String
  | [] => []
  | statement :: rest => Statement.strings statement ++ Statement.stringsAll rest

end

mutual

/-- The string literals in a term. -/
def Script.Term.strings : Script.Term → List String
  | .call _ arguments | .construct _ arguments => Script.Term.stringsAll arguments
  | .binary _ left right => Script.Term.strings left ++ Script.Term.strings right
  | .string value => [value]
  | .name _ | .number _ | .boolean _ => []

def Script.Term.stringsAll : List Script.Term → List String
  | [] => []
  | value :: rest => Script.Term.strings value ++ Script.Term.stringsAll rest

end

mutual

/-- The string literals in a statement of a script. -/
def Script.Stmt.strings : Script.Stmt → List String
  | .declare _ value | .assign _ value | .log value | .returnValue value | .yieldValue value
  | .evaluate value => value.strings
  | .logEqual left right => left.strings ++ right.strings
  | .function _ _ parameters body =>
    Script.Term.stringsAll (parameters.filterMap Script.Parameter.default?) ++
      Script.Stmt.stringsAll body
  | .loop _ _ low high body => low.strings ++ high.strings ++ Script.Stmt.stringsAll body

def Script.Stmt.stringsAll : List Script.Stmt → List String
  | [] => []
  | line :: rest => Script.Stmt.strings line ++ Script.Stmt.stringsAll rest

end

/-! ### From tokens to trees -/

namespace Token

theorem strings_append (first second : List Token) :
    strings (first ++ second) = strings first ++ strings second :=
  List.filter_append first second

theorem strings_cons_of_ne {token : Token} (h : token.kind ≠ .string) (rest : List Token) :
    strings (token :: rest) = strings rest := by
  have hkind : (token.kind == .string) = false := beq_eq_false_iff_ne.mpr h
  rw [strings, List.filter_cons, hkind]
  rfl

end Token

namespace Phrase

/-- The string literals of the nodes are those of the tokens. -/
def StringsAgree (tokens : List Token) (strings : List Span) : Prop :=
  strings = (Token.strings tokens).map Token.span

namespace StringsAgree

variable {tokens second : List Token} {strings others : List Span}

theorem nil : StringsAgree [] [] := rfl

theorem append (h : StringsAgree tokens strings) (hsecond : StringsAgree second others) :
    StringsAgree (tokens ++ second) (strings ++ others) := by
  unfold StringsAgree
  rw [Token.strings_append, List.map_append, ← h, ← hsecond]

/-- A token that is no string before others. -/
theorem skip {token : Token} {kind : TokenKind} (hkind : token.kind = kind)
    (hne : (kind == .string) = false) (h : StringsAgree tokens strings) :
    StringsAgree (token :: tokens) strings := by
  unfold StringsAgree
  rw [Token.strings_cons_of_ne (hkind ▸ beq_eq_false_iff_ne.mp hne)]
  exact h

/-- A token that is no string behind others. -/
theorem skipLast {token : Token} {kind : TokenKind} (hkind : token.kind = kind)
    (hne : (kind == .string) = false) (h : StringsAgree tokens strings) :
    StringsAgree (tokens ++ [token]) strings := by
  have happend := h.append (skip hkind hne nil)
  rw [List.append_nil] at happend
  exact happend

end StringsAgree

theorem strings_of_leaf {token : Token} {kind : LeafKind} (h : leafKind? token.kind = some kind) :
    StringsAgree [token] (Node.leaf kind token.span).strings := by
  unfold StringsAgree
  unfold leafKind? at h
  split at h
  all_goals cases h
  all_goals simp [Token.strings, Node.strings, *]

theorem strings_of_items {item : List Token → Node → Prop} {tokens : List Token}
    {nodes : List Node} (h : Items item tokens nodes)
    (hitem : ∀ piece node, item piece node → piece.length ≤ tokens.length →
      StringsAgree piece node.strings) :
    StringsAgree tokens (Node.stringsAll nodes) := by
  induction h with
  | none => exact .nil
  | @last tokens node hlast =>
    simp only [Node.stringsAll, List.append_nil]
    exact hitem tokens node hlast le_rfl
  | @more tokens rest comma node nodes hfirst hcomma _ ih =>
    rw [List.length_append, List.length_cons] at hitem
    rw [Node.stringsAll]
    refine (hitem tokens node hfirst (by omega)).append (.skip hcomma rfl (ih ?_))
    intro piece node hpiece hlength
    exact hitem piece node hpiece (by omega)

/-- The string leaves of an expression are the string tokens that it is spelled by. -/
theorem strings_of_expression {least : Nat} {tokens : List Token} {node : Node} :
    Expression least tokens node → StringsAgree tokens node.strings
  | .leaf hkind _ => strings_of_leaf hkind
  | .parenthesized hopening hinner hclosing => by
    rw [Node.strings]
    exact .skip hopening rfl (.skipLast hclosing rfl (strings_of_expression hinner))
  | @Expression.call _ _ _ _ inner nodes hcallee hopening harguments hclosing => by
    have hinner : StringsAgree inner (Node.stringsAll nodes) := by
      refine strings_of_items harguments fun piece node hpiece hlength ↦ ?_
      cases hpiece with
      | positional hvalue => exact strings_of_expression hvalue
      | keyword hname hsign hvalue =>
        rw [List.length_cons, List.length_cons] at hlength
        rw [Node.strings]
        exact .skip hname rfl (.skip hsign rfl (strings_of_expression hvalue))
    rw [Node.strings]
    exact .skip hcallee rfl (.skip hopening rfl (.skipLast hclosing rfl hinner))
  | @Expression.binary _ _ left right operator _ _ hoperator _ hleft hright => by
    have hkind : operator.kind ≠ .string := by
      intro hstring
      rw [hstring] at hoperator
      cases hoperator
    rw [Node.strings]
    exact (strings_of_expression hleft).append
      (.skip rfl (beq_eq_false_iff_ne.mpr hkind) (strings_of_expression hright))
termination_by tokens.length
decreasing_by
  all_goals
    simp only [List.length_cons, List.length_append] at *
    omega

theorem strings_of_parameter {tokens : List Token} {node : Node} (h : Parameter tokens node) :
    StringsAgree tokens node.strings := by
  cases h with
  | required hname =>
    rw [Node.strings]
    exact .skip hname rfl .nil
  | optional hname hsign hdefault =>
    rw [Node.strings]
    exact .skip hname rfl (.skip hsign rfl (strings_of_expression hdefault))

theorem strings_of_wordStatement {word : Token} {build : Span → Node → Node} {span : Span}
    {tokens : List Token} {node : Node} (hword : wordStatement? word.kind = some build)
    (hvalue : StringsAgree tokens node.strings) :
    StringsAgree (word :: tokens) (build span node).strings := by
  unfold wordStatement? at hword
  split at hword
  all_goals cases hword
  all_goals
    rw [Node.strings]
    exact .skip (by assumption) rfl hvalue

theorem strings_of_each {next : Token} {tokens : List Token} {nodes : List Node} :
    Statements next tokens nodes →
    (∀ next piece node, Statement next piece node → piece.length ≤ tokens.length →
      StringsAgree piece node.strings) →
    StringsAgree tokens (Node.stringsAll nodes)
  | .nil, _ => .nil
  | .cons hfirst hrest, hstatement => by
    rw [List.length_append] at hstatement
    rw [Node.stringsAll]
    refine (hstatement _ _ _ hfirst (by omega)).append (strings_of_each hrest ?_)
    intro next piece node hpiece hlength
    exact hstatement next piece node hpiece (by omega)

/-- The string leaves of a statement are the string tokens that it is spelled by. -/
theorem strings_of_statement {next : Token} {tokens : List Token} {node : Node}
    (h : Statement next tokens node) : StringsAgree tokens node.strings := by
  cases h with
  | variableDeclaration hword hname hsign hvalue =>
    rw [Node.strings]
    exact .skip hword rfl (.skip hname rfl (.skip hsign rfl (strings_of_expression hvalue)))
  | variableReassignment hname hsign hvalue =>
    rw [Node.strings]
    exact .skip hname rfl (.skip hsign rfl (strings_of_expression hvalue))
  | call hcall => exact strings_of_expression hcall
  | wordStatement hword hvalue =>
    exact strings_of_wordStatement hword (strings_of_expression hvalue)
  | comparison hword hleft hto hright =>
    rw [Node.strings]
    exact .skip hword rfl
      ((strings_of_expression hleft).append (.skip hto rfl (strings_of_expression hright)))
  | @functionDefinition _ _ _ _ _ _ _ tokens _ body hdefine hname hopening hparameters
      hclosing hthen hbody _ _ _ =>
    have hinner : StringsAgree tokens (Node.stringsAll body) :=
      strings_of_each hbody fun _ piece _ hpiece hlength ↦ strings_of_statement hpiece
    have hnames := strings_of_items hparameters fun _ _ hpiece _ ↦ strings_of_parameter hpiece
    rw [Node.strings]
    exact .skip hdefine rfl (.skip hname rfl (.skip hopening rfl
      (hnames.append (.skip hclosing rfl (.skip hthen rfl hinner)))))
  | @predictiveLoop _ _ _ _ _ _ _ _ _ _ _ _ _ _ tokens _ _ body hfor hname hin hrange
      hopening hlow hfirst hhigh hsecond hpattern hclosing hopeningCurly hbody hclosingCurly =>
    have hinner : StringsAgree tokens (Node.stringsAll body) :=
      strings_of_each hbody fun _ piece _ hpiece hlength ↦ strings_of_statement hpiece
    have hbehind := StringsAgree.skip hsecond rfl (.skip hpattern rfl (.skip hclosing rfl
      (.skip hopeningCurly rfl (.skipLast hclosingCurly rfl hinner))))
    rw [Node.strings, List.append_assoc]
    exact .skip hfor rfl (.skip hname rfl (.skip hin rfl (.skip hrange rfl (.skip hopening rfl
      ((strings_of_expression hlow).append
        (.skip hfirst rfl ((strings_of_expression hhigh).append hbehind)))))))
termination_by tokens.length
decreasing_by
  all_goals
    simp only [List.length_cons, List.length_append]
    omega

theorem strings_of_statements {next : Token} {tokens : List Token} {nodes : List Node}
    (h : Statements next tokens nodes) : StringsAgree tokens (Node.stringsAll nodes) :=
  strings_of_each h fun _ _ _ hpiece _ ↦ strings_of_statement hpiece

end Phrase

/-! ### From trees to programs -/

/-- The text of a string literal without its quotes. -/
def Source.unquoted (source : Source) (span : Span) : String :=
  Analysis.unquote (source.read span)

namespace Analysis

variable {source : Source} {context : Context}

mutual

/-- An analysed expression has the string literals of its node, without their quotes. -/
theorem strings_of_expression (node : Node) {value : Expr}
    (h : valueOf source context node = .ok value) :
    value.strings = node.strings.map source.unquoted := by
  cases rule_of_valueOf h with
  | @call _ _ arguments invocation hcall =>
    rw [Node.strings, Expr.strings_call]
    exact strings_of_valuesOf arguments hcall.valuesOf_eq
  | @binary _ left _ right _ _ _ hleft hright _ =>
    simp only [Node.strings, Expr.strings, List.map_append]
    rw [strings_of_expression left hleft, strings_of_expression right hright]
  | @parenthesized _ inner _ hinner =>
    simp only [Node.strings]
    exact strings_of_expression inner hinner
  | string =>
    simp only [Node.strings, Expr.strings]
    rfl
  | number | truth | falsity | reference | functionReference =>
    simp only [Node.strings, Expr.strings, List.map_nil]
termination_by sizeOf node

theorem strings_of_valuesOf : ∀ (nodes : List Node) {values : List Expr},
    valuesOf source context nodes = .ok values →
      Expr.stringsAll values = (Node.stringsAll nodes).map source.unquoted
  | [], _, h => by
    rw [valuesOf_nil] at h
    obtain rfl := Except.ok.inj h
    rfl
  | node :: rest, _, h => by
    rw [valuesOf_cons] at h
    obtain ⟨first, hfirst, h⟩ := exists_of_bind_eq_ok h
    obtain ⟨others, hothers, h⟩ := exists_of_bind_eq_ok h
    obtain rfl := Except.ok.inj h
    have hle := node.sizeOf_argumentValue_le
    have hstrings := strings_of_expression node.argumentValue hfirst
    rw [Node.strings_argumentValue] at hstrings
    simp only [Node.stringsAll, Expr.stringsAll, List.map_append]
    rw [hstrings, strings_of_valuesOf rest hothers]
termination_by nodes => sizeOf nodes

end

theorem strings_of_parameters : ∀ (nodes : List Node) {parameters : List Parameter},
    nodes.mapM (parameterOf source context) = .ok parameters →
      Parameter.stringsAll parameters = (Node.stringsAll nodes).map source.unquoted
  | [], _, h => by
    rw [List.mapM_nil] at h
    obtain rfl := Except.ok.inj h
    rfl
  | node :: rest, _, h => by
    rw [List.mapM_cons] at h
    obtain ⟨first, hfirst, h⟩ := exists_of_bind_eq_ok h
    obtain ⟨others, hothers, h⟩ := exists_of_bind_eq_ok h
    obtain rfl := Except.ok.inj h
    have hrest := strings_of_parameters rest hothers
    unfold Parameter.stringsAll at hrest ⊢
    cases rule_of_parameterOf hfirst with
    | required =>
      simp only [Node.stringsAll, Node.strings, List.nil_append, List.filterMap_cons]
      exact hrest
    | defaulted hdefault =>
      simp only [Node.stringsAll, Node.strings, List.filterMap_cons, Expr.stringsAll,
        List.map_append]
      rw [strings_of_expression _ hdefault, hrest]

/-- The statement has the string literals of its node, without their quotes. -/
def KeepsStrings (source : Source) (_ : Analyzer) (node : Node) (result : Statement)
    (_ : Analyzer) : Prop :=
  result.strings = node.strings.map source.unquoted

theorem stringsAll_of_sequence {analyzer last : Analyzer} {nodes : List Node}
    {results : List Statement}
    (h : Sequence source (KeepsStrings source) analyzer nodes results last) :
    Statement.stringsAll results = (Node.stringsAll nodes).map source.unquoted := by
  induction h with
  | nil => rfl
  | cons _ hfirst _ ih =>
    rw [Statement.stringsAll, Node.stringsAll, List.map_append, ih, hfirst]

theorem hereditary_strings : Hereditary source (KeepsStrings source) := by
  intro analyzer next node result hrule ih
  unfold KeepsStrings
  cases hrule with
  | functionDefinition _ hparameters hbody =>
    simp only [Node.strings, Statement.strings, List.map_append]
    rw [strings_of_parameters _ hparameters, stringsAll_of_sequence (ih hbody)]
    rfl
  | predictiveLoop _ hlow hhigh _ _ hbody =>
    simp only [Node.strings, Statement.strings, List.map_append]
    rw [strings_of_expression _ hlow, strings_of_expression _ hhigh,
      stringsAll_of_sequence (ih hbody)]
    rfl
  | comparison hleft hright =>
    simp only [Node.strings, Statement.strings, List.map_append]
    rw [strings_of_expression _ hleft, strings_of_expression _ hright]
  | print hvalue | returnValue hvalue | yieldValue hvalue | variableDeclaration _ hvalue
  | rebinding _ hvalue | shadowing _ hvalue =>
    simp only [Node.strings, Statement.strings]
    exact strings_of_expression _ hvalue
  | call hcall =>
    simp only [Node.strings, Statement.strings]
    exact strings_of_valuesOf _ hcall.valuesOf_eq

/-- Quotes around a text are stripped off again. -/
theorem unquote_quoted (text : String) : unquote ("\"" ++ text ++ "\"") = text := by
  have hchars : ("\"" ++ text ++ "\"").toList = '\"' :: (text.toList ++ ['\"']) := by simp
  unfold unquote
  simp only [hchars, List.getLast?_concat, List.dropLast_concat, String.ofList_toList, if_true]

end Analysis

/-! ### From programs to scripts -/

namespace Emitter

mutual

theorem strings_term (emitter : Emitter) : ∀ value : Expr,
    (emitter.term value).strings = value.strings
  | .call invocation => by
    rw [term, Expr.strings_call]
    exact strings_callTerm emitter invocation
  | .binary _ left right _ => by
    simp only [term, Script.Term.strings, Expr.strings]
    rw [strings_term emitter left, strings_term emitter right]
  | .boolean _ | .number _ _ | .string _ _ | .reference _ | .functionReference _ => rfl

theorem stringsAll_terms (emitter : Emitter) : ∀ values : List Expr,
    Script.Term.stringsAll (emitter.terms values) = Expr.stringsAll values
  | [] => rfl
  | value :: rest => by
    simp only [terms, Script.Term.stringsAll, Expr.stringsAll]
    rw [strings_term emitter value, stringsAll_terms emitter rest]

theorem strings_callTerm (emitter : Emitter) : ∀ invocation : Call,
    (emitter.callTerm invocation).strings = Expr.stringsAll invocation.arguments
  | ⟨.function _, arguments, _⟩ | ⟨.struct _, arguments, _⟩ => by
    simp only [callTerm, Script.Term.strings]
    exact stringsAll_terms emitter arguments

end

theorem strings_parameters (emitter : Emitter) (parameters : List Parameter) :
    Script.Term.stringsAll
        ((parameters.map emitter.parameter).filterMap Script.Parameter.default?) =
      Parameter.stringsAll parameters := by
  have hdefaults : (parameters.map emitter.parameter).filterMap Script.Parameter.default? =
      emitter.terms (parameters.filterMap Parameter.default?) := by
    rw [terms_eq_map, List.filterMap_map, List.map_filterMap]
    rfl
  rw [hdefaults, stringsAll_terms]
  rfl

mutual

/-- A statement of a script has the strings of the statement it is written for. -/
theorem strings_statement (emitter : Emitter) : ∀ statement : Statement,
    (emitter.statement statement).1.strings = statement.strings
  | .functionDeclaration name function parameters body => by
    simp only [Emitter.statement, Statement.strings, Script.Stmt.strings]
    rw [strings_parameters, stringsAll_statements _ body]
  | .predictiveLoop iterator low high _ body => by
    simp only [Emitter.statement, Statement.strings, Script.Stmt.strings, strings_term]
    rw [stringsAll_statements _ body]
  | .comparison left right => by
    simp only [Emitter.statement, Statement.strings, Script.Stmt.strings, strings_term]
  | .variableDeclaration _ value | .variableReassignment _ value | .print value
  | .returnValue value => strings_term emitter value
  | .yieldValue value => by
    simp only [Emitter.statement, Statement.strings]
    split <;> exact strings_term emitter value
  | .call invocation => strings_callTerm emitter invocation

theorem stringsAll_statements (emitter : Emitter) : ∀ statements : List Statement,
    Script.Stmt.stringsAll (emitter.statements statements).1 = Statement.stringsAll statements
  | [] => rfl
  | statement :: rest => by
    simp only [Emitter.statements, Statement.stringsAll, Script.Stmt.stringsAll]
    rw [strings_statement emitter statement, stringsAll_statements _ rest]

end

end Emitter

/-! ### String literals of sources -/

/-- A string token reads as its value between quotes, and stands for its value. -/
theorem TokenStream.Tiles.string_token {source : Source} {stream : TokenStream}
    (h : stream.Tiles source) {token : Token} (htoken : token ∈ Token.strings stream.tokens) :
    source.read token.span = "\"" ++ token.value ++ "\"" ∧
      source.unquoted token.span = token.value := by
  obtain ⟨hmem, hkind⟩ := List.mem_filter.mp htoken
  obtain ⟨hread, -⟩ := h.read_string hmem (eq_of_beq hkind)
  refine ⟨hread, ?_⟩
  unfold Source.unquoted
  rw [hread, Analysis.unquote_quoted]

/-- The string literals of an accepted program are the values of the string tokens. -/
theorem Source.strings_of_program {source : Source} {stream : TokenStream} {program : Program}
    (hsize : source.size < UInt32.size) (hstream : TokenStream.ofSource source = .ok stream)
    (hprogram : source.program false = .ok program) :
    Statement.stringsAll program.statements =
      (Token.strings stream.tokens).map Token.value := by
  obtain ⟨span, nodes, results, last, htree, hanalysed, hstatements⟩ :=
    Source.exists_of_program hprogram
  obtain ⟨found, hfound, hspells⟩ := Source.tree_eq_ok_iff.mp htree
  obtain rfl : stream = found := Except.ok.inj (hstream.symm.trans hfound)
  have htiles := TokenStream.tiles_of_ofSource hsize hstream
  obtain ⟨hnodes⟩ := hspells
  have htokens : Node.stringsAll nodes = (Token.strings stream.tokens).map Token.span :=
    Phrase.strings_of_statements hnodes
  have hstrings := Analysis.stringsAll_of_sequence
    (Analysis.hereditary_strings.statements nodes hanalysed)
  rw [hstatements, if_neg Bool.false_ne_true, hstrings, htokens, List.map_map]
  exact List.map_congr_left fun token htoken ↦ (htiles.string_token htoken).2

/-- The string literals of a source are kept on the way to its script. -/
structure Source.KeepsStrings (source : Source) (stream : TokenStream) (program : Program) :
    Prop where
  /-- A string token is its value between quotes, and is analysed as a literal with that value. -/
  tokens : ∀ token ∈ stream.tokens, token.kind = .string →
    source.read token.span = "\"" ++ token.value ++ "\"" ∧
      ∀ analyzer, Analysis.expression source analyzer (.leaf .string token.span) =
        .ok (.string token.value .string, analyzer)
  /-- The literals of the program are the values of the string tokens, in their order. -/
  literals : Statement.stringsAll program.statements =
    (stream.tokens.filter fun token ↦ token.kind == .string).map Token.value
  emitted : Script.Stmt.stringsAll program.script = Statement.stringsAll program.statements

/-- Strings keep their content from the source to the script: the string literals of an accepted
program and of its script are the values of the string tokens, if the size of the source fits in a
word. Every text is written as a literal on one line in which no quote is left without a backslash,
and which is read back as the text, so that no two texts are written alike. -/
theorem strings_keep_content :
    (∀ {source : Source} {stream : TokenStream} {program : Program},
      source.size < UInt32.size → TokenStream.ofSource source = .ok stream →
      source.program false = .ok program → source.KeepsStrings stream program) ∧
      (∀ text : String, (Script.Term.string text).render = Script.quote text ∧
        (∃ inside, Script.IsLiteral (Script.quote text) inside) ∧
        Script.decode? (Script.quote text) = some text) ∧
      Function.Injective Script.quote := by
  refine ⟨?_, ?_, Script.quote_injective⟩
  · intro source stream program hsize hstream hprogram
    have htiles := TokenStream.tiles_of_ofSource hsize hstream
    refine ⟨?_, Source.strings_of_program hsize hstream hprogram,
      Emitter.stringsAll_statements .initial program.statements⟩
    intro token htoken hkind
    have hmem : token ∈ Token.strings stream.tokens :=
      List.mem_filter.mpr ⟨htoken, beq_iff_eq.mpr hkind⟩
    obtain ⟨hread, hvalue⟩ := htiles.string_token hmem
    refine ⟨hread, fun analyzer ↦ ?_⟩
    rw [← hvalue, Analysis.expression]
    rfl
  · intro text
    exact ⟨by rw [Script.Term.render], ⟨_, Script.isLiteral_quote text⟩,
      Script.decode?_quote text⟩

/-- The theorem at strings with a line break, a backslash before the closing quote and what looks
like a comment, as a default, an operand and an argument. -/
theorem strings_keep_content_multiline :
    ∃ source stream program,
      source = Source.ofText ""
        "define f(a, b = \"é\n\") then print \"\\\" + a\nf(a = \"// (,\")" ∧
      source.size < UInt32.size ∧
      TokenStream.ofSource source = .ok stream ∧ source.program false = .ok program ∧
      Statement.stringsAll program.statements = ["é\n", "\\", "// (,"] ∧
      source.KeepsStrings stream program ∧
      (∀ text : String, (Script.Term.string text).render = Script.quote text ∧
        (∃ inside, Script.IsLiteral (Script.quote text) inside) ∧
        Script.decode? (Script.quote text) = some text) ∧
      Function.Injective Script.quote := by
  obtain ⟨program, hprogram, hstrings⟩ : ∃ program,
      (Source.ofText ""
        "define f(a, b = \"é\n\") then print \"\\\" + a\nf(a = \"// (,\")").program false =
          .ok program ∧
      Statement.stringsAll program.statements = ["é\n", "\\", "// (,"] :=
    exists_of_any (by decide +kernel)
  have hsize : (Source.ofText ""
      "define f(a, b = \"é\n\") then print \"\\\" + a\nf(a = \"// (,\")").size < UInt32.size := by
    decide +kernel
  obtain ⟨span, nodes, results, last, htree, -⟩ := Source.exists_of_program hprogram
  obtain ⟨stream, hstream, -⟩ := Source.tree_eq_ok_iff.mp htree
  exact ⟨_, stream, program, rfl, hsize, hstream, hprogram, hstrings,
    strings_keep_content.1 hsize hstream hprogram, strings_keep_content.2⟩

end Presage
