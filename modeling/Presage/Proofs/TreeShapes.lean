import Presage.Proofs.Inversion
import Presage.Proofs.Phrases
import Presage.Proofs.ReaderFailures
import Presage.Proofs.Tiling

/-!
The shapes of trees that come from texts. The type of nodes does not fix which of them may stand
where, nor what the texts of leaves are. `ExpressionOf`, `ParameterOf`, `StatementOf` and
`ProgramOf` do, as far as it matters to an analysis: which nodes stand in which place, that names
and expressions start with a token, that numbers can be read, and that operators are those of the
language. No tokens are left in them.

The tokens of a source spell trees of these shapes (`Phrase.programOf`). Which nodes there are is
read off the grammar, and what the leaves say off the texts of the tokens.
-/

set_option autoImplicit false
set_option relaxedAutoImplicit false

namespace Presage

/-! ### Shapes -/

/-- An expression. -/
inductive ExpressionOf (source : Source) (stream : TokenStream) : Node → Prop
  | leaf {kind : LeafKind} {span : Span} (hstart : stream.StartsAt span.start)
      (hkind : kind ≠ .operator)
      (hnumber : kind = .number → ∃ value, Integer.read? (source.read span) = some value) :
      ExpressionOf source stream (.leaf kind span)
  | parenthesized {span : Span} {inner : Node} (hstart : stream.StartsAt span.start)
      (hinner : ExpressionOf source stream inner) :
      ExpressionOf source stream (.parenthesized span inner)
  | call {span : Span} {name : Node} {arguments : List Node} (hstart : stream.StartsAt span.start)
      (hname : stream.StartsAt name.span.start)
      (hstarts : ∀ argument ∈ arguments, stream.StartsAt argument.span.start)
      (hnames : ∀ span name value, .keywordArgument span name value ∈ arguments →
        stream.StartsAt name.span.start)
      (hvalues : ∀ argument ∈ arguments, ExpressionOf source stream argument.argumentValue) :
      ExpressionOf source stream (.call span name arguments)
  | binary {span : Span} {left operator right : Node} (hstart : stream.StartsAt span.start)
      (hleft : ExpressionOf source stream left) (hright : ExpressionOf source stream right)
      (hoperator : operator.text source ∈ ["+", "-", "*", "/", "and", "or"]) :
      ExpressionOf source stream (.binary span left operator right)

/-- An argument is an expression, or one behind the name of a parameter. -/
structure ArgumentOf (source : Source) (stream : TokenStream) (argument : Node) : Prop where
  start : stream.StartsAt argument.span.start
  name : ∀ span name value, argument = .keywordArgument span name value →
    stream.StartsAt name.span.start
  value : ExpressionOf source stream argument.argumentValue

/-- A parameter. -/
inductive ParameterOf (source : Source) (stream : TokenStream) : Node → Prop
  | required {span : Span} {name : Node} : ParameterOf source stream (.parameter span name none)
  | defaulted {span : Span} {name default : Node} (hdefault : ExpressionOf source stream default) :
      ParameterOf source stream (.parameter span name (some default))

/-- A statement, with the statements inside of it. -/
inductive StatementOf (source : Source) (stream : TokenStream) : Node → Prop
  | functionDefinition {span : Span} {name : Node} {parameters body : List Node}
      (hname : stream.StartsAt name.span.start)
      (hparameters : ∀ parameter ∈ parameters, ParameterOf source stream parameter)
      (hbody : ∀ statement ∈ body, StatementOf source stream statement) :
      StatementOf source stream (.functionDefinition span name parameters body)
  | predictiveLoop {span : Span} {name low high pattern : Node} {body : List Node}
      (hname : stream.StartsAt name.span.start) (hlow : ExpressionOf source stream low)
      (hhigh : ExpressionOf source stream high)
      (hbody : ∀ statement ∈ body, StatementOf source stream statement) :
      StatementOf source stream (.predictiveLoop span name low high pattern body)
  | comparison {span : Span} {left right : Node} (hleft : ExpressionOf source stream left)
      (hright : ExpressionOf source stream right) :
      StatementOf source stream (.comparisonStatement span left right)
  | print {span : Span} {value : Node} (hvalue : ExpressionOf source stream value) :
      StatementOf source stream (.printStatement span value)
  | returnValue {span : Span} {value : Node} (hstart : stream.StartsAt span.start)
      (hvalue : ExpressionOf source stream value) :
      StatementOf source stream (.returnStatement span value)
  | yieldValue {span : Span} {value : Node} (hstart : stream.StartsAt span.start)
      (hvalue : ExpressionOf source stream value) :
      StatementOf source stream (.yieldStatement span value)
  | variableDeclaration {span : Span} {name initializer : Node}
      (hname : stream.StartsAt name.span.start)
      (hinitializer : ExpressionOf source stream initializer) :
      StatementOf source stream (.variableDeclaration span name initializer)
  | variableReassignment {span : Span} {name value : Node}
      (hvalue : ExpressionOf source stream value) :
      StatementOf source stream (.variableReassignment span name value)
  | call {span : Span} {name : Node} {arguments : List Node}
      (hcall : ExpressionOf source stream (.call span name arguments)) :
      StatementOf source stream (.call span name arguments)

/-- A program. -/
inductive ProgramOf (source : Source) (stream : TokenStream) : Node → Prop
  | statements {span : Span} {nodes : List Node}
      (hstatements : ∀ node ∈ nodes, StatementOf source stream node) :
      ProgramOf source stream (.program span nodes)

theorem ExpressionOf.start {source : Source} {stream : TokenStream} {node : Node}
    (h : ExpressionOf source stream node) : stream.StartsAt node.span.start := by
  cases h with
  | leaf hstart | parenthesized hstart | call hstart | binary hstart => exact hstart

/-! ### Texts of tokens -/

/-- An operator is written as one of the operators of the language. -/
theorem Lexeme.Spelled.operator {after piece : List Char} {kind : TokenKind}
    (h : Lexeme.Spelled after (some kind) piece)
    (hkind : (Phrase.precedence? kind).isSome = true) :
    String.ofList piece ∈ ["+", "-", "*", "/", "and", "or"] := by
  cases h with
  | word _ _ _ hword =>
    have hreserved : ∀ entry ∈ TokenKind.reserved, (Phrase.precedence? entry.2).isSome = true →
        entry.1 ∈ ["+", "-", "*", "/", "and", "or"] := by decide
    rcases hword with hmem | ⟨rfl, -⟩
    · exact hreserved _ hmem hkind
    · cases hkind
  | number => cases hkind
  | string => cases hkind
  | symbol hsymbol =>
    -- Symbols are told apart one by one, and those that are no operators have no precedence.
    unfold TokenKind.ofSymbol? at hsymbol
    split at hsymbol
    all_goals cases hsymbol
    all_goals
      revert hkind
      decide

namespace TokenStream

variable {source : Source} {stream : TokenStream}

theorem startsAt_of_mem {token : Token} (h : token ∈ stream.tokens) :
    stream.StartsAt token.span.start :=
  ⟨token, List.mem_append_left _ h, rfl⟩

/-- What covers tokens of a stream starts with one of them. -/
theorem startsAt_cover {tokens : List Token} (hne : tokens ≠ []) (h : tokens ⊆ stream.tokens) :
    stream.StartsAt (Phrase.cover tokens).start := by
  obtain ⟨token, rest, rfl⟩ := List.exists_cons_of_ne_nil hne
  exact startsAt_of_mem (h List.mem_cons_self)

theorem Tiles.operator_text (h : stream.Tiles source) {token : Token}
    (htoken : token ∈ stream.tokens) (hkind : (Phrase.precedence? token.kind).isSome = true) :
    source.read token.span ∈ ["+", "-", "*", "/", "and", "or"] := by
  obtain ⟨piece, after, hread, hspelled⟩ := h.read_spelled htoken
  rw [hread]
  exact hspelled.operator hkind

end TokenStream

/-! ### From phrases to shapes -/

namespace Phrase

variable {source : Source} {stream : TokenStream}

/-- Every item is spelled by some of the tokens, in their order. -/
theorem Items.exists_of_mem {item : List Token → Node → Prop} {tokens : List Token}
    {nodes : List Node} (h : Items item tokens nodes) :
    ∀ node ∈ nodes, ∃ piece, item piece node ∧ piece.Sublist tokens := by
  induction h with
  | none => exact nofun
  | @last tokens node hitem =>
    intro other hother
    rw [List.mem_singleton.mp hother]
    exact ⟨tokens, hitem, List.Sublist.refl tokens⟩
  | @more tokens rest comma node nodes hitem _ _ ih =>
    refine List.forall_mem_cons.mpr ⟨⟨tokens, hitem, List.sublist_append_left _ _⟩, ?_⟩
    intro other hother
    obtain ⟨piece, hpiece, hsublist⟩ := ih other hother
    exact ⟨piece, hpiece, (hsublist.cons comma).trans (List.sublist_append_right _ _)⟩

/-- Every statement is spelled by some of the tokens, in their order. -/
theorem Statements.exists_of_mem {next : Token} {tokens : List Token} {nodes : List Node} :
    Statements next tokens nodes →
      ∀ node ∈ nodes, ∃ next piece, Statement next piece node ∧ piece.Sublist tokens
  | .nil => nofun
  | .cons hfirst hrest => by
    refine List.forall_mem_cons.mpr ⟨⟨_, _, hfirst, List.sublist_append_left _ _⟩, ?_⟩
    intro other hother
    obtain ⟨next, piece, hpiece, hsublist⟩ := Statements.exists_of_mem hrest other hother
    exact ⟨next, piece, hpiece, hsublist.trans (List.sublist_append_right _ _)⟩

theorem expressionOf_leaf (htiles : stream.Tiles source) {token : Token}
    (htoken : token ∈ stream.tokens) {kind : LeafKind} (hkind : leafKind? token.kind = some kind)
    (hnumber : token.kind = .number → ∃ value, Integer.read? token.value = some value) :
    ExpressionOf source stream (.leaf kind token.span) := by
  refine .leaf (TokenStream.startsAt_of_mem htoken) ?_ ?_
  · rintro rfl
    unfold leafKind? at hkind
    split at hkind <;> cases hkind
  · rintro rfl
    have hnumberKind : token.kind = .number := by
      unfold leafKind? at hkind
      split at hkind <;> cases hkind
      assumption
    rw [htiles.read_eq htoken (hnumberKind ▸ nofun)]
    exact hnumber hnumberKind

/-- An expression has no name of a parameter before it. -/
theorem Expression.argumentValue_eq {least : Nat} {tokens : List Token} {node : Node}
    (h : Expression least tokens node) : node.argumentValue = node := by
  cases h <;> rfl

theorem argumentOf {argument : Node} {piece : List Token}
    (h : Argument (Expression 0) piece argument) (hsubset : piece ⊆ stream.tokens)
    (hvalue : ∀ tokens node, Expression 0 tokens node → tokens.Sublist piece →
      ExpressionOf source stream node) : ArgumentOf source stream argument := by
  cases h with
  | positional hexpression =>
    have hshape := hvalue piece argument hexpression (List.Sublist.refl piece)
    constructor
    case start => exact hshape.start
    case name =>
      rintro span name value rfl
      cases hexpression
    case value =>
      rw [hexpression.argumentValue_eq]
      exact hshape
  | @keyword name sign tokens node _ _ hexpression =>
    have hname := TokenStream.startsAt_of_mem (hsubset List.mem_cons_self)
    have htokens : tokens.Sublist (name :: sign :: tokens) :=
      ((List.Sublist.refl tokens).cons sign).cons name
    constructor
    case start => exact hname
    case name =>
      intro span name value heq
      cases heq
      exact hname
    case value => exact hvalue tokens node hexpression htokens

/-- The tokens of a source spell expressions whose leaves have the right texts. -/
theorem expressionOf (htiles : stream.Tiles source) {least : Nat} {tokens : List Token}
    {node : Node} :
    Expression least tokens node → tokens ⊆ stream.tokens → ExpressionOf source stream node
  | .leaf hkind hnumber, hsubset =>
    expressionOf_leaf htiles (hsubset List.mem_cons_self) hkind hnumber
  | @Expression.parenthesized _ opening closing inner node _ hinner _, hsubset => by
    have hstart := TokenStream.startsAt_of_mem (hsubset List.mem_cons_self)
    refine .parenthesized hstart (expressionOf htiles hinner fun token htoken ↦ hsubset ?_)
    exact List.mem_cons_of_mem opening (List.mem_append_left _ htoken)
  | @Expression.call _ callee opening closing inner nodes _ _ harguments _, hsubset => by
    have hstart := TokenStream.startsAt_of_mem (hsubset List.mem_cons_self)
    have hinner : inner ⊆ stream.tokens := fun token htoken ↦ hsubset
      (List.mem_cons_of_mem callee (List.mem_cons_of_mem opening (List.mem_append_left _ htoken)))
    have hargument : ∀ argument ∈ nodes, ArgumentOf source stream argument := by
      intro argument hmem
      -- Its tokens are among those of the call, so there are fewer of them.
      obtain ⟨piece, hpiece, hsublist⟩ := harguments.exists_of_mem argument hmem
      refine argumentOf hpiece (fun token htoken ↦ hinner (hsublist.subset htoken)) ?_
      intro tokens node hexpression htokens
      have hwithin := htokens.trans hsublist
      have hlength := hwithin.length_le
      exact expressionOf htiles hexpression fun token htoken ↦ hinner (hwithin.subset htoken)
    exact .call hstart hstart (fun argument hmem ↦ (hargument argument hmem).start)
      (fun span name value hmem ↦ (hargument _ hmem).name span name value rfl)
      (fun argument hmem ↦ (hargument argument hmem).value)
  | @Expression.binary _ _ left right operator _ _ hoperator _ hleft hright, hsubset => by
    have hstart := TokenStream.startsAt_cover (by simp) hsubset
    have hmem : operator ∈ stream.tokens :=
      hsubset (List.mem_append_right left List.mem_cons_self)
    refine .binary hstart (expressionOf htiles hleft fun token htoken ↦ hsubset ?_)
      (expressionOf htiles hright fun token htoken ↦ hsubset ?_) ?_
    · exact List.mem_append_left _ htoken
    · exact List.mem_append_right left (List.mem_cons_of_mem operator htoken)
    · exact htiles.operator_text hmem (Option.isSome_of_eq_some hoperator)
termination_by tokens.length
decreasing_by
  all_goals
    simp only [List.length_cons, List.length_append]
    omega

theorem parameterOf (htiles : stream.Tiles source) {tokens : List Token} {node : Node}
    (h : Parameter tokens node) (hsubset : tokens ⊆ stream.tokens) :
    ParameterOf source stream node := by
  cases h with
  | required => exact .required
  | @optional name sign tokens node _ _ hdefault =>
    refine .defaulted (expressionOf htiles hdefault fun token htoken ↦ hsubset ?_)
    exact List.mem_cons_of_mem name (List.mem_cons_of_mem sign htoken)

/-- A word and an expression. -/
theorem statementOf_wordStatement {word : Token} {build : Span → Node → Node} {span : Span}
    {value : Node} (hword : wordStatement? word.kind = some build)
    (hstart : stream.StartsAt span.start) (hvalue : ExpressionOf source stream value) :
    StatementOf source stream (build span value) := by
  unfold wordStatement? at hword
  split at hword
  all_goals cases hword
  · exact .print hvalue
  · exact .returnValue hstart hvalue
  · exact .yieldValue hstart hvalue

/-- The tokens of a source spell statements of the right shape. -/
theorem statementOf (htiles : stream.Tiles source) {next : Token} {tokens : List Token}
    {node : Node} :
    Statement next tokens node → tokens ⊆ stream.tokens → StatementOf source stream node
  | @Statement.variableDeclaration _ word name sign tokens _ _ _ _ hvalue, hsubset => by
    have hname : name ∈ stream.tokens := hsubset (by simp)
    have hinside : tokens ⊆ stream.tokens := fun token htoken ↦ hsubset (by simp [htoken])
    exact .variableDeclaration (TokenStream.startsAt_of_mem hname)
      (expressionOf htiles hvalue hinside)
  | @Statement.variableReassignment _ name sign tokens _ _ _ hvalue, hsubset => by
    have hinside : tokens ⊆ stream.tokens := fun token htoken ↦ hsubset (by simp [htoken])
    exact .variableReassignment (expressionOf htiles hvalue hinside)
  | .call hcall, hsubset => .call (expressionOf htiles hcall hsubset)
  | @Statement.wordStatement _ word tokens _ _ hword hvalue, hsubset => by
    have hinside : tokens ⊆ stream.tokens := fun token htoken ↦ hsubset (by simp [htoken])
    exact statementOf_wordStatement hword (TokenStream.startsAt_of_mem (hsubset List.mem_cons_self))
      (expressionOf htiles hvalue hinside)
  | @Statement.comparison _ word toToken left right _ _ _ hleft _ hright, hsubset => by
    have hleftInside : left ⊆ stream.tokens := fun token htoken ↦ hsubset (by simp [htoken])
    have hrightInside : right ⊆ stream.tokens := fun token htoken ↦ hsubset (by simp [htoken])
    exact .comparison (expressionOf htiles hleft hleftInside)
      (expressionOf htiles hright hrightInside)
  | @Statement.functionDefinition _ defineToken name opening closing thenToken parameterTokens
      tokens parameters body _ _ _ hparameters _ _ hbody _ _ _, hsubset => by
    have hname : name ∈ stream.tokens := hsubset (by simp)
    refine .functionDefinition (TokenStream.startsAt_of_mem hname) ?_ ?_
    · intro parameter hmem
      obtain ⟨piece, hpiece, hsublist⟩ := hparameters.exists_of_mem parameter hmem
      exact parameterOf htiles hpiece fun token htoken ↦
        hsubset (by simp [hsublist.subset htoken])
    · intro statement hmem
      obtain ⟨after, piece, hpiece, hsublist⟩ := hbody.exists_of_mem statement hmem
      have hlength := hsublist.length_le
      exact statementOf htiles hpiece fun token htoken ↦ hsubset (by simp [hsublist.subset htoken])
  | @Statement.predictiveLoop _ forToken name inToken rangeToken opening firstComma secondComma
      pattern closing openingCurly closingCurly low high tokens _ _ body _ _ _ _ _ hlow _ hhigh _ _
      _ _ hbody _, hsubset => by
    have hname : name ∈ stream.tokens := hsubset (by simp)
    have hlowInside : low ⊆ stream.tokens := fun token htoken ↦ hsubset (by simp [htoken])
    have hhighInside : high ⊆ stream.tokens := fun token htoken ↦ hsubset (by simp [htoken])
    refine .predictiveLoop (TokenStream.startsAt_of_mem hname)
      (expressionOf htiles hlow hlowInside) (expressionOf htiles hhigh hhighInside) ?_
    intro statement hmem
    obtain ⟨after, piece, hpiece, hsublist⟩ := hbody.exists_of_mem statement hmem
    have hlength := hsublist.length_le
    exact statementOf htiles hpiece fun token htoken ↦ hsubset (by simp [hsublist.subset htoken])
termination_by tokens.length
decreasing_by
  all_goals
    simp only [List.length_cons, List.length_append]
    omega

/-- The tokens of a source spell a program of the right shape. -/
theorem programOf (htiles : stream.Tiles source) {tree : Node} (h : Program stream tree) :
    ProgramOf source stream tree := by
  obtain ⟨hstatements⟩ := h
  refine .statements fun node hnode ↦ ?_
  obtain ⟨next, piece, hpiece, hsublist⟩ := hstatements.exists_of_mem node hnode
  exact statementOf htiles hpiece hsublist.subset

end Phrase

end Presage
