import Mathlib.Algebra.Group.Nat.Defs
import Presage.Node.Basic
import Presage.Text.Integer
import Presage.Token.Basic

/-!
The grammar of the language, as relations between tokens and parse trees: `Phrase.Expression`,
`Phrase.Statement` and `Phrase.Program` hold when the tokens spell the tree. Every node spans the
text from its first token to its last (`Phrase.cover`), a program the whole text.

Expressions are graded by how tightly their operators bind outside of parentheses. The left operand
of an operator binds at least as tightly as the operator, the right operand more tightly, so that
operators of one precedence group to the left. A statement is related to the token after it too: a
function definition ends where the next token no longer belongs to its body.
-/

set_option autoImplicit false
set_option relaxedAutoImplicit false

namespace Presage

/-- A text of decimal digits alone is read when its value is at most the greatest integer. -/
theorem Integer.exists_read?_iff_of_digits {text : String} (hne : text ≠ "")
    (hdigits : ∀ digit ∈ text.toList, digit.isDigit = true) :
    (∃ value, read? text = some value) ↔ Nat.ofDigitChars 10 text.toList 0 ≤ 2 ^ 63 - 1 := by
  have hvalue : readDigits? text.toList = some (Nat.ofDigitChars 10 text.toList 0) := by
    unfold readDigits?
    rw [if_pos ⟨mt String.toList_eq_nil_iff.mp hne, List.all_eq_true.mpr hdigits⟩]
    rfl
  have hread : read? text = fit? (Nat.ofDigitChars 10 text.toList 0) := by
    unfold read?
    split
    · next digits htext =>
      rw [htext] at hdigits
      cases hdigits '-' List.mem_cons_self
    · next digits htext =>
      rw [htext] at hdigits
      cases hdigits '+' List.mem_cons_self
    · rw [hvalue]
      rfl
  rw [hread]
  unfold fit? least greatest
  constructor
  · rintro ⟨value, hfit⟩
    split at hfit
    · omega
    · cases hfit
  · intro hle
    rw [if_pos (by omega)]
    exact ⟨_, rfl⟩

namespace Phrase

/-! ### Parts of phrases -/

/-- The span from the first token to the last. -/
def cover (tokens : List Token) : Span :=
  ⟨(tokens.head?.map fun token ↦ token.span.start).getD default,
    (tokens.getLast?.map fun token ↦ token.span.stop).getD default⟩

/-- How tightly an operator binds. -/
def precedence? : TokenKind → Option Nat
  | .kwAnd | .kwOr => some 0
  | .plus | .dash => some 1
  | .star | .slash => some 2
  | _ => none

/-- The leaf that a token is by itself. -/
def leafKind? : TokenKind → Option LeafKind
  | .number => some .number
  | .string => some .string
  | .identifier => some .identifier
  | .kwTrue => some .truth
  | .kwFalse => some .falsity
  | _ => none

/-- The statements that are a word and an expression. -/
def wordStatement? : TokenKind → Option (Span → Node → Node)
  | .kwPrint => some .printStatement
  | .kwReturn => some .returnStatement
  | .kwYield => some .yieldStatement
  | _ => none

/-- Items with commas between them; the last may have a comma too. -/
inductive Items (item : List Token → Node → Prop) : List Token → List Node → Prop
  | none : Items item [] []
  | last {tokens : List Token} {node : Node} (hitem : item tokens node) : Items item tokens [node]
  | more {tokens rest : List Token} {comma : Token} {node : Node} {nodes : List Node}
      (hitem : item tokens node) (hcomma : comma.kind = .comma) (hrest : Items item rest nodes) :
      Items item (tokens ++ comma :: rest) (node :: nodes)

/-- An argument: an expression, or one with the name of a parameter before it. -/
inductive Argument (expression : List Token → Node → Prop) : List Token → Node → Prop
  | positional {tokens : List Token} {node : Node} (hvalue : expression tokens node) :
      Argument expression tokens node
  | keyword {name sign : Token} {tokens : List Token} {node : Node}
      (hname : name.kind = .identifier) (hsign : sign.kind = .assignment)
      (hvalue : expression tokens node) :
      Argument expression (name :: sign :: tokens)
        (.keywordArgument (cover (name :: sign :: tokens)) (.leaf .identifier name.span) node)

/-! ### Expressions -/

/-- The tokens spell an expression whose operators outside of parentheses bind at least as tightly
as `least`. -/
inductive Expression : Nat → List Token → Node → Prop
  | leaf {least : Nat} {token : Token} {kind : LeafKind} (hkind : leafKind? token.kind = some kind)
      (hnumber : token.kind = .number → ∃ value, Integer.read? token.value = some value) :
      Expression least [token] (.leaf kind token.span)
  | parenthesized {least : Nat} {opening closing : Token} {tokens : List Token} {node : Node}
      (hopening : opening.kind = .openParen) (hinner : Expression 0 tokens node)
      (hclosing : closing.kind = .closeParen) :
      Expression least (opening :: (tokens ++ [closing]))
        (.parenthesized (cover (opening :: (tokens ++ [closing]))) node)
  | call {least : Nat} {callee opening closing : Token} {tokens : List Token} {nodes : List Node}
      (hcallee : callee.kind = .identifier) (hopening : opening.kind = .openParen)
      (harguments : Items (Argument (Expression 0)) tokens nodes)
      (hclosing : closing.kind = .closeParen) :
      Expression least (callee :: opening :: (tokens ++ [closing]))
        (.call (cover (callee :: opening :: (tokens ++ [closing]))) (.leaf .identifier callee.span)
          nodes)
  | binary {least precedence : Nat} {left right : List Token} {operator : Token}
      {leftNode rightNode : Node} (hoperator : precedence? operator.kind = some precedence)
      (hleast : least ≤ precedence) (hleft : Expression precedence left leftNode)
      (hright : Expression (precedence + 1) right rightNode) :
      Expression least (left ++ operator :: right)
        (.binary (cover (left ++ operator :: right)) leftNode (.leaf .operator operator.span)
          rightNode)

/-- A parameter: a name, or one with a default. -/
inductive Parameter : List Token → Node → Prop
  | required {name : Token} (hname : name.kind = .identifier) :
      Parameter [name] (.parameter (cover [name]) (.leaf .identifier name.span) none)
  | optional {name sign : Token} {tokens : List Token} {node : Node}
      (hname : name.kind = .identifier) (hsign : sign.kind = .assignment)
      (hdefault : Expression 0 tokens node) :
      Parameter (name :: sign :: tokens)
        (.parameter (cover (name :: sign :: tokens)) (.leaf .identifier name.span) (some node))

/-! ### Statements -/

/-- The offside rule: on the line of `then` or in a column right of `define`. -/
def Inside (defineToken thenToken : Token) (position : Position) : Prop :=
  position.line = thenToken.span.start.line ∨ defineToken.span.start.column < position.column

mutual

/-- The tokens spell a statement before the token `next`. -/
inductive Statement : Token → List Token → Node → Prop
  | variableDeclaration {next word name sign : Token} {tokens : List Token} {node : Node}
      (hword : word.kind = .kwLet) (hname : name.kind = .identifier)
      (hsign : sign.kind = .assignment) (hvalue : Expression 0 tokens node) :
      Statement next (word :: name :: sign :: tokens)
        (.variableDeclaration (cover (word :: name :: sign :: tokens))
          (.leaf .identifier name.span) node)
  | variableReassignment {next name sign : Token} {tokens : List Token} {node : Node}
      (hname : name.kind = .identifier) (hsign : sign.kind = .assignment)
      (hvalue : Expression 0 tokens node) :
      Statement next (name :: sign :: tokens)
        (.variableReassignment (cover (name :: sign :: tokens)) (.leaf .identifier name.span) node)
  | call {next : Token} {tokens : List Token} {span : Span} {callee : Node} {arguments : List Node}
      (hcall : Expression 0 tokens (.call span callee arguments)) :
      Statement next tokens (.call span callee arguments)
  | wordStatement {next word : Token} {tokens : List Token} {node : Node}
      {build : Span → Node → Node} (hword : wordStatement? word.kind = some build)
      (hvalue : Expression 0 tokens node) :
      Statement next (word :: tokens) (build (cover (word :: tokens)) node)
  | comparison {next word toToken : Token} {left right : List Token} {leftNode rightNode : Node}
      (hword : word.kind = .kwCompare) (hleft : Expression 0 left leftNode)
      (hto : toToken.kind = .kwTo) (hright : Expression 0 right rightNode) :
      Statement next (word :: (left ++ toToken :: right))
        (.comparisonStatement (cover (word :: (left ++ toToken :: right))) leftNode rightNode)
  | functionDefinition {next defineToken name opening closing thenToken : Token}
      {parameterTokens tokens : List Token} {parameters body : List Node}
      (hdefine : defineToken.kind = .kwDefine) (hname : name.kind = .identifier)
      (hopening : opening.kind = .openParen)
      (hparameters : Items Parameter parameterTokens parameters)
      (hclosing : closing.kind = .closeParen) (hthen : thenToken.kind = .kwThen)
      (hbody : Statements next tokens body) (hnonempty : body ≠ [])
      (hinside : ∀ node ∈ body, Inside defineToken thenToken node.span.start)
      (hnext : next.kind = .eof ∨ next.kind = .closeCurly ∨
        ¬ Inside defineToken thenToken next.span.start) :
      Statement next
        (defineToken :: name :: opening :: (parameterTokens ++ closing :: thenToken :: tokens))
        (.functionDefinition
          (cover
            (defineToken :: name :: opening :: (parameterTokens ++ closing :: thenToken :: tokens)))
          (.leaf .identifier name.span) parameters body)
  | predictiveLoop {next forToken name inToken rangeToken opening firstComma secondComma pattern
        closing openingCurly closingCurly : Token} {low high tokens : List Token}
      {lowNode highNode : Node} {body : List Node}
      (hfor : forToken.kind = .kwFor) (hname : name.kind = .identifier) (hin : inToken.kind = .kwIn)
      (hrange : rangeToken.kind = .kwPredictiveRange) (hopening : opening.kind = .openParen)
      (hlow : Expression 0 low lowNode) (hfirst : firstComma.kind = .comma)
      (hhigh : Expression 0 high highNode) (hsecond : secondComma.kind = .comma)
      (hpattern : pattern.kind = .identifier) (hclosing : closing.kind = .closeParen)
      (hopeningCurly : openingCurly.kind = .openCurly)
      (hbody : Statements closingCurly tokens body)
      (hclosingCurly : closingCurly.kind = .closeCurly) :
      Statement next
        (forToken :: name :: inToken :: rangeToken :: opening :: (low ++ firstComma ::
          (high ++ secondComma :: pattern :: closing :: openingCurly ::
            (tokens ++ [closingCurly]))))
        (.predictiveLoop
          (cover (forToken :: name :: inToken :: rangeToken :: opening :: (low ++ firstComma ::
            (high ++ secondComma :: pattern :: closing :: openingCurly ::
              (tokens ++ [closingCurly])))))
          (.leaf .identifier name.span) lowNode highNode (.leaf .identifier pattern.span) body)

/-- The tokens spell statements one after the other, the last one before the token `next`. -/
inductive Statements : Token → List Token → List Node → Prop
  | nil {next : Token} : Statements next [] []
  | cons {next : Token} {tokens rest : List Token} {node : Node} {nodes : List Node}
      (hfirst : Statement (rest.head?.getD next) tokens node) (hrest : Statements next rest nodes) :
      Statements next (tokens ++ rest) (node :: nodes)

end

/-- The tokens of the stream spell the program, up to the token that ends it. -/
inductive Program (stream : TokenStream) : Node → Prop
  | statements {nodes : List Node} (hstatements : Statements stream.eof stream.tokens nodes) :
      Program stream (.program ⟨Position.start, stream.eof.span.stop⟩ nodes)

/-! ### Spans and first tokens -/

theorem start_cover_append {first : List Token} (h : first ≠ []) (second : List Token) :
    (cover (first ++ second)).start = (cover first).start := by
  cases first with
  | nil => exact (h rfl).elim
  | cons token rest => rfl

theorem stop_cover_append (first : List Token) {second : List Token} (h : second ≠ []) :
    (cover (first ++ second)).stop = (cover second).stop := by
  unfold cover
  rw [List.getLast?_append, List.getLast?_eq_some_getLast h]
  rfl

/-- The span of a list that is cut in two, neither part empty. -/
theorem cover_append {first second : List Token} (hfirst : first ≠ []) (hsecond : second ≠ []) :
    cover (first ++ second) = ⟨(cover first).start, (cover second).stop⟩ := by
  rw [← start_cover_append hfirst second, ← stop_cover_append first hsecond]

/-- Every expression has a token. -/
theorem Expression.ne_nil {least : Nat} {tokens : List Token} {node : Node}
    (h : Expression least tokens node) : tokens ≠ [] := by
  cases h with
  | leaf => exact List.cons_ne_nil _ _
  | parenthesized => exact List.cons_ne_nil _ _
  | call => exact List.cons_ne_nil _ _
  | binary => exact List.append_ne_nil_of_right_ne_nil _ (List.cons_ne_nil _ _)

/-- An expression spans its tokens. -/
theorem Expression.span_eq {least : Nat} {tokens : List Token} {node : Node}
    (h : Expression least tokens node) : node.span = cover tokens := by
  cases h <;> rfl

/-- The span of two expressions with an operator between them. -/
theorem Expression.cover_binary {leftLeast rightLeast : Nat} {left right : List Token}
    {leftNode rightNode : Node} (hleft : Expression leftLeast left leftNode)
    (hright : Expression rightLeast right rightNode) (operator : Token) :
    cover (left ++ operator :: right) = ⟨leftNode.span.start, rightNode.span.stop⟩ := by
  have hstop := stop_cover_append [operator] hright.ne_nil
  rw [cover_append hleft.ne_nil (List.cons_ne_nil operator right), hleft.span_eq, hright.span_eq,
    ← hstop]
  rfl

/-- A name is the token of that name. -/
theorem Expression.of_identifier {least : Nat} {tokens : List Token} {span : Span}
    (h : Expression least tokens (.leaf .identifier span)) :
    ∃ token : Token, token.kind = .identifier ∧ tokens = [token] ∧ token.span = span := by
  cases h with
  | @leaf _ token _ hkind _ =>
    refine ⟨token, ?_, rfl, rfl⟩
    cases hname : token.kind with
    | identifier => rfl
    | _ =>
      rw [hname] at hkind
      cases hkind

theorem Expression.identifier {least : Nat} {token : Token} (h : token.kind = .identifier) :
    Expression least [token] (.leaf .identifier token.span) := by
  refine .leaf ?_ ?_ <;> rw [h]
  · rfl
  · nofun

/-- An expression starts with a leaf or an opening parenthesis. -/
theorem Expression.start {least : Nat} {tokens : List Token} {node : Node} :
    Expression least tokens node → ∃ token rest, tokens = token :: rest ∧
      (token.kind = .openParen ∨ ∃ kind, leafKind? token.kind = some kind)
  | .leaf hkind _ => ⟨_, [], rfl, Or.inr ⟨_, hkind⟩⟩
  | .parenthesized hopening _ _ => ⟨_, _, rfl, Or.inl hopening⟩
  | .call hcallee _ _ _ => ⟨_, _, rfl, Or.inr ⟨.identifier, by rw [hcallee]; rfl⟩⟩
  | .binary _ _ hleft _ => by
    obtain ⟨token, rest, rfl, hstart⟩ := Expression.start hleft
    exact ⟨token, _, rfl, hstart⟩
termination_by tokens.length
decreasing_by
  rw [List.length_append, List.length_cons]
  omega

/-- A number alone has to be one that 64 bits hold. -/
theorem Expression.read?_of_number {least : Nat} {token : Token} {tokens : List Token} {node : Node}
    (h : Expression least tokens node) (htokens : tokens = [token])
    (hkind : token.kind = .number) : ∃ value, Integer.read? token.value = some value := by
  cases h with
  | leaf _ hnumber =>
    obtain rfl := List.singleton_inj.mp htokens
    exact hnumber hkind
  | parenthesized => simp at htokens
  | call => simp at htokens
  | binary _ _ hleft _ =>
    have hlength := congrArg List.length htokens
    have hleftLength := List.length_pos_iff.mpr hleft.ne_nil
    rw [List.length_append, List.length_cons, List.length_singleton] at hlength
    omega

/-- Of the numbers in decimal digits, those up to the greatest 64-bit integer are expressions. -/
theorem exists_expression_iff_of_digits {token : Token} (hkind : token.kind = .number)
    (hne : token.value ≠ "") (hdigits : ∀ digit ∈ token.value.toList, digit.isDigit = true) :
    (∃ node, Expression 0 [token] node) ↔
      Nat.ofDigitChars 10 token.value.toList 0 ≤ 2 ^ 63 - 1 := by
  rw [← Integer.exists_read?_iff_of_digits hne hdigits]
  constructor
  · rintro ⟨node, h⟩
    exact h.read?_of_number rfl hkind
  · intro hread
    have hleaf : leafKind? token.kind = some .number := by
      rw [hkind]
      rfl
    exact ⟨_, .leaf hleaf fun _ ↦ hread⟩

/-- The kinds of token that a statement starts with. -/
def startsStatement : TokenKind → Bool
  | .kwLet | .identifier | .kwPrint | .kwReturn | .kwYield | .kwCompare | .kwDefine | .kwFor => true
  | _ => false

theorem kind_ne_of_startsStatement {kind other : TokenKind} (h : startsStatement kind = true)
    (hother : startsStatement other = false) : kind ≠ other := by
  rintro rfl
  rw [h] at hother
  cases hother

/-- A statement starts with a word of its own or a name, and spans its tokens. -/
theorem Statement.start {next : Token} {tokens : List Token} {node : Node}
    (h : Statement next tokens node) :
    ∃ token rest, tokens = token :: rest ∧ startsStatement token.kind = true ∧
      node.span = cover tokens := by
  cases h with
  | variableDeclaration hword => exact ⟨_, _, rfl, by rw [hword]; rfl, rfl⟩
  | variableReassignment hname => exact ⟨_, _, rfl, by rw [hname]; rfl, rfl⟩
  | call hcall =>
    cases hcall with
    | call hcallee => exact ⟨_, _, rfl, by rw [hcallee]; rfl, rfl⟩
  | @wordStatement _ word _ _ build hword =>
    refine ⟨_, _, rfl, ?_⟩
    cases hkind : word.kind with
    | kwPrint | kwReturn | kwYield =>
      rw [hkind] at hword
      cases hword
      exact ⟨rfl, rfl⟩
    | _ =>
      rw [hkind] at hword
      cases hword
  | comparison hword => exact ⟨_, _, rfl, by rw [hword]; rfl, rfl⟩
  | functionDefinition hdefine => exact ⟨_, _, rfl, by rw [hdefine]; rfl, rfl⟩
  | predictiveLoop hfor => exact ⟨_, _, rfl, by rw [hfor]; rfl, rfl⟩

end Phrase

end Presage
