import Mathlib.Data.List.Basic
import Presage.Proofs.Calls
import Presage.Proofs.Generators
import Presage.Proofs.NormalForms
import Presage.Proofs.Quoting
import Presage.Proofs.Spans
import Presage.Proofs.Typing

/-!
Legible programs: those in which every name is a word, every operator one of the language, and
nothing is constructed. A program that is built by hand can have any text for a name, and its script
then says anything; the program of a source cannot.

The names of a tree are tokens of the source, so they are words (`Source.wellNamed_of_tree`). What a
name means has that name and is no struct type, so an analysed program is legible
(`Analysis.hereditary_legible`), and folding keeps it so (`Statement.Legible.fold`). An emitter
numbers names, which leaves them words; it writes a legible statement as one of a script and goes on
with words for names (`Emitter.Legible.statement`).

A legible term starts with a character of a word or a number, with a quote or with a parenthesis
(`Term.Legible.start`).

Names are read from the source by the positions of their tokens, which are kept in words; so it is
the sources whose size fits in a word that have legible programs.
-/

set_option autoImplicit false
set_option relaxedAutoImplicit false

namespace Presage

/-! ### Names -/

theorem isDigit_of_mem_toDigits {number : Nat} {c : Char} (h : c ∈ Nat.toDigits 10 number) :
    c.isDigit = true :=
  Nat.isDigit_of_mem_toDigits (b := 10) (by decide) (by decide) h

/-- A word of letters, digits and underscores that starts with no digit and is no literal. -/
structure IsName (text : String) : Prop where
  start : ∃ c rest, text.toList = c :: rest ∧ Lexeme.isWordStart c = true
  parts : ∀ c ∈ text.toList, Lexeme.isWordPart c = true
  noLiteral : text ≠ "true" ∧ text ≠ "false"

namespace IsName

theorem ne_nil {text : String} (h : IsName text) : text.toList ≠ [] := by
  obtain ⟨c, rest, htext, -⟩ := h.start
  rw [htext]
  exact List.cons_ne_nil c rest

theorem of_spelled {after piece : List Char} (h : Lexeme.Spelled after (some .identifier) piece) :
    IsName (String.ofList piece) := by
  cases h with
  | @word c rest _ hstart hparts _ hkind =>
    have hunreserved : ∀ kind, (String.ofList (c :: rest), kind) ∉ TokenKind.reserved := by
      rcases hkind with hmem | ⟨-, hnone⟩
      · have hkinds : ∀ entry ∈ TokenKind.reserved, entry.2 ≠ .identifier := by decide
        exact (hkinds _ hmem rfl).elim
      · exact hnone
    refine ⟨⟨c, rest, String.toList_ofList, hstart⟩, ?_, ?_, ?_⟩
    · rw [String.toList_ofList]
      exact List.forall_mem_cons.mpr ⟨Lexeme.isWordPart_of_isWordStart hstart, hparts⟩
    · intro htrue
      exact hunreserved .kwTrue (by rw [htrue]; decide)
    · intro hfalse
      exact hunreserved .kwFalse (by rw [hfalse]; decide)
  | symbol hsymbol =>
    unfold TokenKind.ofSymbol? at hsymbol
    split at hsymbol
    all_goals cases hsymbol

/-- A name with a number is a name. -/
theorem candidate {name : String} (h : IsName name) (number : Nat) :
    IsName (Emitter.candidate name number) := by
  cases number with
  | zero => exact h
  | succ number =>
    obtain ⟨c, rest, hname, hstart⟩ := h.start
    have htext : (Emitter.candidate name (number + 1)).toList =
        name.toList ++ '_' :: Nat.toDigits 10 (number + 1) := by
      simp [Emitter.candidate, Nat.toList_repr]
    -- Literals have no underscore.
    have hunderscore : '_' ∈ (Emitter.candidate name (number + 1)).toList := by
      rw [htext]
      exact List.mem_append_right _ List.mem_cons_self
    refine ⟨⟨c, rest ++ '_' :: Nat.toDigits 10 (number + 1), ?_, hstart⟩, ?_, ?_, ?_⟩
    · rw [htext, hname, List.cons_append]
    · rw [htext]
      refine List.forall_mem_append.mpr ⟨h.parts, List.forall_mem_cons.mpr ⟨by decide, ?_⟩⟩
      intro d hd
      simp [Lexeme.isWordPart, Char.isAlphanum, isDigit_of_mem_toDigits hd]
    · intro htrue
      rw [htrue] at hunderscore
      revert hunderscore
      decide
    · intro hfalse
      rw [hfalse] at hunderscore
      revert hunderscore
      decide

theorem freshName {name : String} (h : IsName name) (taken : List String) :
    IsName (Emitter.freshName taken name) :=
  h.candidate _

end IsName

/-! ### Names of trees -/

/-- The nodes that stand as names in a node: what is declared, assigned, passed or called, and a
name that is used as a value. -/
def Node.names : Node → List Node
  | .functionDefinition _ name _ _ | .variableDeclaration _ name _ | .variableReassignment _ name _
  | .parameter _ name _ | .keywordArgument _ name _ | .call _ name _ => [name]
  | .predictiveLoop _ iterator _ _ pattern _ => [iterator, pattern]
  | .leaf .identifier span => [.leaf .identifier span]
  | _ => []

/-- The names of the node and of all nodes inside of it are names. -/
def Node.WellNamed (source : Source) (node : Node) : Prop :=
  ∀ inner ∈ node.nodes, ∀ name ∈ inner.names, IsName (name.text source)

namespace Node.WellNamed

variable {source : Source} {node : Node}

theorem name (h : node.WellNamed source) {name : Node} (hname : name ∈ node.names) :
    IsName (name.text source) :=
  h node (mem_nodes_self node) name hname

theorem child (h : node.WellNamed source) {child : Node} (hchild : child ∈ node.children) :
    child.WellNamed source :=
  fun inner hinner ↦ h inner (mem_nodes_of_mem_children hchild hinner)

theorem argumentValue (h : node.WellNamed source) : node.argumentValue.WellNamed source := by
  cases node with
  | keywordArgument span name value => exact h.child (by simp [children, Node.argumentValue])
  | _ => exact h

end Node.WellNamed

namespace Phrase

/-- The names of an expression are tokens of that kind. -/
theorem names_of_expression {least : Nat} {tokens : List Token} {node : Node}
    (h : Expression least tokens node) :
    ∀ name ∈ node.names, ∃ token ∈ tokens, token.kind = .identifier ∧ name.span = token.span := by
  cases h with
  | @leaf _ token _ hkind _ =>
    unfold leafKind? at hkind
    split at hkind
    all_goals cases hkind
    all_goals simp [Node.names, Node.span, *]
  | call hcallee => simp [Node.names, Node.span, hcallee]
  | parenthesized => simp [Node.names]
  | binary => simp [Node.names]

theorem names_of_statement {next : Token} {tokens : List Token} {node : Node}
    (h : Statement next tokens node) :
    ∀ name ∈ node.names, ∃ token ∈ tokens, token.kind = .identifier ∧ name.span = token.span := by
  cases h with
  | variableDeclaration _ hname => simp [Node.names, Node.span, hname]
  | variableReassignment hname => simp [Node.names, Node.span, hname]
  | call hcall => exact names_of_expression hcall
  | @wordStatement _ word _ _ _ hword _ =>
    unfold wordStatement? at hword
    split at hword
    all_goals cases hword
    all_goals simp [Node.names]
  | comparison => simp [Node.names]
  | functionDefinition _ hname => simp [Node.names, Node.span, hname]
  | @predictiveLoop _ _ name _ _ _ _ _ pattern _ _ _ _ _ _ _ _ _ _ hname _ _ _ _ _ _ _ hpattern =>
    intro node hnode
    rcases List.mem_pair.mp hnode with rfl | rfl
    · exact ⟨name, by simp, hname, rfl⟩
    · exact ⟨pattern, by simp, hpattern, rfl⟩

/-- The names of a node are tokens of that kind. -/
theorem Spells.names {tokens : List Token} {node : Node} (h : Spells tokens node) :
    ∀ name ∈ node.names, ∃ token ∈ tokens, token.kind = .identifier ∧ name.span = token.span := by
  cases h with
  | name hname => simp [Node.names, Node.span, hname]
  | operator => simp [Node.names]
  | expression hexpression => exact names_of_expression hexpression
  | argument hargument =>
    cases hargument with
    | positional hvalue => exact names_of_expression hvalue
    | keyword hname => simp [Node.names, Node.span, hname]
  | parameter hparameter =>
    cases hparameter with
    | required hname => simp [Node.names, Node.span, hname]
    | optional hname => simp [Node.names, Node.span, hname]
  | statement hstatement => exact names_of_statement hstatement

end Phrase

theorem TokenStream.Tiles.isName {source : Source} {stream : TokenStream}
    (h : stream.Tiles source) {token : Token} (htoken : token ∈ stream.tokens)
    (hkind : token.kind = .identifier) : IsName (source.read token.span) := by
  obtain ⟨piece, after, hread, hspelled⟩ := h.read_spelled htoken
  rw [hkind] at hspelled
  rw [hread]
  exact .of_spelled hspelled

/-- The names of the tree of a source are names. -/
theorem Source.wellNamed_of_tree {source : Source} {tree : Node} (hsize : source.size < UInt32.size)
    (h : source.tree = .ok tree) : tree.WellNamed source := by
  obtain ⟨stream, hstream, hprogram⟩ := Source.tree_eq_ok_iff.mp h
  have htiles := TokenStream.tiles_of_ofSource hsize hstream
  intro node hnode name hname
  rw [Node.nodes_eq] at hnode
  rcases List.mem_cons.mp hnode with rfl | hbelow
  · cases hprogram with
    | statements => cases hname
  · obtain ⟨tokens, htokens, htogether⟩ := hprogram.exists_of_mem hbelow
    obtain ⟨token, htoken, hkind, hspan⟩ := htokens.names name hname
    unfold Node.text
    rw [hspan]
    exact htiles.isName (htogether.subset htoken) hkind

/-! ### Legible programs -/

/-- The operators of programs. -/
def operators : List String := ["+", "-", "*", "/", "and", "or"]

/-- Every name in the expression is a name, every operator one of the language, and every call one
of a function. -/
inductive Expr.Legible : Expr → Prop
  | call {target : Func} {arguments : List Expr} {ty? : Option Ty} (hname : IsName target.name)
      (harguments : ∀ value ∈ arguments, Expr.Legible value) :
      Expr.Legible (.call ⟨.function target, arguments, ty?⟩)
  | binary {operator : String} {left right : Expr} {ty? : Option Ty}
      (hoperator : operator ∈ operators) (hleft : Expr.Legible left)
      (hright : Expr.Legible right) : Expr.Legible (.binary operator left right ty?)
  | boolean {value : Bool} : Expr.Legible (.boolean value)
  | number {value : Int} {ty : Ty} : Expr.Legible (.number value ty)
  | string {value : String} {ty : Ty} : Expr.Legible (.string value ty)
  | reference {target : Variable} (hname : IsName target.name) : Expr.Legible (.reference target)
  | functionReference {target : Func} (hname : IsName target.name) :
      Expr.Legible (.functionReference target)

structure Parameter.Legible (parameter : Parameter) : Prop where
  name : IsName parameter.name
  default : ∀ default ∈ parameter.default?, default.Legible

/-- The expressions of the statement are legible, and what it declares or assigns is a name. -/
inductive Statement.Legible : Statement → Prop
  | functionDeclaration {name : String} {function : Func} {parameters : List Parameter}
      {body : List Statement} (hname : IsName name)
      (hparameters : ∀ parameter ∈ parameters, parameter.Legible)
      (hbody : ∀ statement ∈ body, Statement.Legible statement) :
      Statement.Legible (.functionDeclaration name function parameters body)
  | variableDeclaration {target : Variable} {value : Expr} (hname : IsName target.name)
      (hvalue : value.Legible) : Statement.Legible (.variableDeclaration target value)
  | variableReassignment {target : Variable} {value : Expr} (hname : IsName target.name)
      (hvalue : value.Legible) : Statement.Legible (.variableReassignment target value)
  | predictiveLoop {iterator : Variable} {low high : Expr} {pattern : String}
      {body : List Statement} (hname : IsName iterator.name) (hlow : low.Legible)
      (hhigh : high.Legible) (hpattern : IsName pattern)
      (hbody : ∀ statement ∈ body, Statement.Legible statement) :
      Statement.Legible (.predictiveLoop iterator low high pattern body)
  | comparison {left right : Expr} (hleft : left.Legible) (hright : right.Legible) :
      Statement.Legible (.comparison left right)
  | print {value : Expr} (hvalue : value.Legible) : Statement.Legible (.print value)
  | returnValue {value : Expr} (hvalue : value.Legible) : Statement.Legible (.returnValue value)
  | yieldValue {value : Expr} (hvalue : value.Legible) : Statement.Legible (.yieldValue value)
  | call {invocation : Call} (hcall : (Expr.call invocation).Legible) :
      Statement.Legible (.call invocation)

theorem Expr.Legible.of_contains {value part : Expr} (h : value.Legible)
    (hpart : value.Contains part) : part.Legible := by
  induction hpart with
  | self => exact h
  | argument hvalue _ ih =>
    cases h with
    | call _ harguments => exact ih (harguments _ hvalue)
  | left _ ih =>
    cases h with
    | binary _ hleft _ => exact ih hleft
  | right _ ih =>
    cases h with
    | binary _ _ hright => exact ih hright

theorem Statement.Legible.body {statement : Statement} (h : statement.Legible) :
    ∀ inner ∈ statement.body, inner.Legible := by
  cases h with
  | functionDeclaration _ _ hbody => exact hbody
  | predictiveLoop _ _ _ _ hbody => exact hbody
  | _ => exact List.forall_mem_nil _

theorem Statement.Legible.of_within {statements around : List Statement} {statement : Statement}
    (h : ∀ statement ∈ statements, statement.Legible)
    (hwithin : Within statements around statement) : statement.Legible := by
  induction hwithin with
  | top hmem => exact h _ hmem
  | inner _ hmem ih => exact ih.body _ hmem

/-! ### Analysed programs are legible -/

namespace Analysis

variable {source : Source} {context : Context}

/-- What is bound has its own name and is no struct type. -/
def Plain (name : String) (entity : Entity) : Prop :=
  entity.Named name ∧ ∀ target, entity ≠ .type (.struct target)

theorem plain_var (target : Variable) : Plain target.name (.var target) :=
  ⟨rfl, fun _ ↦ nofun⟩

theorem plain_func (target : Func) : Plain target.name (.func target) :=
  ⟨rfl, fun _ ↦ nofun⟩

theorem plain_root : Frame.Each Plain [Frame.root] :=
  Frame.each_root fun _ htype ↦ ⟨trivial, Context.standardTypes_ne_struct htype⟩

/-- A call of a name is one of a function with that name. -/
theorem CallRule.legible (hplain : Frame.Each Plain context.frames) {name : Node}
    {arguments : List Node} {invocation : Call}
    (h : CallRule source context name arguments invocation) (hname : IsName (name.text source))
    (harguments : ∀ value ∈ invocation.arguments, value.Legible) :
    (Expr.call invocation).Legible := by
  cases h with
  | @function target _ hlookup _ _ _ =>
    have htarget : target.name = name.text source := (each_lookup? hplain hlookup).1
    exact .call (htarget ▸ hname) harguments
  | @construct target _ hlookup _ => exact ((each_lookup? hplain hlookup).2 target rfl).elim

mutual

/-- An expression is legible, as its names mean what has that name. -/
theorem legible_of_expression (hplain : Frame.Each Plain context.frames) (node : Node)
    (hnode : node.WellNamed source) {value : Expr}
    (h : valueOf source context node = .ok value) : value.Legible := by
  cases rule_of_valueOf h with
  | @call _ _ arguments _ hcall =>
    have harguments : ∀ argument ∈ arguments, argument.WellNamed source :=
      fun argument hargument ↦ hnode.child (List.mem_cons_of_mem _ hargument)
    exact hcall.legible hplain (hnode.name List.mem_cons_self)
      (legible_of_valuesOf hplain arguments harguments hcall.valuesOf_eq)
  | @binary _ left _ right _ _ _ hleft hright hty =>
    exact .binary (operatorTyped_of_binaryTy? hty).known
      (legible_of_expression hplain left (hnode.child (by simp [Node.children])) hleft)
      (legible_of_expression hplain right (hnode.child (by simp [Node.children])) hright)
  | @parenthesized _ inner _ hinner =>
    exact legible_of_expression hplain inner (hnode.child (by simp [Node.children])) hinner
  | number => exact .number
  | string => exact .string
  | truth => exact .boolean
  | falsity => exact .boolean
  | @reference span target hlookup =>
    have htarget : target.name = source.read span := (each_lookup? hplain hlookup).1
    exact .reference (htarget ▸ hnode.name List.mem_cons_self)
  | @functionReference span target hlookup =>
    have htarget : target.name = source.read span := (each_lookup? hplain hlookup).1
    exact .functionReference (htarget ▸ hnode.name List.mem_cons_self)
termination_by sizeOf node

theorem legible_of_valuesOf (hplain : Frame.Each Plain context.frames) :
    ∀ (nodes : List Node) (_ : ∀ node ∈ nodes, node.WellNamed source) {values : List Expr},
      valuesOf source context nodes = .ok values → ∀ value ∈ values, value.Legible
  | [], _, _, h => by
    rw [valuesOf_nil] at h
    obtain rfl := Except.ok.inj h
    exact nofun
  | node :: rest, hnodes, _, h => by
    rw [valuesOf_cons] at h
    obtain ⟨first, hfirst, h⟩ := exists_of_bind_eq_ok h
    obtain ⟨others, hothers, h⟩ := exists_of_bind_eq_ok h
    obtain rfl := Except.ok.inj h
    obtain ⟨hnode, hrest⟩ := List.forall_mem_cons.mp hnodes
    have hle := node.sizeOf_argumentValue_le
    exact List.forall_mem_cons.mpr
      ⟨legible_of_expression hplain node.argumentValue hnode.argumentValue hfirst,
        legible_of_valuesOf hplain rest hrest hothers⟩
termination_by nodes => sizeOf nodes

end

theorem legible_of_parameters (hplain : Frame.Each Plain context.frames) {nodes : List Node}
    (hnodes : ∀ node ∈ nodes, node.WellNamed source) {parameters : List Parameter}
    (h : nodes.mapM (parameterOf source context) = .ok parameters) :
    ∀ parameter ∈ parameters, parameter.Legible := by
  intro parameter hparameter
  obtain ⟨node, hnode, hrule⟩ := exists_rule_of_parameters h hparameter
  have hnamed := hnodes node hnode
  cases hrule with
  | required => exact ⟨hnamed.name List.mem_cons_self, nofun⟩
  | defaulted hvalue =>
    refine ⟨hnamed.name List.mem_cons_self, fun default hdefault ↦ ?_⟩
    obtain rfl := Option.some.inj hdefault
    exact legible_of_expression hplain _ (hnamed.child (by simp [Node.children])) hvalue

/-- The statement is legible if its node is well named and what is bound before it is plain. -/
def LegibleFrom (source : Source) (before : Analyzer) (node : Node) (result : Statement)
    (_ : Analyzer) : Prop :=
  Frame.Each Plain before.context.frames → node.WellNamed source → result.Legible

theorem allLegible_of_sequence {analyzer last : Analyzer} {nodes : List Node}
    {results : List Statement}
    (h : Sequence source (LegibleFrom source) analyzer nodes results last)
    (hplain : Frame.Each Plain analyzer.context.frames)
    (hnodes : ∀ node ∈ nodes, node.WellNamed source) :
    ∀ result ∈ results, result.Legible := by
  induction h with
  | nil => exact List.forall_mem_nil _
  | cons hfirst hmotive _ ih =>
    obtain ⟨hnode, hrest⟩ := List.forall_mem_cons.mp hnodes
    have hnext := each_of_statement plain_var hfirst (fun _ _ _ _ _ ↦ plain_func _) hplain
    exact List.forall_mem_cons.mpr ⟨hmotive hplain hnode, ih hnext hrest⟩

theorem hereditary_legible : Hereditary source (LegibleFrom source) := by
  intro analyzer next node result hrule ih hplain hnode
  have hvalue {child : Node} {value : Expr} (hchild : child ∈ node.children)
      (h : valueOf source analyzer.context child = .ok value) : value.Legible :=
    legible_of_expression hplain child (hnode.child hchild) h
  have hbodyOf : ∀ inner ∈ bodyOf node, inner.WellNamed source := by
    intro inner hinner
    refine hnode.child ?_
    cases node <;> simp_all [bodyOf, Node.children]
  cases hrule with
  | functionDefinition _ hparameters hbody =>
    refine .functionDeclaration (hnode.name List.mem_cons_self) ?_
      (allLegible_of_sequence (ih hbody)
        (each_enterFunction plain_var (plain_func _) hplain) hbodyOf)
    refine legible_of_parameters hplain (fun inner hinner ↦ hnode.child ?_) hparameters
    simp [Node.children, hinner]
  | predictiveLoop _ hlow hhigh _ _ hbody =>
    exact .predictiveLoop (hnode.name (by simp [Node.names]))
      (hvalue (by simp [Node.children]) hlow) (hvalue (by simp [Node.children]) hhigh)
      (hnode.name (by simp [Node.names]))
      (allLegible_of_sequence (ih hbody) (each_enterLoop plain_var _ _ hplain) hbodyOf)
  | comparison hleft hright =>
    exact .comparison (hvalue (by simp [Node.children]) hleft)
      (hvalue (by simp [Node.children]) hright)
  | print h => exact .print (hvalue (by simp [Node.children]) h)
  | returnValue h => exact .returnValue (hvalue (by simp [Node.children]) h)
  | yieldValue h => exact .yieldValue (hvalue (by simp [Node.children]) h)
  | variableDeclaration _ h =>
    exact .variableDeclaration (hnode.name List.mem_cons_self) (hvalue (by simp [Node.children]) h)
  | rebinding _ h =>
    exact .variableReassignment (hnode.name List.mem_cons_self)
      (hvalue (by simp [Node.children]) h)
  | shadowing _ h =>
    exact .variableDeclaration (hnode.name List.mem_cons_self) (hvalue (by simp [Node.children]) h)
  | call hcall =>
    refine .call (hcall.legible hplain (hnode.name List.mem_cons_self) ?_)
    refine legible_of_valuesOf hplain _ (fun argument hargument ↦ hnode.child ?_)
      hcall.valuesOf_eq
    exact List.mem_cons_of_mem _ hargument

end Analysis

/-! ### Folded programs are legible -/

theorem legible_of_foldBinary {operator : String} {left right folded : Expr}
    (h : foldBinary operator left right = some folded) : folded.Legible := by
  unfold foldBinary at h
  split at h
  · obtain ⟨value, -, rfl⟩ := Option.map_eq_some_iff.mp h
    exact .number
  · split at h
    · obtain rfl := Option.some.inj h
      exact .string
    · cases h
  · obtain ⟨value, -, rfl⟩ := Option.map_eq_some_iff.mp h
    exact .boolean
  · cases h

theorem Expr.Legible.fold {value : Expr} (h : value.Legible) : value.fold.Legible := by
  induction h with
  | @call _ arguments _ hname _ ih =>
    rw [Expr.fold, Call.fold, Expr.foldAll_eq_map]
    exact .call hname (List.forall_mem_map.mpr ih)
  | @binary operator left right ty? hoperator _ _ ihleft ihright =>
    rw [Expr.fold]
    cases hfold : foldBinary operator left.fold right.fold with
    | none => exact .binary hoperator ihleft ihright
    | some folded => exact legible_of_foldBinary hfold
  | boolean => exact .boolean
  | number => exact .number
  | string => exact .string
  | reference hname => exact .reference hname
  | functionReference hname => exact .functionReference hname

theorem Parameter.Legible.fold {parameter : Parameter} (h : parameter.Legible) :
    parameter.fold.Legible := by
  refine ⟨h.name, fun default hdefault ↦ ?_⟩
  obtain ⟨value, hvalue, rfl⟩ := Option.map_eq_some_iff.mp hdefault
  exact (h.default value hvalue).fold

theorem Statement.foldAll_eq_map (statements : List Statement) :
    Statement.foldedAll statements = statements.map Statement.folded := by
  induction statements with
  | nil => rfl
  | cons statement rest ih => rw [Statement.foldedAll, ih, List.map_cons]

theorem Statement.Legible.fold {statement : Statement} (h : statement.Legible) :
    statement.folded.Legible := by
  induction h with
  | functionDeclaration hname hparameters _ ih =>
    rw [Statement.folded, Statement.foldAll_eq_map]
    exact .functionDeclaration hname
      (List.forall_mem_map.mpr fun parameter hparameter ↦ (hparameters parameter hparameter).fold)
      (List.forall_mem_map.mpr ih)
  | predictiveLoop hname hlow hhigh hpattern _ ih =>
    rw [Statement.folded, Statement.foldAll_eq_map]
    exact .predictiveLoop hname hlow.fold hhigh.fold hpattern (List.forall_mem_map.mpr ih)
  | variableDeclaration hname hvalue => exact .variableDeclaration hname hvalue.fold
  | variableReassignment hname hvalue => exact .variableReassignment hname hvalue.fold
  | comparison hleft hright => exact .comparison hleft.fold hright.fold
  | print hvalue => exact .print hvalue.fold
  | returnValue hvalue => exact .returnValue hvalue.fold
  | yieldValue hvalue => exact .yieldValue hvalue.fold
  | call hcall =>
    have hfolded := hcall.fold
    rw [Expr.fold] at hfolded
    exact .call hfolded

/-- The program of a source is legible. -/
theorem Source.legible_of_program {source : Source} {folded : Bool} {program : Program}
    (hsize : source.size < UInt32.size) (h : source.program folded = .ok program) :
    ∀ statement ∈ program.statements, statement.Legible := by
  obtain ⟨span, nodes, results, last, htree, hanalysed, hstatements⟩ :=
    Source.exists_of_program h
  have hnamed := Source.wellNamed_of_tree hsize htree
  have hlegible := Analysis.allLegible_of_sequence
    (Analysis.hereditary_legible.statements nodes hanalysed) Analysis.plain_root
    fun node hnode ↦ hnamed.child hnode
  rw [hstatements]
  split
  · rw [Statement.foldAll_eq_map]
    exact List.forall_mem_map.mpr fun statement hmem ↦ (hlegible statement hmem).fold
  · exact hlegible

/-! ### Legible scripts -/

namespace Script

/-- The operators of scripts. -/
def operators : List String := ["+", "-", "*", "/", "&&", "||"]

/-- Every name in the term is a name and every operator one of the language, and nothing is
constructed. -/
inductive Term.Legible : Term → Prop
  | name {text : String} (hname : IsName text) : Term.Legible (.name text)
  | number {value : Int} : Term.Legible (.number value)
  | boolean {value : Bool} : Term.Legible (.boolean value)
  | string {value : String} : Term.Legible (.string value)
  | binary {operator : String} {left right : Term} (hoperator : operator ∈ operators)
      (hleft : Term.Legible left) (hright : Term.Legible right) :
      Term.Legible (.binary operator left right)
  | call {callee : String} {arguments : List Term} (hname : IsName callee)
      (harguments : ∀ value ∈ arguments, Term.Legible value) :
      Term.Legible (.call callee arguments)

structure Parameter.Legible (parameter : Parameter) : Prop where
  name : IsName parameter.name
  default : ∀ default ∈ parameter.default?, default.Legible

inductive Stmt.Legible : Stmt → Prop
  | declare {name : String} {value : Term} (hname : IsName name) (hvalue : value.Legible) :
      Stmt.Legible (.declare name value)
  | assign {name : String} {value : Term} (hname : IsName name) (hvalue : value.Legible) :
      Stmt.Legible (.assign name value)
  | log {value : Term} (hvalue : value.Legible) : Stmt.Legible (.log value)
  | logEqual {left right : Term} (hleft : left.Legible) (hright : right.Legible) :
      Stmt.Legible (.logEqual left right)
  | returnValue {value : Term} (hvalue : value.Legible) : Stmt.Legible (.returnValue value)
  | yieldValue {value : Term} (hvalue : value.Legible) : Stmt.Legible (.yieldValue value)
  | evaluate {value : Term} (hvalue : value.Legible) : Stmt.Legible (.evaluate value)
  | function {generator : Bool} {name : String} {parameters : List Parameter} {body : List Stmt}
      (hname : IsName name) (hparameters : ∀ parameter ∈ parameters, parameter.Legible)
      (hbody : ∀ statement ∈ body, Stmt.Legible statement) :
      Stmt.Legible (.function generator name parameters body)
  | loop {pattern iterator : String} {low high : Term} {body : List Stmt}
      (hpattern : IsName pattern) (hname : IsName iterator) (hlow : low.Legible)
      (hhigh : high.Legible) (hbody : ∀ statement ∈ body, Stmt.Legible statement) :
      Stmt.Legible (.loop pattern iterator low high body)

/-! ### Texts of legible terms -/

/-- The characters of names, numbers and truth values. -/
def isLeafPart (c : Char) : Bool := Lexeme.isWordPart c || c == '-'

theorem isLeafPart_of_isDigit {c : Char} (h : c.isDigit = true) : isLeafPart c = true := by
  simp [isLeafPart, Lexeme.isWordPart, Char.isAlphanum, h]

theorem isLeafPart_of_isName {text : String} (h : IsName text) :
    ∀ c ∈ text.toList, isLeafPart c = true := by
  intro c hc
  rw [isLeafPart, h.parts c hc, Bool.true_or]

/-- The decimal form of an integer is not empty, and has digits only behind a sign. -/
theorem decimal_cases (value : Int) :
    (∃ number : Nat, value = number ∧
        (Integer.decimal value).toList = Nat.toDigits 10 number) ∨
      ∃ number : Nat, value = -number ∧
        (Integer.decimal value).toList = '-' :: Nat.toDigits 10 number := by
  cases value with
  | ofNat number => exact Or.inl ⟨number, rfl, Nat.toList_repr⟩
  | negSucc number =>
    refine Or.inr ⟨number + 1, rfl, ?_⟩
    simp [Integer.decimal, Nat.toList_repr]

theorem isLeafPart_decimal (value : Int) :
    (Integer.decimal value).toList ≠ [] ∧
      ∀ c ∈ (Integer.decimal value).toList, isLeafPart c = true := by
  have hdigits (number : Nat) : ∀ c ∈ Nat.toDigits 10 number, isLeafPart c = true :=
    fun c hc ↦ isLeafPart_of_isDigit (isDigit_of_mem_toDigits hc)
  rcases decimal_cases value with ⟨number, -, htext⟩ | ⟨number, -, htext⟩
  · rw [htext]
    exact ⟨Nat.toDigits_ne_nil, hdigits number⟩
  · rw [htext]
    exact ⟨List.cons_ne_nil _ _, List.forall_mem_cons.mpr ⟨by decide, hdigits number⟩⟩

theorem isLeafPart_boolean (value : Bool) :
    (Term.boolean value).render.toList ≠ [] ∧
      ∀ c ∈ (Term.boolean value).render.toList, isLeafPart c = true := by
  rw [Term.render]
  cases value <;> simp <;> decide

theorem Term.renderAll_eq_map (values : List Term) :
    Term.renderAll values = values.map Term.render := by
  induction values with
  | nil => rfl
  | cons value rest ih => rw [Term.renderAll, ih, List.map_cons]

theorem toList_render_binary (operator : String) (left right : Term) :
    (Term.binary operator left right).render.toList =
      '(' :: (left.render.toList ++ ' ' :: (operator.toList ++ ' ' ::
        (right.render.toList ++ [')']))) := by
  simp [Term.render]

theorem toList_render_call (callee : String) (arguments : List Term) :
    (Term.call callee arguments).render.toList =
      callee.toList ++ '(' :: ((", ".intercalate (Term.renderAll arguments)).toList ++ [')']) := by
  simp [Term.render]

/-- The first character of a term. -/
theorem Term.Legible.start {value : Term} (h : value.Legible) :
    ∃ c rest, value.render.toList = c :: rest ∧
      (isLeafPart c = true ∨ c = '(' ∨ c = '\"') := by
  have hleaf {text : List Char} (hne : text ≠ []) (hparts : ∀ c ∈ text, isLeafPart c = true) :
      ∃ c rest, text = c :: rest ∧ (isLeafPart c = true ∨ c = '(' ∨ c = '\"') := by
    obtain ⟨c, rest, rfl⟩ := List.exists_cons_of_ne_nil hne
    exact ⟨c, rest, rfl, Or.inl (hparts c List.mem_cons_self)⟩
  cases h with
  | name hname => exact hleaf hname.ne_nil (isLeafPart_of_isName hname)
  | number => exact hleaf (isLeafPart_decimal _).1 (isLeafPart_decimal _).2
  | boolean => exact hleaf (isLeafPart_boolean _).1 (isLeafPart_boolean _).2
  | string => exact ⟨_, _, toList_quote _, Or.inr (Or.inr rfl)⟩
  | binary => exact ⟨_, _, toList_render_binary _ _ _, Or.inr (Or.inl rfl)⟩
  | call hname =>
    obtain ⟨c, rest, hcallee, hstart⟩ := hname.start
    have hpart := isLeafPart_of_isName hname c (by rw [hcallee]; exact List.mem_cons_self)
    exact ⟨c, _, (toList_render_call _ _).trans (congrArg (· ++ _) hcallee), Or.inl hpart⟩

theorem Term.Legible.start_ne {value : Term} (h : value.Legible) {d : Char}
    (hpart : isLeafPart d = false) (hopening : d ≠ '(') (hquote : d ≠ '\"') :
    ∃ c rest, value.render.toList = c :: rest ∧ c ≠ d := by
  obtain ⟨c, rest, htext, hstart⟩ := h.start
  refine ⟨c, rest, htext, ?_⟩
  rintro rfl
  rcases hstart with hc | hc | hc
  · exact Bool.false_ne_true (hpart.symm.trans hc)
  · exact hopening hc
  · exact hquote hc

end Script

/-! ### Emission of legible programs -/

/-- Every value that is bound has the property. -/
def Bindings.Each {κ α : Type} [BEq κ] (property : α → Prop) (bindings : Bindings κ α) : Prop :=
  ∀ key value, bindings.get? key = some value → property value

theorem Bindings.Each.insert {κ α : Type} [BEq κ] [LawfulBEq κ] {property : α → Prop}
    {bindings : Bindings κ α} (h : bindings.Each property) (key : κ) {value : α}
    (hvalue : property value) : (bindings.insert key value).Each property := by
  intro other found hfound
  rw [Bindings.get?_insert] at hfound
  split at hfound
  · obtain rfl := Option.some.inj hfound
    exact hvalue
  · exact h other found hfound

theorem Emitter.scriptOperator_mem : ∀ operator ∈ operators,
    scriptOperator operator ∈ Script.operators := by
  decide

/-- Everything is written as a name. -/
structure Emitter.Legible (emitter : Emitter) : Prop where
  block : emitter.block.Each IsName
  outer : ∀ block ∈ emitter.outer, block.Each IsName
  names : emitter.names.Each IsName

namespace Emitter.Legible

variable {emitter : Emitter}

theorem initial : Emitter.initial.Legible :=
  ⟨fun _ _ ↦ nofun, List.forall_mem_nil _, fun _ _ ↦ nofun⟩

theorem openBlock (h : emitter.Legible) : emitter.openBlock.Legible :=
  ⟨fun _ _ ↦ nofun, List.forall_mem_cons.mpr ⟨h.block, h.outer⟩, h.names⟩

theorem closeBlock (h : emitter.Legible) : emitter.closeBlock.Legible := by
  unfold Emitter.closeBlock
  split
  · exact h
  · next block outer houter =>
    have hblocks := h.outer
    rw [houter] at hblocks
    obtain ⟨hblock, hrest⟩ := List.forall_mem_cons.mp hblocks
    exact ⟨hblock, hrest, h.names⟩

theorem bind (h : emitter.Legible) {name : String} (hname : IsName name) :
    (emitter.bind name).Legible :=
  ⟨h.block.insert name hname, h.outer, h.names⟩

theorem nameOf (h : emitter.Legible) {target : Variable} (hname : IsName target.name) :
    IsName (emitter.nameOf target) := by
  unfold Emitter.nameOf
  cases hget : emitter.names.get? target.id with
  | none => exact hname
  | some written => exact h.names target.id written hget

theorem declare (h : emitter.Legible) {target : Variable} (hname : IsName target.name) :
    IsName (emitter.declare target).1 ∧ (emitter.declare target).2.Legible :=
  have hwritten := hname.freshName emitter.visible
  ⟨hwritten, h.block.insert target.name hwritten, h.outer, h.names.insert target.id hwritten⟩

theorem rebind (h : emitter.Legible) {target : Variable} (hname : IsName target.name) :
    IsName (emitter.rebind target).1 ∧ (emitter.rebind target).2.Legible := by
  unfold Emitter.rebind
  split
  · next written hget =>
    have hwritten := h.block target.name written hget
    exact ⟨hwritten, h.block, h.outer, h.names.insert target.id hwritten⟩
  · exact h.declare hname

theorem bindAll (h : emitter.Legible) {parameters : List Parameter}
    (hparameters : ∀ parameter ∈ parameters, parameter.Legible) :
    (parameters.foldl (fun state parameter ↦ state.bind parameter.name) emitter).Legible := by
  induction parameters generalizing emitter with
  | nil => exact h
  | cons parameter rest ih =>
    obtain ⟨hfirst, hrest⟩ := List.forall_mem_cons.mp hparameters
    exact ih (h.bind hfirst.name) hrest

theorem enterFunction (h : emitter.Legible) {parameters : List Parameter}
    (hparameters : ∀ parameter ∈ parameters, parameter.Legible) :
    (emitter.enterFunction parameters).Legible :=
  have hbound := h.openBlock.bindAll hparameters
  ⟨hbound.block, hbound.outer, hbound.names⟩

theorem term (h : emitter.Legible) {value : Expr} (hvalue : value.Legible) :
    (emitter.term value).Legible := by
  induction hvalue with
  | call hname _ ih =>
    rw [Emitter.term, Emitter.callTerm, Emitter.terms_eq_map]
    exact .call hname (List.forall_mem_map.mpr ih)
  | binary hoperator _ _ ihleft ihright =>
    exact .binary (scriptOperator_mem _ hoperator) ihleft ihright
  | boolean => exact .boolean
  | number => exact .number
  | string => exact .string
  | reference hname => exact .name (h.nameOf hname)
  | functionReference hname => exact .name hname

theorem parameter (h : emitter.Legible) {parameter : Parameter} (hparameter : parameter.Legible) :
    (emitter.parameter parameter).Legible := by
  refine ⟨hparameter.name, fun default hdefault ↦ ?_⟩
  obtain ⟨value, hvalue, rfl⟩ := Option.map_eq_some_iff.mp hdefault
  exact h.term (hparameter.default value hvalue)

/-- The body of a legible statement is entered with names. -/
theorem enterBody (h : emitter.Legible) {statement : Statement} (hstatement : statement.Legible) :
    (emitter.enterBody statement).Legible := by
  cases hstatement with
  | functionDeclaration hname hparameters _ => exact (h.bind hname).enterFunction hparameters
  | predictiveLoop hname _ _ _ _ => exact (h.openBlock.declare hname).2
  | _ => exact h

mutual

/-- A legible statement is written as a legible one, and leaves names. -/
theorem statement {emitter : Emitter} (h : emitter.Legible) : ∀ statement : Statement,
    statement.Legible → (emitter.statement statement).1.Legible ∧
      (emitter.statement statement).2.Legible
  | .functionDeclaration name function parameters body, hstatement => by
    have hentered := h.enterBody hstatement
    cases hstatement with
    | functionDeclaration hname hparameters hbody =>
      obtain ⟨hlines, hfinished⟩ := hentered.statements body hbody
      obtain ⟨hblock, houter, hnames⟩ := hfinished.closeBlock
      refine ⟨.function hname (List.forall_mem_map.mpr ?_) hlines, hblock, houter, hnames⟩
      exact fun parameter hparameter ↦ h.parameter (hparameters parameter hparameter)
  | .predictiveLoop iterator low high pattern body, hstatement => by
    have hentered := h.enterBody hstatement
    cases hstatement with
    | predictiveLoop hname hlow hhigh hpattern hbody =>
      obtain ⟨hlines, hfinished⟩ := hentered.statements body hbody
      exact ⟨.loop hpattern (h.openBlock.declare hname).1 (h.term hlow) (h.term hhigh) hlines,
        hfinished.closeBlock⟩
  | .variableDeclaration target initializer, hstatement => by
    cases hstatement with
    | variableDeclaration hname hvalue =>
      exact ⟨.declare (h.declare hname).1 (h.term hvalue), (h.declare hname).2⟩
  | .variableReassignment target value, hstatement => by
    cases hstatement with
    | variableReassignment hname hvalue =>
      exact ⟨.assign (h.rebind hname).1 (h.term hvalue), (h.rebind hname).2⟩
  | .comparison left right, hstatement => by
    cases hstatement with
    | comparison hleft hright => exact ⟨.logEqual (h.term hleft) (h.term hright), h⟩
  | .print value, hstatement => by
    cases hstatement with
    | print hvalue => exact ⟨.log (h.term hvalue), h⟩
  | .returnValue value, hstatement => by
    cases hstatement with
    | returnValue hvalue => exact ⟨.returnValue (h.term hvalue), h⟩
  | .yieldValue value, hstatement => by
    cases hstatement with
    | yieldValue hvalue =>
      refine ⟨?_, h⟩
      rw [Emitter.statement]
      split
      · exact .yieldValue (h.term hvalue)
      · exact .log (h.term hvalue)
  | .call invocation, hstatement => by
    cases hstatement with
    | call hcall => exact ⟨.evaluate (h.term hcall), h⟩

theorem statements {emitter : Emitter} (h : emitter.Legible) : ∀ statements : List Statement,
    (∀ statement ∈ statements, statement.Legible) →
      (∀ line ∈ (emitter.statements statements).1, line.Legible) ∧
        (emitter.statements statements).2.Legible
  | [], _ => ⟨List.forall_mem_nil _, h⟩
  | first :: rest, hstatements => by
    obtain ⟨hfirst, hrest⟩ := List.forall_mem_cons.mp hstatements
    obtain ⟨hline, hnext⟩ := h.statement first hfirst
    obtain ⟨hlines, hlast⟩ := hnext.statements rest hrest
    exact ⟨List.forall_mem_cons.mpr ⟨hline, hlines⟩, hlast⟩

end

end Emitter.Legible

end Presage
