import Presage.Proofs.Spans

/-!
Texts that are moved. A `Shift` moves what stands in a text by bytes and by whole lines, and leaves
columns as they are; a text of whole lines put before another moves it so.

Nothing that is read depends on where a text starts. Moved tokens spell the moved tree
(`Phrase.Statements.shifted`), as the offside rule compares only lines for being the same, and
columns. Where the texts of its leaves stay what they were (`SameTexts`), a moved tree has the same
outline (`SameTexts.outline`).
-/

set_option autoImplicit false
set_option relaxedAutoImplicit false

namespace Presage

/-- How far a text is moved. -/
structure Shift where
  bytes : Nat
  lines : Nat

namespace Shift

variable (shift : Shift)

def zero : Shift := ⟨0, 0⟩

def position (position : Position) : Position :=
  ⟨position.offset + shift.bytes, position.line + shift.lines, position.column⟩

def span (span : Span) : Span := ⟨shift.position span.start, shift.position span.stop⟩

def token (token : Token) : Token := { token with span := shift.span token.span }

def diagnostic (diagnostic : Diagnostic) : Diagnostic :=
  { diagnostic with position := shift.position diagnostic.position }

mutual

def node : Node → Node
  | .program span statements => .program (shift.span span) (nodes statements)
  | .functionDefinition span name parameters body =>
    .functionDefinition (shift.span span) (node name) (nodes parameters) (nodes body)
  | .predictiveLoop span iterator low high pattern body =>
    .predictiveLoop (shift.span span) (node iterator) (node low) (node high) (node pattern)
      (nodes body)
  | .comparisonStatement span left right =>
    .comparisonStatement (shift.span span) (node left) (node right)
  | .printStatement span expression => .printStatement (shift.span span) (node expression)
  | .returnStatement span expression => .returnStatement (shift.span span) (node expression)
  | .yieldStatement span expression => .yieldStatement (shift.span span) (node expression)
  | .variableDeclaration span name initializer =>
    .variableDeclaration (shift.span span) (node name) (node initializer)
  | .variableReassignment span name value =>
    .variableReassignment (shift.span span) (node name) (node value)
  | .parameter span name none => .parameter (shift.span span) (node name) none
  | .parameter span name (some default) =>
    .parameter (shift.span span) (node name) (some (node default))
  | .keywordArgument span name value =>
    .keywordArgument (shift.span span) (node name) (node value)
  | .call span callee arguments => .call (shift.span span) (node callee) (nodes arguments)
  | .binary span left operator right =>
    .binary (shift.span span) (node left) (node operator) (node right)
  | .parenthesized span expression => .parenthesized (shift.span span) (node expression)
  | .leaf kind span => .leaf kind (shift.span span)

def nodes : List Node → List Node
  | [] => []
  | first :: rest => node first :: nodes rest

end

theorem nodes_eq_map (list : List Node) : shift.nodes list = list.map shift.node := by
  induction list with
  | nil => rw [nodes, List.map_nil]
  | cons first rest ih => rw [nodes, ih, List.map_cons]

@[simp] theorem span_node (tree : Node) : (shift.node tree).span = shift.span tree.span := by
  cases tree with
  | parameter span name default? => cases default? <;> simp [node, Node.span]
  | _ => simp [node, Node.span]

@[simp] theorem kindName_node (tree : Node) : (shift.node tree).kindName = tree.kindName := by
  cases tree with
  | parameter span name default? => cases default? <;> simp [node, Node.kindName]
  | _ => simp [node, Node.kindName]

@[simp] theorem children_node (tree : Node) :
    (shift.node tree).children = tree.children.map shift.node := by
  cases tree with
  | parameter span name default? => cases default? <;> simp [node, Node.children]
  | _ => simp [node, Node.children, nodes_eq_map]

theorem preorder_node (tree : Node) (depth : Nat) :
    (shift.node tree).preorder depth = (tree.preorder depth).map (Prod.map id shift.node) := by
  induction tree using Node.children_induction generalizing depth with
  | step tree ih =>
    rw [Node.preorder_eq, Node.preorder_eq depth tree, children_node, List.map_cons,
      List.flatMap_map, List.map_flatMap]
    exact congrArg (_ :: ·) (List.flatMap_congr fun child hchild ↦ ih child hchild _)

theorem zero_span (span : Span) : zero.span span = span := rfl

theorem zero_nodes {list : List Node} (h : ∀ tree ∈ list, zero.node tree = tree) :
    zero.nodes list = list := by
  rw [nodes_eq_map, List.map_congr_left h, List.map_id']

theorem zero_node (tree : Node) : zero.node tree = tree := by
  induction tree using Node.children_induction with
  | step tree ih =>
    cases tree with
    | parameter span name default? =>
      cases default? <;> simp_all [node, Node.children, zero_span]
    | _ => simp_all [node, Node.children, zero_nodes, zero_span]

end Shift

/-! ### Phrases -/

namespace Phrase

variable (shift : Shift)

theorem cover_map {tokens : List Token} (h : tokens ≠ []) :
    cover (tokens.map shift.token) = shift.span (cover tokens) := by
  unfold cover
  rw [List.head?_map, List.getLast?_map, List.head?_eq_some_head h,
    List.getLast?_eq_some_getLast h]
  rfl

theorem inside_shift (defineToken thenToken : Token) (position : Position) :
    Inside (shift.token defineToken) (shift.token thenToken) (shift.position position) ↔
      Inside defineToken thenToken position :=
  or_congr Nat.add_right_cancel_iff Iff.rfl

theorem Items.shifted {item other : List Token → Node → Prop} {tokens : List Token}
    {nodes : List Node} (h : Items item tokens nodes)
    (hitem : ∀ piece node, piece.length ≤ tokens.length → item piece node →
      other (piece.map shift.token) (shift.node node)) :
    Items other (tokens.map shift.token) (shift.nodes nodes) := by
  rw [Shift.nodes_eq_map]
  induction h with
  | none => exact .none
  | last hlast => exact .last (hitem _ _ (Nat.le_refl _) hlast)
  | @more tokens rest comma node nodes hfirst hcomma _ ih =>
    rw [List.length_append, List.length_cons] at hitem
    rw [List.map_append, List.map_cons]
    refine .more (hitem _ _ (Nat.le_add_right _ _) hfirst) hcomma (ih fun piece inner hle ↦ ?_)
    exact hitem piece inner (by omega)

theorem Argument.shifted {expression : List Token → Node → Prop} {tokens : List Token} {node : Node}
    (h : Argument expression tokens node)
    (hvalue : ∀ piece node, piece.length ≤ tokens.length → expression piece node →
      expression (piece.map shift.token) (shift.node node)) :
    Argument expression (tokens.map shift.token) (shift.node node) := by
  cases h with
  | positional hpositional => exact .positional (hvalue _ _ (Nat.le_refl _) hpositional)
  | @keyword name sign tokens value hname hsign hkeyword =>
    have hmoved := hvalue tokens value (by simp only [List.length_cons]; omega) hkeyword
    rw [Shift.node, ← cover_map shift (List.cons_ne_nil _ _), Shift.node]
    exact .keyword hname hsign hmoved

/-- Moved tokens spell the moved expression. -/
theorem Expression.shifted {least : Nat} {tokens : List Token} {node : Node} :
    Expression least tokens node →
      Expression least (tokens.map shift.token) (shift.node node)
  | @Expression.leaf _ token _ hkind hnumber => by
    rw [Shift.node]
    exact @Expression.leaf least (shift.token token) _ hkind hnumber
  | @Expression.parenthesized _ opening closing tokens inner hopening hinner hclosing => by
    rw [Shift.node, ← cover_map shift (List.cons_ne_nil _ _), List.map_cons, List.map_append]
    exact .parenthesized hopening hinner.shifted hclosing
  | @Expression.call _ callee opening closing tokens nodes hcallee hopening harguments
      hclosing => by
    have hmoved := harguments.shifted shift fun piece node hpiece hargument ↦
      hargument.shifted shift fun value inner hvalue hexpression ↦ hexpression.shifted
    rw [Shift.node, ← cover_map shift (List.cons_ne_nil _ _), Shift.node, List.map_cons,
      List.map_cons, List.map_append]
    exact .call hcallee hopening hmoved hclosing
  | @Expression.binary _ precedence left right operator _ _ hoperator hleast hleft hright => by
    have hne : left ++ operator :: right ≠ [] :=
      List.append_ne_nil_of_right_ne_nil _ (List.cons_ne_nil _ _)
    rw [Shift.node, ← cover_map shift hne, Shift.node, List.map_append, List.map_cons]
    exact .binary hoperator hleast hleft.shifted hright.shifted
termination_by tokens.length
decreasing_by
  all_goals simp only [List.length_append, List.length_cons]
  all_goals omega

theorem Parameter.shifted {tokens : List Token} {node : Node} (h : Parameter tokens node) :
    Parameter (tokens.map shift.token) (shift.node node) := by
  cases h with
  | required hname =>
    rw [Shift.node, ← cover_map shift (List.cons_ne_nil _ _), Shift.node]
    exact .required hname
  | optional hname hsign hdefault =>
    rw [Shift.node, ← cover_map shift (List.cons_ne_nil _ _), Shift.node]
    exact .optional hname hsign (hdefault.shifted shift)

theorem node_wordStatement {kind : TokenKind} {build : Span → Node → Node}
    (h : wordStatement? kind = some build) (span : Span) (node : Node) :
    shift.node (build span node) = build (shift.span span) (shift.node node) := by
  unfold wordStatement? at h
  split at h
  all_goals cases h
  all_goals rw [Shift.node]

mutual

/-- Moved tokens spell the moved statement. -/
theorem Statement.shifted {next : Token} {tokens : List Token} {node : Node} :
    Statement next tokens node →
      Statement (shift.token next) (tokens.map shift.token) (shift.node node)
  | .variableDeclaration hword hname hsign hvalue => by
    rw [Shift.node, ← cover_map shift (List.cons_ne_nil _ _), Shift.node]
    exact .variableDeclaration hword hname hsign (hvalue.shifted shift)
  | .variableReassignment hname hsign hvalue => by
    rw [Shift.node, ← cover_map shift (List.cons_ne_nil _ _), Shift.node]
    exact .variableReassignment hname hsign (hvalue.shifted shift)
  | .call hcall => by
    have hmoved := hcall.shifted shift
    rw [Shift.node] at hmoved ⊢
    exact .call hmoved
  | @Statement.wordStatement _ word tokens _ _ hword hvalue => by
    rw [node_wordStatement shift hword, ← cover_map shift (List.cons_ne_nil _ _)]
    exact .wordStatement hword (hvalue.shifted shift)
  | .comparison hword hleft hto hright => by
    rw [Shift.node, ← cover_map shift (List.cons_ne_nil _ _), List.map_cons, List.map_append]
    exact .comparison hword (hleft.shifted shift) hto (hright.shifted shift)
  | .functionDefinition hdefine hname hopening hparameters hclosing hthen hbody hnonempty hinside
      hnext => by
    rw [Shift.node, ← cover_map shift (List.cons_ne_nil _ _), Shift.node]
    simp only [List.map_cons, List.map_append]
    have hmovedParameters := hparameters.shifted shift fun _ _ _ ↦ Parameter.shifted shift
    refine .functionDefinition hdefine hname hopening hmovedParameters hclosing hthen
      hbody.shifted ?_ ?_ (hnext.imp_right (Or.imp_right ?_))
    · rw [Shift.nodes_eq_map]
      exact mt List.map_eq_nil_iff.mp hnonempty
    · rw [Shift.nodes_eq_map]
      intro node hnode
      obtain ⟨original, horiginal, rfl⟩ := List.mem_map.mp hnode
      rw [Shift.span_node]
      exact (inside_shift shift _ _ _).mpr (hinside original horiginal)
    · exact mt (inside_shift shift _ _ _).mp
  | .predictiveLoop hfor hname hin hrange hopening hlow hfirst hhigh hsecond hpattern hclosing
      hopeningCurly hbody hclosingCurly => by
    rw [Shift.node, ← cover_map shift (List.cons_ne_nil _ _), Shift.node, Shift.node]
    simp only [List.map_cons, List.map_append]
    exact .predictiveLoop hfor hname hin hrange hopening (hlow.shifted shift) hfirst
      (hhigh.shifted shift) hsecond hpattern hclosing hopeningCurly hbody.shifted hclosingCurly

theorem Statements.shifted {next : Token} {tokens : List Token} {nodes : List Node} :
    Statements next tokens nodes →
      Statements (shift.token next) (tokens.map shift.token) (shift.nodes nodes)
  | .nil => by
    rw [Shift.nodes]
    exact .nil
  | @Statements.cons _ _ rest _ _ hfirst hrest => by
    have hnext : (rest.map shift.token).head?.getD (shift.token next) =
        shift.token (rest.head?.getD next) := by
      cases rest <;> rfl
    rw [Shift.nodes, List.map_append]
    refine .cons ?_ hrest.shifted
    rw [hnext]
    exact hfirst.shifted

end

end Phrase

/-! ### Texts -/

/-- The target has at the places that the nodes of the tree are moved to the texts that the source
has at the nodes. -/
def SameTexts (source target : Source) (shift : Shift) (tree : Node) : Prop :=
  ∀ inner ∈ tree.nodes, (shift.node inner).text target = inner.text source

namespace SameTexts

variable {source target : Source} {shift : Shift} {tree : Node}

theorem child (h : SameTexts source target shift tree) {child : Node}
    (hchild : child ∈ tree.children) : SameTexts source target shift child :=
  fun inner hinner ↦ h inner (Node.mem_nodes_of_mem_children hchild hinner)

/-- What holds in a tree holds in the trees inside of it. -/
theorem inner (h : SameTexts source target shift tree) {inner : Node}
    (hinner : inner ∈ tree.nodes) :
    SameTexts source target shift inner :=
  fun node hnode ↦ h node (Node.mem_nodes_trans hnode hinner)

theorem text (h : SameTexts source target shift tree) :
    (shift.node tree).text target = tree.text source :=
  h tree tree.mem_nodes_self

theorem outlineLine (h : SameTexts source target shift tree) (depth : Nat) :
    (shift.node tree).outlineLine target depth = tree.outlineLine source depth := by
  cases tree with
  | leaf kind span =>
    have hread := h.text
    rw [Shift.node] at hread ⊢
    exact congrArg (fun text ↦ _ ++ (kind.name ++ " " ++ text ++ "\n")) hread
  | parameter span name default? => cases default? <;> rfl
  | _ => rfl

/-- A moved tree has the same outline. -/
theorem outline (h : SameTexts source target shift tree) :
    (shift.node tree).outline target = tree.outline source := by
  have hlines : ∀ entry ∈ tree.preorder 0,
      (shift.node entry.2).outlineLine target entry.1 = entry.2.outlineLine source entry.1 := by
    intro entry hentry
    have hmem : entry.2 ∈ tree.nodes := List.mem_map_of_mem hentry
    exact outlineLine (h.inner hmem) entry.1
  unfold Node.outline
  rw [Shift.preorder_node, List.map_map]
  exact congrArg String.join (List.map_congr_left hlines)

end SameTexts

end Presage
