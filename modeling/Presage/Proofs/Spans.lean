import Mathlib.Data.List.Basic
import Mathlib.Order.Basic
import Presage.Compile
import Presage.Node.Outline
import Presage.Proofs.Inversion
import Presage.Proofs.StatementReading
import Presage.Proofs.Tiling

/-!
Spans of parse trees. `Phrase.Spells` says that tokens spell a node, whatever the node stands for,
and `Phrase.Parts` that nodes are spelled one after the other by pieces of the tokens. One step of
the grammar is `Spells.parts`: the children of a node are spelled by pieces of the tokens that spell
the node, in the order in which they are listed. What holds of a whole tree follows from it by
induction on the children: every node is spelled by tokens that stand together
(`Spells.exists_of_mem_nodes`), and the leaves in preorder are tokens in the order of the text
(`Spells.leavesAmong`).

Tokens of a source come one after the other, so spans of nodes are nested as the pieces are.
`tree_spanned` puts this together for the tree of a source.
-/

set_option autoImplicit false
set_option relaxedAutoImplicit false

namespace Presage

/-! ### The nodes of a tree -/

namespace Node

theorem sizeOf_lt_of_mem_children {node child : Node} (h : child ∈ node.children) :
    sizeOf child < sizeOf node := by
  have hlist : ∀ nodes : List Node, child ∈ nodes → sizeOf child < sizeOf nodes :=
    fun _ ↦ List.sizeOf_lt_of_mem
  cases node with
  | parameter span name default? => cases default? <;> grind [children]
  | _ => grind [children]

/-- Induction on a tree by the children of its nodes. -/
theorem children_induction {motive : Node → Prop}
    (step : ∀ node, (∀ child ∈ node.children, motive child) → motive node) (node : Node) :
    motive node :=
  step node fun child _ ↦ children_induction step child
termination_by sizeOf node
decreasing_by exact sizeOf_lt_of_mem_children ‹_›

theorem preorderAll_eq_flatMap (depth : Nat) (nodes : List Node) :
    preorderAll depth nodes = nodes.flatMap (preorder depth) := by
  induction nodes with
  | nil => rw [preorderAll, List.flatMap_nil]
  | cons node rest ih => rw [preorderAll, ih, List.flatMap_cons]

/-- A node comes before its children, and these one after the other. -/
theorem preorder_eq (depth : Nat) (node : Node) :
    node.preorder depth = (depth, node) :: node.children.flatMap (preorder (depth + 1)) := by
  cases node with
  | parameter span name default? => cases default? <;> simp [preorder, children]
  | _ => simp [preorder, children, preorderAll_eq_flatMap]

/-- The nodes of a tree, every node before its children. -/
def nodes (node : Node) : List Node := (node.preorder 0).map Prod.snd

theorem map_snd_preorder (node : Node) (depth : Nat) :
    (node.preorder depth).map Prod.snd = node.nodes := by
  unfold nodes
  generalize 0 = other
  induction node using children_induction generalizing depth other with
  | step node ih =>
    rw [preorder_eq, preorder_eq other, List.map_cons, List.map_cons, List.map_flatMap,
      List.map_flatMap]
    exact congrArg (node :: ·) (List.flatMap_congr fun child hchild ↦ ih child hchild _ _)

theorem nodes_eq (node : Node) : node.nodes = node :: node.children.flatMap nodes := by
  have hchildren := List.flatMap_congr (l := node.children) fun child _ ↦ child.map_snd_preorder 1
  rw [nodes, preorder_eq, List.map_cons, List.map_flatMap, hchildren]

theorem mem_nodes_self (node : Node) : node ∈ node.nodes := by
  rw [nodes_eq]
  exact List.mem_cons_self

theorem mem_nodes_of_mem_children {node child inner : Node} (hchild : child ∈ node.children)
    (hinner : inner ∈ child.nodes) : inner ∈ node.nodes := by
  rw [nodes_eq]
  exact List.mem_cons_of_mem node (List.mem_flatMap.mpr ⟨child, hchild, hinner⟩)

theorem mem_nodes_trans {node inner outer : Node} (hnode : node ∈ inner.nodes)
    (hinner : inner ∈ outer.nodes) : node ∈ outer.nodes := by
  induction outer using children_induction with
  | step outer ih =>
    rw [nodes_eq] at hinner
    rcases List.mem_cons.mp hinner with rfl | hbelow
    · exact hnode
    · obtain ⟨child, hchild, hmem⟩ := List.mem_flatMap.mp hbelow
      exact mem_nodes_of_mem_children hchild (ih child hchild hmem)

def isLeaf : Node → Bool
  | leaf _ _ => true
  | _ => false

/-- The leaves of a tree in preorder. -/
def leaves (node : Node) : List Node := node.nodes.filter isLeaf

theorem leaves_eq (node : Node) :
    node.leaves = [node].filter isLeaf ++ node.children.flatMap leaves := by
  rw [leaves, nodes_eq, ← List.singleton_append, List.filter_append, List.filter_flatMap]
  rfl

end Node

/-! ### Pieces of a phrase -/

namespace Phrase

/-- The tokens spell the node as what it stands for in a tree: a name or an operator by itself, an
expression, an argument, a parameter or a statement. -/
inductive Spells : List Token → Node → Prop
  | name {token : Token} (hname : token.kind = .identifier) :
      Spells [token] (.leaf .identifier token.span)
  | operator {token : Token} {precedence : Nat}
      (hoperator : precedence? token.kind = some precedence) :
      Spells [token] (.leaf .operator token.span)
  | expression {least : Nat} {tokens : List Token} {node : Node}
      (hexpression : Expression least tokens node) : Spells tokens node
  | argument {tokens : List Token} {node : Node} (hargument : Argument (Expression 0) tokens node) :
      Spells tokens node
  | parameter {tokens : List Token} {node : Node} (hparameter : Parameter tokens node) :
      Spells tokens node
  | statement {next : Token} {tokens : List Token} {node : Node}
      (hstatement : Statement next tokens node) : Spells tokens node

/-- The nodes are spelled one after the other by pieces of the tokens. The tokens between the pieces
are those that no node stands for. -/
inductive Parts : List Token → List Node → Prop
  | nil {tokens : List Token} : Parts tokens []
  | cons {before piece after : List Token} {node : Node} {nodes : List Node}
      (hnode : Spells piece node) (hrest : Parts after nodes) :
      Parts (before ++ (piece ++ after)) (node :: nodes)

namespace Parts

variable {tokens : List Token} {nodes : List Node}

theorem prepend (before : List Token) (h : Parts tokens nodes) :
    Parts (before ++ tokens) nodes := by
  cases h with
  | nil => exact .nil
  | cons hnode hrest =>
    rw [← List.append_assoc]
    exact .cons hnode hrest

theorem append {second : List Token} {others : List Node} (h : Parts tokens nodes)
    (hsecond : Parts second others) : Parts (tokens ++ second) (nodes ++ others) := by
  induction h with
  | nil => exact hsecond.prepend _
  | cons hnode _ ih =>
    rw [List.append_assoc, List.append_assoc]
    exact .cons hnode ih

/-- Nodes before tokens that no node stands for. -/
theorem before (h : Parts tokens nodes) (after : List Token) : Parts (tokens ++ after) nodes := by
  have happend := h.append (.nil : Parts after [])
  rw [List.append_nil] at happend
  exact happend

theorem single {node : Node} (h : Spells tokens node) : Parts tokens [node] := by
  have hcons : Parts ([] ++ (tokens ++ [])) [node] := .cons h .nil
  rw [List.nil_append, List.append_nil] at hcons
  exact hcons

/-- A node before others. -/
theorem first {piece : List Token} {node : Node} (h : Spells piece node)
    (hrest : Parts tokens nodes) : Parts (piece ++ tokens) (node :: nodes) :=
  @Parts.cons [] piece tokens node nodes h hrest

theorem of_items {item : List Token → Node → Prop} (h : Items item tokens nodes)
    (hitem : ∀ piece node, item piece node → Spells piece node) : Parts tokens nodes := by
  induction h with
  | none => exact .nil
  | last hlast => exact .single (hitem _ _ hlast)
  | @more _ _ comma _ _ hfirst _ _ ih => exact .first (hitem _ _ hfirst) (ih.prepend [comma])

theorem of_statements {next : Token} {tokens : List Token} {nodes : List Node} :
    Statements next tokens nodes → Parts tokens nodes
  | .nil => .nil
  | .cons hfirst hrest => .first (.statement hfirst) (of_statements hrest)

/-- Every node is spelled by tokens that stand together. -/
theorem exists_of_mem (h : Parts tokens nodes) {node : Node} (hnode : node ∈ nodes) :
    ∃ piece, Spells piece node ∧ piece <:+: tokens := by
  induction h with
  | nil => cases hnode
  | @cons before piece after first rest hfirst _ ih =>
    rcases List.mem_cons.mp hnode with rfl | hmem
    · exact ⟨piece, hfirst, before, after, List.append_assoc _ _ _⟩
    · obtain ⟨found, hfound, htogether⟩ := ih hmem
      refine ⟨found, hfound, htogether.trans ?_⟩
      rw [← List.append_assoc]
      exact (List.suffix_append _ _).isInfix

end Parts

namespace Spells

variable {tokens : List Token} {node : Node}

theorem parts_expression {least : Nat} (h : Expression least tokens node) :
    Parts tokens node.children := by
  cases h with
  | leaf => exact .nil
  | @parenthesized _ opening closing _ _ _ hinner _ =>
    exact ((Parts.single (.expression hinner)).before [closing]).prepend [opening]
  | @call _ _ opening closing _ _ hcallee _ harguments _ =>
    have hparts := Parts.of_items harguments fun _ _ ↦ .argument
    exact .first (.name hcallee) ((hparts.before [closing]).prepend [opening])
  | binary hoperator _ hleft hright =>
    exact .first (.expression hleft) (.first (.operator hoperator) (.single (.expression hright)))

theorem parts_parameter (h : Parameter tokens node) : Parts tokens node.children := by
  cases h with
  | required hname => exact .single (.name hname)
  | @optional _ sign _ _ hname _ hdefault =>
    exact .first (.name hname) ((Parts.single (.expression hdefault)).prepend [sign])

theorem parts_wordStatement {word : Token} {build : Span → Node → Node} {span : Span}
    (hword : wordStatement? word.kind = some build) (hvalue : Parts tokens [node]) :
    Parts (word :: tokens) (build span node).children := by
  unfold wordStatement? at hword
  split at hword
  all_goals cases hword
  all_goals exact hvalue.prepend [word]

theorem parts_statement {next : Token} (h : Statement next tokens node) :
    Parts tokens node.children := by
  cases h with
  | @variableDeclaration _ word _ sign _ _ _ hname _ hvalue =>
    exact (Parts.first (.name hname) ((Parts.single (.expression hvalue)).prepend [sign])).prepend
      [word]
  | @variableReassignment _ _ sign _ _ hname _ hvalue =>
    exact .first (.name hname) ((Parts.single (.expression hvalue)).prepend [sign])
  | call hcall => exact parts_expression hcall
  | wordStatement hword hvalue => exact parts_wordStatement hword (.single (.expression hvalue))
  | @comparison _ word toToken _ _ _ _ _ hleft _ hright =>
    exact (Parts.first (.expression hleft)
      ((Parts.single (.expression hright)).prepend [toToken])).prepend [word]
  | @functionDefinition _ defineToken _ opening closing thenToken _ _ _ _ _ hname _ hparameters _ _
      hbody =>
    have hbodyParts := (Parts.of_statements hbody).prepend [closing, thenToken]
    have hparts := (Parts.of_items hparameters fun _ _ ↦ .parameter).append hbodyParts
    exact (Parts.first (.name hname) (hparts.prepend [opening])).prepend [defineToken]
  | @predictiveLoop _ forToken _ inToken rangeToken opening firstComma secondComma _ closing
      openingCurly closingCurly _ _ _ _ _ _ _ hname _ _ _ hlow _ hhigh _ hpattern _ _ hbody =>
    have hbodyParts := (Parts.of_statements hbody).before [closingCurly]
    have hpatternParts := Parts.first (.name hpattern) (hbodyParts.prepend [closing, openingCurly])
    have hhighParts := Parts.first (.expression hhigh) (hpatternParts.prepend [secondComma])
    have hlowParts := Parts.first (.expression hlow) (hhighParts.prepend [firstComma])
    exact (Parts.first (.name hname)
      (hlowParts.prepend [inToken, rangeToken, opening])).prepend [forToken]

/-- The children of a node are spelled by pieces of its tokens. -/
theorem parts (h : Spells tokens node) : Parts tokens node.children := by
  cases h with
  | name | operator => exact .nil
  | expression hexpression => exact parts_expression hexpression
  | argument hargument =>
    cases hargument with
    | positional hvalue => exact parts_expression hvalue
    | @keyword _ sign _ _ hname _ hvalue =>
      exact .first (.name hname) ((Parts.single (.expression hvalue)).prepend [sign])
  | parameter hparameter => exact parts_parameter hparameter
  | statement hstatement => exact parts_statement hstatement

/-- A node has a token, and spans its tokens. -/
theorem span_eq (h : Spells tokens node) : tokens ≠ [] ∧ node.span = cover tokens := by
  cases h with
  | name | operator => exact ⟨List.cons_ne_nil _ _, rfl⟩
  | expression hexpression => exact ⟨hexpression.ne_nil, hexpression.span_eq⟩
  | argument hargument =>
    cases hargument with
    | positional hvalue => exact ⟨hvalue.ne_nil, hvalue.span_eq⟩
    | keyword => exact ⟨List.cons_ne_nil _ _, rfl⟩
  | parameter hparameter => cases hparameter <;> exact ⟨List.cons_ne_nil _ _, rfl⟩
  | statement hstatement =>
    obtain ⟨token, rest, rfl, -, hspan⟩ := hstatement.start
    exact ⟨List.cons_ne_nil _ _, hspan⟩

/-- A leaf is a token. -/
theorem of_isLeaf (h : Spells tokens node) (hleaf : node.isLeaf = true) :
    ∃ token : Token, tokens = [token] ∧ node.span = token.span := by
  have hexpression {least : Nat} (hvalue : Expression least tokens node) :
      ∃ token : Token, tokens = [token] ∧ node.span = token.span := by
    cases hvalue with
    | leaf => exact ⟨_, rfl, rfl⟩
    | _ => cases hleaf
  cases h with
  | name | operator => exact ⟨_, rfl, rfl⟩
  | expression hvalue => exact hexpression hvalue
  | argument hargument =>
    cases hargument with
    | positional hvalue => exact hexpression hvalue
    | keyword => cases hleaf
  | parameter hparameter => cases hparameter <;> cases hleaf
  | statement hstatement =>
    cases hstatement with
    | @wordStatement _ word _ _ _ hword _ =>
      unfold wordStatement? at hword
      split at hword
      all_goals cases hword
      all_goals cases hleaf
    | _ => cases hleaf

/-- Every node of a tree is spelled by tokens that stand together. -/
theorem exists_of_mem_nodes (h : Spells tokens node) {inner : Node} (hinner : inner ∈ node.nodes) :
    ∃ piece, Spells piece inner ∧ piece <:+: tokens := by
  induction node using Node.children_induction generalizing tokens with
  | step node ih =>
    rw [Node.nodes_eq] at hinner
    rcases List.mem_cons.mp hinner with rfl | hbelow
    · exact ⟨tokens, h, List.infix_rfl⟩
    · obtain ⟨child, hchild, hmem⟩ := List.mem_flatMap.mp hbelow
      obtain ⟨piece, hpiece, htogether⟩ := h.parts.exists_of_mem hchild
      obtain ⟨found, hfound, hfoundTogether⟩ := ih child hchild hpiece hmem
      exact ⟨found, hfound, hfoundTogether.trans htogether⟩

end Spells

/-- The leaves of the node are some of the tokens, in their order. -/
def LeavesAmong (tokens : List Token) (leaves : List Node) : Prop :=
  ∃ picked : List Token, picked.Sublist tokens ∧ leaves.map Node.span = picked.map Token.span

theorem Parts.leavesAmong {tokens : List Token} {nodes : List Node} (h : Parts tokens nodes)
    (hnodes : ∀ node ∈ nodes, ∀ piece, Spells piece node → LeavesAmong piece node.leaves) :
    LeavesAmong tokens (nodes.flatMap Node.leaves) := by
  induction h with
  | nil => exact ⟨[], List.nil_sublist _, rfl⟩
  | @cons before piece after node nodes hnode _ ih =>
    obtain ⟨hfirst, hrest⟩ := List.forall_mem_cons.mp hnodes
    obtain ⟨picked, hpicked, hspans⟩ := hfirst piece hnode
    obtain ⟨others, hothers, hotherSpans⟩ := ih hrest
    refine ⟨picked ++ others, (hpicked.append hothers).trans (List.sublist_append_right _ _), ?_⟩
    rw [List.flatMap_cons, List.map_append, List.map_append, hspans, hotherSpans]

/-- The leaves of a tree in preorder are some of its tokens, in their order. -/
theorem Spells.leavesAmong {tokens : List Token} {node : Node} (h : Spells tokens node) :
    LeavesAmong tokens node.leaves := by
  induction node using Node.children_induction generalizing tokens with
  | step node ih =>
    rw [Node.leaves_eq]
    by_cases hleaf : node.isLeaf = true
    · obtain ⟨token, rfl, hspan⟩ := h.of_isLeaf hleaf
      have hchildren : node.children = [] := by
        cases node <;> cases hleaf
        rfl
      refine ⟨[token], List.Sublist.refl _, ?_⟩
      rw [hchildren, List.filter_singleton, hleaf]
      exact congrArg (· :: []) hspan
    · rw [List.filter_singleton, Bool.eq_false_iff.mpr hleaf]
      exact h.parts.leavesAmong fun child hchild piece hpiece ↦ ih child hchild hpiece

/-! ### Order -/

end Phrase

namespace Span

def Nonempty (span : Span) : Prop := span.start.offset < span.stop.offset

def Before (first second : Span) : Prop := first.stop.offset ≤ second.start.offset

def Within (inner outer : Span) : Prop :=
  outer.start.offset ≤ inner.start.offset ∧ inner.stop.offset ≤ outer.stop.offset

end Span

namespace Phrase

/-- The span of tokens goes from the first to the last. -/
theorem exists_cover {tokens : List Token} (h : tokens ≠ []) :
    ∃ first last, tokens.head? = some first ∧ tokens.getLast? = some last ∧
      cover tokens = ⟨first.span.start, last.span.stop⟩ := by
  have hfirst := List.head?_eq_some_head h
  have hlast := List.getLast?_eq_some_getLast h
  refine ⟨_, _, hfirst, hlast, ?_⟩
  unfold cover
  rw [hfirst, hlast]
  rfl

/-- The tokens are not empty and come one after the other. -/
structure InOrder (tokens : List Token) : Prop where
  nonempty : ∀ token ∈ tokens, token.span.Nonempty
  ordered : tokens.Pairwise fun first second ↦ first.span.Before second.span

namespace InOrder

variable {tokens first second piece : List Token}

theorem sublist (h : InOrder tokens) (hpiece : piece.Sublist tokens) : InOrder piece :=
  ⟨fun token htoken ↦ h.nonempty token (hpiece.subset htoken), h.ordered.sublist hpiece⟩

theorem before (h : InOrder (first ++ second)) (hfirst : first ≠ []) (hsecond : second ≠ []) :
    (cover first).Before (cover second) := by
  obtain ⟨_, firstLast, -, hfirstLast, hfirstCover⟩ := exists_cover hfirst
  obtain ⟨secondFirst, _, hsecondFirst, -, hsecondCover⟩ := exists_cover hsecond
  rw [hfirstCover, hsecondCover]
  exact (List.pairwise_append.mp h.ordered).2.2 firstLast (List.mem_of_getLast? hfirstLast)
    secondFirst (List.mem_of_head? hsecondFirst)

theorem nonempty_cover (h : InOrder tokens) (htokens : tokens ≠ []) : (cover tokens).Nonempty := by
  induction tokens with
  | nil => exact (htokens rfl).elim
  | cons token rest ih =>
    have htoken := h.nonempty token List.mem_cons_self
    by_cases hrest : rest = []
    · rw [hrest]
      exact htoken
    · have hbefore := before (show InOrder ([token] ++ rest) from h) (List.cons_ne_nil _ _) hrest
      have hcover := ih (h.sublist (List.sublist_cons_self _ _)) hrest
      have happend := cover_append (List.cons_ne_nil token []) hrest
      rw [List.singleton_append] at happend
      rw [happend]
      exact htoken.trans (Nat.lt_of_le_of_lt hbefore hcover)

theorem within_append_left (h : InOrder (first ++ second)) (hsecond : second ≠ []) :
    (cover second).Within (cover (first ++ second)) := by
  refine ⟨?_, Nat.le_of_eq (congrArg _ (stop_cover_append first hsecond).symm)⟩
  by_cases hfirst : first = []
  · rw [hfirst, List.nil_append]
  · have hnonempty := (h.sublist (List.sublist_append_left _ _)).nonempty_cover hfirst
    rw [start_cover_append hfirst]
    exact Nat.le_trans (Nat.le_of_lt hnonempty) (h.before hfirst hsecond)

theorem within_append_right (h : InOrder (first ++ second)) (hfirst : first ≠ []) :
    (cover first).Within (cover (first ++ second)) := by
  refine ⟨Nat.le_of_eq (congrArg _ (start_cover_append hfirst second)), ?_⟩
  by_cases hsecond : second = []
  · rw [hsecond, List.append_nil]
  · have hnonempty := (h.sublist (List.sublist_append_right _ _)).nonempty_cover hsecond
    rw [stop_cover_append first hsecond]
    exact Nat.le_trans (h.before hfirst hsecond) (Nat.le_of_lt hnonempty)

/-- Tokens that stand together span a part of what all span. -/
theorem within (h : InOrder tokens) (hpiece : piece ≠ []) (htogether : piece <:+: tokens) :
    (cover piece).Within (cover tokens) := by
  obtain ⟨first, last, rfl⟩ := htogether
  have hfirst := h.sublist (List.sublist_append_left _ _)
  have hleft := hfirst.within_append_left hpiece
  have hright := h.within_append_right (List.append_ne_nil_of_right_ne_nil first hpiece)
  exact ⟨Nat.le_trans hright.1 hleft.1, Nat.le_trans hleft.2 hright.2⟩

end InOrder

namespace Parts

variable {tokens : List Token} {nodes : List Node}

/-- Nodes that are spelled one after the other span one stretch of the tokens after the other. -/
theorem ordered (h : Parts tokens nodes) (horder : InOrder tokens) :
    nodes.Pairwise fun first second ↦ first.span.Before second.span := by
  induction h with
  | nil => exact List.Pairwise.nil
  | @cons before piece after node nodes hnode hrest ih =>
    have hbehind := horder.sublist (List.sublist_append_right before (piece ++ after))
    have hafter := hbehind.sublist (List.sublist_append_right piece after)
    refine List.pairwise_cons.mpr ⟨fun other hother ↦ ?_, ih hafter⟩
    obtain ⟨otherPiece, hspells, htogether⟩ := hrest.exists_of_mem hother
    have hne : after ≠ [] := by
      rintro rfl
      exact hspells.span_eq.1 (List.infix_nil.mp htogether)
    have hbefore := hbehind.before hnode.span_eq.1 hne
    have hwithin := hafter.within hspells.span_eq.1 htogether
    rw [hnode.span_eq.2, hspells.span_eq.2]
    exact Nat.le_trans hbefore hwithin.1

theorem nonempty (h : Parts tokens nodes) (horder : InOrder tokens) :
    ∀ node ∈ nodes, node.span.Nonempty ∧ node.span.Within (cover tokens) := by
  intro node hnode
  obtain ⟨piece, hspells, htogether⟩ := h.exists_of_mem hnode
  obtain ⟨hne, hspan⟩ := hspells.span_eq
  rw [hspan]
  exact ⟨(horder.sublist htogether.sublist).nonempty_cover hne, horder.within hne htogether⟩

end Parts

end Phrase

/-! ### Places -/

/-- The stretch of text from the start of a piece to the end of another is a piece. -/
theorem Placed.between {text first firstAfter last lastAfter : List Char}
    {firstSpan lastSpan : Span} (hsize : Text.byteSize text < UInt32.size)
    (hfirst : Placed text firstSpan first firstAfter)
    (hlast : Placed text lastSpan last lastAfter)
    (hle : firstSpan.start.offset ≤ lastSpan.stop.offset) :
    ∃ piece, Placed text ⟨firstSpan.start, lastSpan.stop⟩ piece lastAfter := by
  obtain ⟨before, htext, rfl⟩ := hfirst
  obtain ⟨lastBefore, hlastText, rfl⟩ := hlast
  rw [← List.append_assoc] at hlastText
  rw [Position.offset_behind (Text.byteSize_lt_of_append htext hsize),
    Position.offset_behind (Text.byteSize_lt_of_append hlastText hsize)] at hle
  have hcut : before <+: lastBefore ++ last := by
    rcases List.prefix_or_prefix_of_prefix ⟨_, htext.symm⟩ ⟨_, hlastText.symm⟩ with h | ⟨rest, h⟩
    · exact h
    · -- What is cut off later is as long, so it is the same.
      have hrest : rest = [] := by
        by_contra hne
        have hsize := Text.byteSize_pos hne
        rw [← h, Text.byteSize_append] at hle
        omega
      exact ⟨[], by rw [← h, hrest, List.append_nil, List.append_nil]⟩
  obtain ⟨piece, hpiece⟩ := hcut
  refine ⟨piece, before, ?_, ?_⟩
  · rw [hlastText, ← hpiece, List.append_assoc]
  · rw [hpiece]

theorem Phrase.InOrder.placed {text : List Char} {tokens : List Token}
    (hsize : Text.byteSize text < UInt32.size) (h : InOrder tokens) (htokens : tokens ≠ [])
    (hplaced : ∀ token ∈ tokens, ∃ piece after, Placed text token.span piece after) :
    ∃ piece after, Placed text (cover tokens) piece after := by
  obtain ⟨first, last, hfirst, hlast, hcover⟩ := exists_cover htokens
  obtain ⟨firstPiece, firstAfter, hfirstPlaced⟩ := hplaced first (List.mem_of_head? hfirst)
  obtain ⟨lastPiece, lastAfter, hlastPlaced⟩ := hplaced last (List.mem_of_getLast? hlast)
  have hnonempty := h.nonempty_cover htokens
  rw [hcover] at hnonempty
  obtain ⟨piece, hpiece⟩ := hfirstPlaced.between hsize hlastPlaced (Nat.le_of_lt hnonempty)
  rw [hcover]
  exact ⟨piece, lastAfter, hpiece⟩

/-! ### Trees of sources -/

/-- A span of the source: between characters, in order, and so with a text. -/
structure Span.Reads (source : Source) (span : Span) : Prop where
  ordered : span.start.offset ≤ span.stop.offset
  start : source.position? span.start.offset = some span.start
  stop : source.position? span.stop.offset = some span.stop
  text : source.slice? span.start.offset span.stop.offset = some (source.read span)

theorem Placed.start_le_stop {text piece after : List Char} {span : Span}
    (hsize : Text.byteSize text < UInt32.size) (h : Placed text span piece after) :
    span.start.offset ≤ span.stop.offset ∧ span.stop.offset ≤ Text.byteSize text := by
  obtain ⟨before, htext, rfl⟩ := h
  rw [← List.append_assoc] at htext
  have hstop := Text.byteSize_lt_of_append htext hsize
  have hstart := Text.byteSize_lt_of_append rfl hstop
  rw [Position.offset_behind hstart, Position.offset_behind hstop, htext]
  simp only [Text.byteSize_append]
  omega

theorem Placed.reads {source : Source} {span : Span} {piece after : List Char}
    (hsize : source.size < UInt32.size) (h : Placed source.chars span piece after) :
    span.Reads source := by
  obtain ⟨hstart, hstop, hslice⟩ := Source.slice?_of_placed hsize h
  refine ⟨(h.start_le_stop hsize).1, hstart, hstop, ?_⟩
  rw [h.read_eq hsize, hslice]

/-- A piece of a text lies inside of it. -/
theorem Placed.within {text piece after : List Char} {span : Span}
    (hsize : Text.byteSize text < UInt32.size) (h : Placed text span piece after) :
    span.Within ⟨.start, .behind text⟩ := by
  refine ⟨Nat.zero_le _, ?_⟩
  rw [Position.offset_behind hsize]
  exact (h.start_le_stop hsize).2

/-- The span of a node: one of the source, with those of the children in it one after the other. -/
structure Node.WellSpanned (source : Source) (node : Node) : Prop where
  reads : node.span.Reads source
  nested : ∀ child ∈ node.children, child.span.Nonempty ∧ child.span.Within node.span
  ordered : node.children.Pairwise fun first second ↦ first.span.Before second.span

/-- The spans of a tree, with the tokens of its source. -/
structure Node.Spanned (source : Source) (stream : TokenStream) (tree : Node) : Prop where
  /-- The root spans the whole text. -/
  root : tree.span = ⟨.start, source.position source.size⟩
  /-- Every other node spans the tokens that spell it, which stand together, and its children are
  spelled by pieces of these. -/
  spelled : ∀ node ∈ tree.children.flatMap nodes, ∃ tokens first last,
    tokens <:+: stream.tokens ∧ Phrase.Spells tokens node ∧ Phrase.Parts tokens node.children ∧
      tokens.head? = some first ∧ tokens.getLast? = some last ∧
      node.span = ⟨first.span.start, last.span.stop⟩
  nested : ∀ node ∈ tree.nodes, node.WellSpanned source
  /-- The leaves in preorder are some of the tokens, in their order. -/
  leaves : Phrase.LeavesAmong stream.tokens tree.leaves
  /-- No token is two leaves. -/
  ordered : tree.leaves.Pairwise fun first second ↦
    first.span.Before second.span ∧ first.span ≠ second.span

namespace Phrase

variable {source : Source} {stream : TokenStream}

theorem InOrder.leaves {tokens : List Token} {leaves : List Node} (h : InOrder tokens)
    (hleaves : LeavesAmong tokens leaves) :
    leaves.Pairwise fun first second ↦
      first.span.Before second.span ∧ first.span ≠ second.span := by
  obtain ⟨picked, hpicked, hspans⟩ := hleaves
  have hpickedOrder := h.sublist hpicked
  have hordered : (picked.map Token.span).Pairwise fun first second ↦
      first.Before second ∧ first ≠ second := by
    refine List.pairwise_map.mpr (hpickedOrder.ordered.imp_of_mem ?_)
    intro first second hfirst _ hbefore
    refine ⟨hbefore, fun heq ↦ ?_⟩
    rw [← heq] at hbefore
    exact Nat.not_le_of_lt (hpickedOrder.nonempty first hfirst) hbefore
  rw [← hspans] at hordered
  exact List.pairwise_map.mp hordered

theorem inOrder_of_tiles (h : stream.Tiles source) : InOrder stream.tokens :=
  ⟨fun token htoken ↦ (h.nonempty token htoken).2,
    h.ordered.sublist (List.sublist_append_left _ _)⟩

namespace Spells

variable {tokens : List Token} {node : Node}

/-- What tokens of a source spell is a piece of its text. -/
theorem placed (h : Spells tokens node) (htogether : tokens <:+: stream.tokens)
    (hsize : source.size < UInt32.size) (htiles : stream.Tiles source) :
    ∃ piece after, Placed source.chars node.span piece after := by
  have horder := (inOrder_of_tiles htiles).sublist htogether.sublist
  obtain ⟨hne, hspan⟩ := h.span_eq
  rw [hspan]
  refine horder.placed hsize hne fun token htoken ↦ ?_
  obtain ⟨piece, after, hpiece, -⟩ := htiles.spelled token (htogether.subset htoken)
  exact ⟨piece, after, hpiece⟩

theorem wellSpanned (h : Spells tokens node) (htogether : tokens <:+: stream.tokens)
    (hsize : source.size < UInt32.size) (htiles : stream.Tiles source) :
    node.WellSpanned source := by
  have horder := (inOrder_of_tiles htiles).sublist htogether.sublist
  obtain ⟨piece, after, hplaced⟩ := h.placed htogether hsize htiles
  refine ⟨hplaced.reads hsize, ?_, h.parts.ordered horder⟩
  rw [h.span_eq.2]
  exact h.parts.nonempty horder

end Spells

namespace Program

variable {tree : Node}

theorem span_eq (h : Program stream tree) (htiling : TokenStream.Tiling [] source.chars stream) :
    tree.span = ⟨.start, .behind source.chars⟩ := by
  cases h with
  | statements =>
    rw [htiling.eof_eq]
    rfl

theorem parts (h : Program stream tree) : Parts stream.tokens tree.children := by
  cases h with
  | statements hstatements => exact .of_statements hstatements

/-- Every node but the root is spelled by tokens that stand together. -/
theorem exists_of_mem (h : Program stream tree) {node : Node}
    (hnode : node ∈ tree.children.flatMap Node.nodes) :
    ∃ tokens, Spells tokens node ∧ tokens <:+: stream.tokens := by
  obtain ⟨child, hchild, hmem⟩ := List.mem_flatMap.mp hnode
  obtain ⟨piece, hpiece, htogether⟩ := h.parts.exists_of_mem hchild
  obtain ⟨tokens, htokens, hinside⟩ := hpiece.exists_of_mem_nodes hmem
  exact ⟨tokens, htokens, hinside.trans htogether⟩

theorem leavesAmong (h : Program stream tree) : LeavesAmong stream.tokens tree.leaves := by
  have hleaves := h.parts.leavesAmong fun _ _ _ ↦ Spells.leavesAmong
  rw [Node.leaves_eq]
  cases h with
  | statements => exact hleaves

/-- The root lies over the whole text, with room for what its tokens do not fill. -/
theorem wellSpanned (h : Program stream tree) (hsize : source.size < UInt32.size)
    (htiling : TokenStream.Tiling [] source.chars stream) : tree.WellSpanned source := by
  have htiles := htiling.tiles hsize
  have horder := inOrder_of_tiles htiles
  have hplaced : Placed source.chars tree.span source.chars [] :=
    ⟨[], (List.append_nil _).symm, h.span_eq htiling⟩
  refine ⟨hplaced.reads hsize, fun child hchild ↦ ?_, h.parts.ordered horder⟩
  obtain ⟨tokens, htokens, htogether⟩ := h.parts.exists_of_mem hchild
  obtain ⟨piece, after, hpiece⟩ := htokens.placed htogether hsize htiles
  rw [h.span_eq htiling]
  exact ⟨(h.parts.nonempty horder child hchild).1, hpiece.within hsize⟩

end Program

end Phrase

/-- The tree of a source is what its tokens spell. -/
theorem Source.tree_eq_ok_iff {source : Source} {tree : Node} :
    source.tree = .ok tree ↔
      ∃ stream, TokenStream.ofSource source = .ok stream ∧ Phrase.Program stream tree := by
  constructor
  · intro h
    obtain ⟨stream, hstream, htree⟩ := exists_of_bind_eq_ok h
    exact ⟨stream, hstream, (Node.ofTokens_eq_ok_iff stream tree).mp htree⟩
  · rintro ⟨stream, hstream, hprogram⟩
    unfold Source.tree
    rw [hstream]
    exact (Node.ofTokens_eq_ok_iff stream tree).mpr hprogram

/-- Every tree that a source whose size fits in a word is read as has its spans where the tokens are
that it was read from, the spans of children in those of their parents, and its leaves in the order
of the text. -/
theorem tree_spanned {source : Source} {tree : Node} (hsize : source.size < UInt32.size)
    (h : source.tree = .ok tree) :
    ∃ stream, TokenStream.ofSource source = .ok stream ∧ tree.Spanned source stream := by
  obtain ⟨stream, hstream, hprogram⟩ := Source.tree_eq_ok_iff.mp h
  have htiling := TokenStream.tiling_of_ofSource hstream
  have htiles := TokenStream.tiles_of_ofSource hsize hstream
  refine ⟨stream, hstream, ?_, ?_, ?_, hprogram.leavesAmong,
    (Phrase.inOrder_of_tiles htiles).leaves hprogram.leavesAmong⟩
  · rw [source.position_size]
    exact hprogram.span_eq htiling
  · intro node hnode
    obtain ⟨tokens, htokens, htogether⟩ := hprogram.exists_of_mem hnode
    obtain ⟨hne, hspan⟩ := htokens.span_eq
    obtain ⟨first, last, hfirst, hlast, hcover⟩ := Phrase.exists_cover hne
    exact ⟨tokens, first, last, htogether, htokens, htokens.parts, hfirst, hlast,
      hspan.trans hcover⟩
  · intro node hnode
    rw [Node.nodes_eq] at hnode
    rcases List.mem_cons.mp hnode with rfl | hbelow
    · exact hprogram.wellSpanned hsize htiling
    · obtain ⟨tokens, htokens, htogether⟩ := hprogram.exists_of_mem hbelow
      exact htokens.wellSpanned htogether hsize htiles

/-- The theorem at a text with blanks around it and a keyword argument in it. -/
theorem tree_spanned_keyword :
    ∃ source, source = Source.ofText "" "\n f(\"é\", b = (2)) // é" ∧
      source.size < UInt32.size ∧ ∃ tree, source.tree = .ok tree ∧
        ∃ stream, TokenStream.ofSource source = .ok stream ∧ tree.Spanned source stream := by
  have hsize : (Source.ofText "" "\n f(\"é\", b = (2)) // é").size < UInt32.size := by
    decide +kernel
  obtain ⟨tree, htree⟩ : ∃ tree,
      (Source.ofText "" "\n f(\"é\", b = (2)) // é").tree = .ok tree :=
    exists_of_isOk (by decide +kernel)
  exact ⟨_, rfl, hsize, tree, htree, tree_spanned hsize htree⟩

end Presage
