import Mathlib.Data.List.Basic
import Presage.Proofs.Spans
import Presage.Proofs.TreeShapes

/-!
Outlines of trees. A `Shape` is a tree without its spans: the nodes with their children in their
roles, and the texts of the leaves. The outline of a tree says no more than its shape, and for the
trees that sources are read as it says no less (`outline_determines_tree`).

An outline is read back in three steps. A line is told from what follows it, though a string goes
over ends of lines and may look like other lines: spaces end at a word, a word at a space or the end
of the line, and behind the kind of strings the text goes to the next quote
(`OutlineEntry.line_append_inj`). So the text of an outline gives its entries. The entries give
the children of a node, which are one deeper than the node, up to the first entry that is no deeper
(`Node.Apart.recovered`). And the kind of a node gives the roles of its children: where their number
does not fix them, in a function, the parameters are the children of that kind
(`Shape.ofLayer?_layer`).

That lines can be read and parameters told from statements is read off the grammar and the texts of
tokens (`Source.listed_of_tree`).
-/

set_option autoImplicit false
set_option relaxedAutoImplicit false

namespace Presage

/-! ### Shapes -/

/-- A tree without its spans: the nodes with their children in their roles, and the texts of the
leaves. -/
inductive Shape where
  | program (statements : List Shape)
  | functionDefinition (name : Shape) (parameters body : List Shape)
  | predictiveLoop (iterator low high pattern : Shape) (body : List Shape)
  | comparisonStatement (left right : Shape)
  | printStatement (expression : Shape)
  | returnStatement (expression : Shape)
  | yieldStatement (expression : Shape)
  | variableDeclaration (name initializer : Shape)
  | variableReassignment (name value : Shape)
  | parameter (name : Shape) (default? : Option Shape)
  | keywordArgument (name value : Shape)
  | call (callee : Shape) (arguments : List Shape)
  | binary (left operator right : Shape)
  | parenthesized (expression : Shape)
  | leaf (kind : LeafKind) (text : String)

namespace Node

mutual

/-- The shape of a tree over a source. -/
def shape (source : Source) : Node → Shape
  | program _ statements => .program (shapes source statements)
  | functionDefinition _ name parameters body =>
    .functionDefinition (shape source name) (shapes source parameters) (shapes source body)
  | predictiveLoop _ iterator low high pattern body =>
    .predictiveLoop (shape source iterator) (shape source low) (shape source high)
      (shape source pattern) (shapes source body)
  | comparisonStatement _ left right =>
    .comparisonStatement (shape source left) (shape source right)
  | printStatement _ expression => .printStatement (shape source expression)
  | returnStatement _ expression => .returnStatement (shape source expression)
  | yieldStatement _ expression => .yieldStatement (shape source expression)
  | variableDeclaration _ name initializer =>
    .variableDeclaration (shape source name) (shape source initializer)
  | variableReassignment _ name value =>
    .variableReassignment (shape source name) (shape source value)
  | parameter _ name none => .parameter (shape source name) none
  | parameter _ name (some default) =>
    .parameter (shape source name) (some (shape source default))
  | keywordArgument _ name value => .keywordArgument (shape source name) (shape source value)
  | call _ callee arguments => .call (shape source callee) (shapes source arguments)
  | binary _ left operator right =>
    .binary (shape source left) (shape source operator) (shape source right)
  | parenthesized _ expression => .parenthesized (shape source expression)
  | leaf kind span => .leaf kind (source.read span)

def shapes (source : Source) : List Node → List Shape
  | [] => []
  | node :: rest => shape source node :: shapes source rest

end

theorem shapes_eq_map (source : Source) (nodes : List Node) :
    shapes source nodes = nodes.map (shape source) := by
  induction nodes with
  | nil => rw [shapes, List.map_nil]
  | cons node rest ih => rw [shapes, ih, List.map_cons]

/-- The text of a leaf. -/
def leafText? (source : Source) : Node → Option String
  | leaf _ span => some (source.read span)
  | _ => none

end Node

/-- A node with the shapes below it: the name of its kind, its text if it is a leaf, and its
children without their roles. -/
structure Shape.Layer where
  kind : String
  text? : Option String
  children : List Shape

namespace Shape

def isParameter : Shape → Bool
  | parameter _ _ => true
  | _ => false

def layer : Shape → Layer
  | program statements => ⟨"Program", none, statements⟩
  | functionDefinition name parameters body =>
    ⟨"FunctionDefinition", none, name :: (parameters ++ body)⟩
  | predictiveLoop iterator low high pattern body =>
    ⟨"PredictiveLoop", none, iterator :: low :: high :: pattern :: body⟩
  | comparisonStatement left right => ⟨"ComparisonStatement", none, [left, right]⟩
  | printStatement expression => ⟨"PrintStatement", none, [expression]⟩
  | returnStatement expression => ⟨"ReturnStatement", none, [expression]⟩
  | yieldStatement expression => ⟨"YieldStatement", none, [expression]⟩
  | variableDeclaration name initializer => ⟨"VariableDeclaration", none, [name, initializer]⟩
  | variableReassignment name value => ⟨"VariableReassignment", none, [name, value]⟩
  | parameter name default? => ⟨"Parameter", none, name :: default?.toList⟩
  | keywordArgument name value => ⟨"KeywordArgument", none, [name, value]⟩
  | call callee arguments => ⟨"Call", none, callee :: arguments⟩
  | binary left operator right => ⟨"Binary", none, [left, operator, right]⟩
  | parenthesized expression => ⟨"Parenthesized", none, [expression]⟩
  | leaf kind text => ⟨kind.name, some text, []⟩

/-- Puts the children of a layer in their roles. In a function, the parameters come first. -/
def ofLayer? : Layer → Option Shape
  | ⟨"Number", some text, []⟩ => some (leaf .number text)
  | ⟨"String", some text, []⟩ => some (leaf .string text)
  | ⟨"True", some text, []⟩ => some (leaf .truth text)
  | ⟨"False", some text, []⟩ => some (leaf .falsity text)
  | ⟨"Identifier", some text, []⟩ => some (leaf .identifier text)
  | ⟨"Operator", some text, []⟩ => some (leaf .operator text)
  | ⟨"Program", none, statements⟩ => some (program statements)
  | ⟨"FunctionDefinition", none, name :: rest⟩ =>
    some (functionDefinition name (rest.takeWhile isParameter) (rest.dropWhile isParameter))
  | ⟨"PredictiveLoop", none, iterator :: low :: high :: pattern :: body⟩ =>
    some (predictiveLoop iterator low high pattern body)
  | ⟨"ComparisonStatement", none, [left, right]⟩ => some (comparisonStatement left right)
  | ⟨"PrintStatement", none, [expression]⟩ => some (printStatement expression)
  | ⟨"ReturnStatement", none, [expression]⟩ => some (returnStatement expression)
  | ⟨"YieldStatement", none, [expression]⟩ => some (yieldStatement expression)
  | ⟨"VariableDeclaration", none, [name, initializer]⟩ =>
    some (variableDeclaration name initializer)
  | ⟨"VariableReassignment", none, [name, value]⟩ => some (variableReassignment name value)
  | ⟨"Parameter", none, [name]⟩ => some (parameter name none)
  | ⟨"Parameter", none, [name, default]⟩ => some (parameter name (some default))
  | ⟨"KeywordArgument", none, [name, value]⟩ => some (keywordArgument name value)
  | ⟨"Call", none, callee :: arguments⟩ => some (call callee arguments)
  | ⟨"Binary", none, [left, operator, right]⟩ => some (binary left operator right)
  | ⟨"Parenthesized", none, [expression]⟩ => some (parenthesized expression)
  | _ => none

/-- In a function, the parameters are parameters, and no statement of the body is one. -/
def RolesApart : Shape → Prop
  | functionDefinition _ parameters body =>
    (∀ shape ∈ parameters, shape.isParameter = true) ∧ ∀ shape ∈ body, shape.isParameter = false
  | _ => True

theorem takeWhile_append_of_apart {parameters body : List Shape}
    (hparameters : ∀ shape ∈ parameters, shape.isParameter = true)
    (hbody : ∀ shape ∈ body, shape.isParameter = false) :
    (parameters ++ body).takeWhile isParameter = parameters ∧
      (parameters ++ body).dropWhile isParameter = body := by
  rw [List.takeWhile_append_of_pos hparameters, List.dropWhile_append_of_pos hparameters]
  cases body with
  | nil => exact ⟨List.append_nil _, rfl⟩
  | cons first rest =>
    have hfirst := Bool.eq_false_iff.mp (hbody first List.mem_cons_self)
    rw [List.takeWhile_cons_of_neg hfirst, List.dropWhile_cons_of_neg hfirst, List.append_nil]
    exact ⟨rfl, rfl⟩

theorem ofLayer?_layer {shape : Shape} (h : shape.RolesApart) :
    ofLayer? shape.layer = some shape := by
  cases shape with
  | functionDefinition name parameters body =>
    obtain ⟨htake, hdrop⟩ := takeWhile_append_of_apart h.1 h.2
    show some (functionDefinition name _ _) = _
    rw [htake, hdrop]
  | leaf kind text => cases kind <;> rfl
  | parameter name default? => cases default? <;> rfl
  | _ => rfl

/-- A layer has one shape. -/
theorem layer_injective {first second : Shape} (hfirst : first.RolesApart)
    (hsecond : second.RolesApart) (h : first.layer = second.layer) : first = second := by
  have hshapes := congrArg ofLayer? h
  rw [ofLayer?_layer hfirst, ofLayer?_layer hsecond] at hshapes
  exact Option.some.inj hshapes

end Shape

/-- The layer of a shape is the node with its children. -/
theorem Node.layer_shape (source : Source) (node : Node) :
    (node.shape source).layer =
      ⟨node.kindName, node.leafText? source, node.children.map (shape source)⟩ := by
  cases node with
  | parameter span name default? =>
    cases default? <;> simp [shape, Shape.layer, kindName, leafText?, children]
  | _ => simp [shape, shapes_eq_map, Shape.layer, kindName, leafText?, children]

/-! ### Lines -/

/-- What one line of an outline says. -/
structure OutlineEntry where
  depth : Nat
  kind : String
  text? : Option String

namespace OutlineEntry

/-- What stands on a line behind the kind. -/
def afterKind : Option String → List Char
  | none => ['\n']
  | some text => ' ' :: (text.toList ++ ['\n'])

def line (entry : OutlineEntry) : List Char :=
  List.replicate (2 * entry.depth) ' ' ++ (entry.kind.toList ++ afterKind entry.text?)

/-- A line that can be told from what follows it: its kind is a word, and its text is on that line
or, after the kind of strings, between quotes. -/
structure Readable (entry : OutlineEntry) : Prop where
  nonempty : entry.kind.toList ≠ []
  word : ∀ c ∈ entry.kind.toList, Lexeme.isWordStart c = true
  quoted : entry.kind = "String" → ∀ text ∈ entry.text?,
    ∃ inside, '\"' ∉ inside ∧ text.toList = '\"' :: (inside ++ ['\"'])
  oneLine : entry.kind ≠ "String" → ∀ text ∈ entry.text?, '\n' ∉ text.toList

end OutlineEntry

/-- A piece of a class of characters before one outside of the class is cut off in one way. -/
theorem Lexeme.append_inj_of_class {class? : Char → Bool} {piece after other otherAfter : List Char}
    (hpiece : ∀ c ∈ piece, class? c = true) (hafter : ∀ c ∈ after.head?, class? c = false)
    (hother : ∀ c ∈ other, class? c = true) (hotherAfter : ∀ c ∈ otherAfter.head?, class? c = false)
    (h : piece ++ after = other ++ otherAfter) : piece = other ∧ after = otherAfter := by
  have hrun := congrArg (run class? fun _ ↦ none) h
  rw [run_append hpiece hafter, run_append hother hotherAfter] at hrun
  injection hrun with _ hpieces hafters
  exact ⟨hpieces, hafters⟩

/-- A piece before a character that is not in it is cut off in one way. -/
theorem Lexeme.append_inj_of_not_mem {c : Char} {piece after other otherAfter : List Char}
    (hpiece : c ∉ piece) (hother : c ∉ other) (h : piece ++ c :: after = other ++ c :: otherAfter) :
    piece = other ∧ after = otherAfter := by
  have hend : ∀ text : List Char, ∀ d ∈ (c :: text).head?, (d != c) = false := by
    intro text d hd
    cases hd
    exact bne_self_eq_false c
  obtain ⟨hpieces, hafters⟩ := append_inj_of_class (bne_of_not_mem hpiece) (hend after)
    (bne_of_not_mem hother) (hend otherAfter) h
  exact ⟨hpieces, (List.cons.inj hafters).2⟩

namespace OutlineEntry

variable {first second entry : OutlineEntry} {rest others : List Char}

theorem Readable.of_text?_eq_none (hnonempty : entry.kind.toList ≠ [])
    (hword : ∀ c ∈ entry.kind.toList, Lexeme.isWordStart c = true) (htext : entry.text? = none) :
    entry.Readable := by
  refine ⟨hnonempty, hword, ?_, ?_⟩ <;> simp [htext]

theorem head?_afterKind (text? : Option String) (rest : List Char) :
    ∀ c ∈ (afterKind text? ++ rest).head?, Lexeme.isWordStart c = false := by
  intro c hc
  cases text? <;> cases hc <;> decide

theorem head?_kind (h : entry.Readable) (rest : List Char) :
    ∀ c ∈ (entry.kind.toList ++ (afterKind entry.text? ++ rest)).head?, (c == ' ') = false := by
  intro c hc
  obtain ⟨first, others, hkind⟩ := List.exists_cons_of_ne_nil h.nonempty
  have hfirst := h.word first (hkind ▸ List.mem_cons_self)
  rw [hkind] at hc
  cases hc
  refine beq_false_of_ne ?_
  rintro rfl
  exact absurd hfirst (by decide)

/-- The text of a leaf ends where it does whatever follows, as the kinds of both are the same. -/
theorem afterKind_append_inj (hfirst : first.Readable) (hsecond : second.Readable)
    (hkind : first.kind = second.kind)
    (h : afterKind first.text? ++ rest = afterKind second.text? ++ others) :
    first.text? = second.text? ∧ rest = others := by
  obtain ⟨depth, kind, text?⟩ := first
  obtain ⟨otherDepth, otherKind, otherText?⟩ := second
  subst hkind
  cases text? with
  | none =>
    cases otherText? with
    | none => exact ⟨rfl, (List.cons.inj h).2⟩
    | some otherText => exact absurd (List.cons.inj h).1 (by decide)
  | some text =>
    cases otherText? with
    | none => exact absurd (List.cons.inj h).1 (by decide)
    | some otherText =>
      have htexts : text.toList ++ '\n' :: rest = otherText.toList ++ '\n' :: others := by
        simpa [afterKind] using h
      suffices htext : text.toList = otherText.toList ∧ rest = others from
        ⟨congrArg some (String.toList_inj.mp htext.1), htext.2⟩
      by_cases hstring : kind = "String"
      · -- A string goes to the next quote, also over ends of lines.
        obtain ⟨inside, hinside, htext⟩ := hfirst.quoted hstring text rfl
        obtain ⟨otherInside, hotherInside, hotherText⟩ := hsecond.quoted hstring otherText rfl
        rw [htext, hotherText] at htexts ⊢
        simp only [List.cons_append, List.append_assoc, List.nil_append, List.cons.injEq,
          true_and] at htexts
        obtain ⟨rfl, hrest⟩ := Lexeme.append_inj_of_not_mem hinside hotherInside htexts
        exact ⟨rfl, (List.cons.inj hrest).2⟩
      · exact Lexeme.append_inj_of_not_mem (hfirst.oneLine hstring text rfl)
          (hsecond.oneLine hstring otherText rfl) htexts

/-- A readable line at the head of a text can be read in one way. -/
theorem line_append_inj (hfirst : first.Readable) (hsecond : second.Readable)
    (h : first.line ++ rest = second.line ++ others) : first = second ∧ rest = others := by
  have hspaces : ∀ count : Nat, ∀ c ∈ List.replicate count ' ', (c == ' ') = true := by
    intro count c hc
    rw [List.eq_of_mem_replicate hc]
    rfl
  simp only [line, List.append_assoc] at h
  obtain ⟨hindent, hline⟩ := Lexeme.append_inj_of_class (hspaces _) (head?_kind hfirst rest)
    (hspaces _) (head?_kind hsecond others) h
  obtain ⟨hkind, htail⟩ := Lexeme.append_inj_of_class hfirst.word (head?_afterKind _ rest)
    hsecond.word (head?_afterKind _ others) hline
  have hkinds := String.toList_inj.mp hkind
  obtain ⟨htext, hrest⟩ := afterKind_append_inj hfirst hsecond hkinds htail
  have hlength := congrArg List.length hindent
  rw [List.length_replicate, List.length_replicate] at hlength
  have hdepth : first.depth = second.depth := by omega
  refine ⟨?_, hrest⟩
  obtain ⟨depth, kind, text?⟩ := first
  cases hdepth
  cases hkinds
  cases htext
  rfl

theorem line_ne_nil (entry : OutlineEntry) : entry.line ≠ [] := by
  cases h : entry.text? <;> simp [line, afterKind, h]

/-- The lines of a text can be read in one way. -/
theorem eq_of_flatMap_line {entries otherEntries : List OutlineEntry}
    (hentries : ∀ entry ∈ entries, entry.Readable)
    (hothers : ∀ entry ∈ otherEntries, entry.Readable)
    (h : entries.flatMap line = otherEntries.flatMap line) : entries = otherEntries := by
  induction entries generalizing otherEntries with
  | nil =>
    cases otherEntries with
    | nil => rfl
    | cons second otherRest => simp [line_ne_nil] at h
  | cons first rest ih =>
    cases otherEntries with
    | nil => simp [line_ne_nil] at h
    | cons second otherRest =>
      obtain ⟨hfirst, hrest⟩ := List.forall_mem_cons.mp hentries
      obtain ⟨hsecond, hotherRest⟩ := List.forall_mem_cons.mp hothers
      rw [List.flatMap_cons, List.flatMap_cons] at h
      obtain ⟨rfl, hlines⟩ := line_append_inj hfirst hsecond h
      rw [ih hrest hotherRest hlines]

end OutlineEntry

/-! ### Entries of a tree -/

namespace Node

variable {source otherSource : Source}

def entry (source : Source) (depth : Nat) (node : Node) : OutlineEntry :=
  ⟨depth, node.kindName, node.leafText? source⟩

/-- What the lines of an outline say, from a given depth on. -/
def entries (source : Source) (depth : Nat) (node : Node) : List OutlineEntry :=
  (node.preorder depth).map fun place ↦ place.2.entry source place.1

theorem entries_eq (source : Source) (depth : Nat) (node : Node) :
    node.entries source depth =
      node.entry source depth :: node.children.flatMap (entries source (depth + 1)) := by
  rw [entries, preorder_eq, List.map_cons, List.map_flatMap]
  rfl

theorem toList_outlineLine (source : Source) (depth : Nat) (node : Node) :
    (node.outlineLine source depth).toList = (node.entry source depth).line := by
  cases node <;>
    simp [outlineLine, entry, OutlineEntry.line, OutlineEntry.afterKind, kindName, leafText?]

theorem toList_outline (source : Source) (node : Node) :
    (node.outline source).toList = (node.entries source 0).flatMap OutlineEntry.line := by
  unfold outline entries
  generalize node.preorder 0 = places
  induction places with
  | nil => simp
  | cons place rest ih =>
    rw [List.map_cons, String.join_cons, String.toList_append, ih, toList_outlineLine]
    rfl

/-! ### From entries to shapes -/

/-- The first of the entries is at most this deep. -/
def StartsWithin (depth : Nat) (entries : List OutlineEntry) : Prop :=
  ∀ entry ∈ entries.head?, entry.depth ≤ depth

theorem startsWithin_siblings (nodes : List Node) {depth : Nat} {rest : List OutlineEntry}
    (hrest : StartsWithin depth rest) :
    StartsWithin (depth + 1) (nodes.flatMap (entries source (depth + 1)) ++ rest) := by
  cases nodes with
  | nil => exact fun entry hentry ↦ Nat.le_succ_of_le (hrest entry hentry)
  | cons node others =>
    intro entry hentry
    rw [List.flatMap_cons, entries_eq] at hentry
    cases hentry
    exact Nat.le_refl _

/-- Nothing that starts within a depth starts with a node below it. -/
theorem not_startsWithin_cons (node : Node) (nodes : List Node) (depth : Nat)
    (rest : List OutlineEntry) :
    ¬ StartsWithin depth ((node :: nodes).flatMap (entries source (depth + 1)) ++ rest) := by
  intro h
  rw [List.flatMap_cons, entries_eq] at h
  exact Nat.not_succ_le_self depth (h (node.entry source (depth + 1)) rfl)

/-- The parameters of every function in the tree can be told from its body. -/
def Apart (source : Source) (node : Node) : Prop :=
  ∀ inner ∈ node.nodes, (inner.shape source).RolesApart

/-- The entries of the node give its shape back, whatever follows that is no deeper. -/
def Recovered (source : Source) (node : Node) : Prop :=
  ∀ {otherSource : Source} {other : Node} {depth : Nat} {rest otherRest : List OutlineEntry},
    other.Apart otherSource → StartsWithin depth rest → StartsWithin depth otherRest →
    node.entries source depth ++ rest = other.entries otherSource depth ++ otherRest →
    node.shape source = other.shape otherSource ∧ rest = otherRest

theorem shapes_eq_of_siblings {nodes others : List Node} {depth : Nat}
    {rest otherRest : List OutlineEntry} (hnodes : ∀ node ∈ nodes, node.Recovered source)
    (hothers : ∀ node ∈ others, node.Apart otherSource) (hrest : StartsWithin depth rest)
    (hotherRest : StartsWithin depth otherRest)
    (h : nodes.flatMap (entries source (depth + 1)) ++ rest =
      others.flatMap (entries otherSource (depth + 1)) ++ otherRest) :
    nodes.map (shape source) = others.map (shape otherSource) ∧ rest = otherRest := by
  induction nodes generalizing others with
  | nil =>
    cases others with
    | nil => exact ⟨rfl, h⟩
    | cons other otherNodes =>
      rw [List.flatMap_nil, List.nil_append] at h
      rw [h] at hrest
      exact absurd hrest (not_startsWithin_cons other otherNodes depth otherRest)
  | cons node nodes ih =>
    cases others with
    | nil =>
      rw [List.flatMap_nil, List.nil_append] at h
      rw [← h] at hotherRest
      exact absurd hotherRest (not_startsWithin_cons node nodes depth rest)
    | cons other otherNodes =>
      obtain ⟨hnode, hnodes⟩ := List.forall_mem_cons.mp hnodes
      obtain ⟨hother, hothers⟩ := List.forall_mem_cons.mp hothers
      rw [List.flatMap_cons, List.flatMap_cons, List.append_assoc, List.append_assoc] at h
      obtain ⟨hshape, hsiblings⟩ := hnode hother (startsWithin_siblings nodes hrest)
        (startsWithin_siblings otherNodes hotherRest) h
      obtain ⟨hshapes, hrests⟩ := ih hnodes hothers hsiblings
      exact ⟨by rw [List.map_cons, List.map_cons, hshape, hshapes], hrests⟩

theorem Apart.child {node child : Node} (h : node.Apart source) (hchild : child ∈ node.children) :
    child.Apart source :=
  fun inner hinner ↦ h inner (mem_nodes_of_mem_children hchild hinner)

/-- The children of a node are the entries behind its own that are deeper, so they are read before
what follows the node. -/
theorem Apart.recovered {node : Node} (h : node.Apart source) : node.Recovered source := by
  induction node using children_induction with
  | step node ih =>
    intro otherSource other depth rest otherRest hother hrest hotherRest hentries
    rw [entries_eq, entries_eq, List.cons_append, List.cons_append] at hentries
    obtain ⟨hentry, hbelow⟩ := List.cons.inj hentries
    injection hentry with _ hkind htext
    obtain ⟨hchildren, hrests⟩ := shapes_eq_of_siblings
      (fun child hchild ↦ ih child hchild (h.child hchild)) (fun child ↦ hother.child) hrest
      hotherRest hbelow
    refine ⟨Shape.layer_injective (h node node.mem_nodes_self) (hother other other.mem_nodes_self)
      ?_, hrests⟩
    rw [layer_shape, layer_shape, hkind, htext, hchildren]

theorem flatMap_entries_eq_of_shapes {nodes others : List Node} {depth : Nat}
    (hnodes : ∀ node ∈ nodes, ∀ other : Node, node.shape source = other.shape otherSource →
      node.entries source depth = other.entries otherSource depth)
    (h : nodes.map (shape source) = others.map (shape otherSource)) :
    nodes.flatMap (entries source depth) = others.flatMap (entries otherSource depth) := by
  induction nodes generalizing others with
  | nil => rw [List.map_eq_nil_iff.mp h.symm, List.flatMap_nil, List.flatMap_nil]
  | cons node nodes ih =>
    obtain ⟨other, otherNodes, rfl, hshape, hshapes⟩ := List.map_eq_cons_iff.mp h.symm
    obtain ⟨hnode, hnodes⟩ := List.forall_mem_cons.mp hnodes
    rw [List.flatMap_cons, List.flatMap_cons, hnode other hshape.symm, ih hnodes hshapes.symm]

/-- Trees of one shape have the same entries. -/
theorem entries_eq_of_shape {node other : Node}
    (h : node.shape source = other.shape otherSource) (depth : Nat) :
    node.entries source depth = other.entries otherSource depth := by
  induction node using children_induction generalizing other depth with
  | step node ih =>
    have hlayers := congrArg Shape.layer h
    rw [layer_shape, layer_shape] at hlayers
    injection hlayers with hkind htext hchildren
    rw [entries_eq, entries_eq, entry, entry, hkind, htext, flatMap_entries_eq_of_shapes
      (fun child hchild other hother ↦ ih child hchild hother (depth + 1)) hchildren]

end Node

/-! ### Trees of sources -/

/-- Only strings go over an end of a line. -/
theorem Lexeme.Spelled.newline_not_mem {after piece : List Char} {kind : TokenKind}
    (h : Lexeme.Spelled after (some kind) piece) (hkind : kind ≠ .string) : '\n' ∉ piece := by
  intro hmem
  cases h with
  | word hstart hparts =>
    rcases List.mem_cons.mp hmem with rfl | hrest
    · exact absurd hstart (by decide)
    · exact absurd (hparts _ hrest) (by decide)
  | number _ hdigits => exact absurd (hdigits _ hmem) (by decide)
  | string => exact hkind rfl
  | symbol hsymbol =>
    rw [← List.mem_singleton.mp hmem] at hsymbol
    cases hsymbol

/-- The nodes that statements are read as. -/
def Node.isStatement : Node → Bool
  | functionDefinition _ _ _ _ | predictiveLoop _ _ _ _ _ _ | comparisonStatement _ _ _
  | printStatement _ _ | returnStatement _ _ | yieldStatement _ _ | variableDeclaration _ _ _
  | variableReassignment _ _ _ | call _ _ _ => true
  | _ => false

namespace Phrase

variable {tokens : List Token}

theorem Statement.isStatement {next : Token} {node : Node} (h : Statement next tokens node) :
    node.isStatement = true := by
  cases h with
  | wordStatement hword =>
    unfold wordStatement? at hword
    split at hword
    all_goals cases hword
    all_goals rfl
  | _ => rfl

theorem Statement.isParameter_shape {next : Token} {node : Node} (h : Statement next tokens node)
    (source : Source) : (node.shape source).isParameter = false := by
  have hstatement := h.isStatement
  cases node with
  | parameter => cases hstatement
  | _ => simp only [Node.shape, Shape.isParameter]

theorem Parameter.isParameter_shape {node : Node} (h : Parameter tokens node) (source : Source) :
    (node.shape source).isParameter = true := by
  cases h <;> simp only [Node.shape, Shape.isParameter]

theorem leafKind?_eq_string {kind : TokenKind} {leaf : LeafKind} (h : leafKind? kind = some leaf) :
    leaf = .string ↔ kind = .string := by
  unfold leafKind? at h
  split at h <;> cases h <;> simp_all

/-- A leaf is a token, and a string exactly if that is one. -/
theorem Spells.of_leaf {kind : LeafKind} {span : Span} (h : Spells tokens (.leaf kind span)) :
    ∃ token : Token, tokens = [token] ∧ span = token.span ∧
      (kind = .string ↔ token.kind = .string) := by
  have hexpression {least : Nat} (hvalue : Expression least tokens (.leaf kind span)) :
      ∃ token : Token, tokens = [token] ∧ span = token.span ∧
        (kind = .string ↔ token.kind = .string) := by
    cases hvalue with
    | leaf hkind => exact ⟨_, rfl, rfl, leafKind?_eq_string hkind⟩
  cases h with
  | name hname => exact ⟨_, rfl, rfl, by simp [hname]⟩
  | @operator token _ hoperator =>
    refine ⟨token, rfl, rfl, by simp, fun hstring ↦ ?_⟩
    rw [hstring] at hoperator
    cases hoperator
  | expression hvalue => exact hexpression hvalue
  | argument hargument =>
    cases hargument with
    | positional hvalue => exact hexpression hvalue
  | parameter hparameter => cases hparameter
  | statement hstatement => cases hstatement.isStatement

theorem Spells.of_functionDefinition {span : Span} {name : Node} {parameters body : List Node}
    (h : Spells tokens (.functionDefinition span name parameters body)) :
    ∃ next parameterTokens bodyTokens, Items Parameter parameterTokens parameters ∧
      Statements next bodyTokens body := by
  cases h with
  | expression hvalue => cases hvalue
  | argument hargument =>
    cases hargument with
    | positional hvalue => cases hvalue
  | parameter hparameter => cases hparameter
  | statement hstatement =>
    generalize hnode : Node.functionDefinition span name parameters body = node at hstatement
    cases hstatement with
    | @wordStatement _ word _ _ _ hword _ =>
      unfold wordStatement? at hword
      split at hword
      all_goals cases hword
      all_goals cases hnode
    | functionDefinition _ _ _ hparameters _ _ hbody =>
      cases hnode
      exact ⟨_, _, _, hparameters, hbody⟩
    | _ => cases hnode

theorem Spells.rolesApart {node : Node} (h : Spells tokens node) (source : Source) :
    (node.shape source).RolesApart := by
  cases node with
  | functionDefinition span name parameters body =>
    obtain ⟨next, parameterTokens, bodyTokens, hparameters, hbody⟩ := h.of_functionDefinition
    rw [Node.shape, Node.shapes_eq_map, Node.shapes_eq_map]
    refine ⟨List.forall_mem_map.mpr fun node hnode ↦ ?_,
      List.forall_mem_map.mpr fun node hnode ↦ ?_⟩
    · obtain ⟨piece, hpiece, -⟩ := hparameters.exists_of_mem node hnode
      exact hpiece.isParameter_shape source
    · obtain ⟨next, piece, hpiece, -⟩ := hbody.exists_of_mem node hnode
      exact hpiece.isParameter_shape source
  | parameter span name default? => cases default? <;> simp only [Node.shape, Shape.RolesApart]
  | _ => simp only [Node.shape, Shape.RolesApart]

end Phrase

theorem Node.kindName_isWord (node : Node) :
    node.kindName.toList ≠ [] ∧ ∀ c ∈ node.kindName.toList, Lexeme.isWordStart c = true := by
  have hkind : (!node.kindName.toList.isEmpty &&
      node.kindName.toList.all Lexeme.isWordStart) = true := by
    cases node with
    | leaf kind span =>
      rw [kindName]
      cases kind <;> decide +kernel
    | _ =>
      rw [kindName]
      decide +kernel
  obtain ⟨hnonempty, hword⟩ := Bool.and_eq_true_iff.mp hkind
  exact ⟨by simpa using hnonempty, List.all_eq_true.mp hword⟩

namespace TokenStream.Tiles

variable {source : Source} {stream : TokenStream}

theorem newline_not_mem_read (h : stream.Tiles source) {token : Token}
    (htoken : token ∈ stream.tokens) (hkind : token.kind ≠ .string) :
    '\n' ∉ (source.read token.span).toList := by
  obtain ⟨piece, after, hread, hspelled⟩ := h.read_spelled htoken
  rw [hread, String.toList_ofList]
  exact hspelled.newline_not_mem hkind

theorem toList_read_string (h : stream.Tiles source) {token : Token}
    (htoken : token ∈ stream.tokens) (hkind : token.kind = .string) :
    ∃ inside, '\"' ∉ inside ∧
      (source.read token.span).toList = '\"' :: (inside ++ ['\"']) := by
  obtain ⟨hread, hinside⟩ := h.read_string htoken hkind
  refine ⟨token.value.toList, hinside, ?_⟩
  rw [hread]
  simp

/-- What the tokens of a source spell is listed on readable lines. -/
theorem readable (h : stream.Tiles source) {tokens : List Token} {node : Node}
    (hspells : Phrase.Spells tokens node) (hsubset : tokens ⊆ stream.tokens) (depth : Nat) :
    (node.entry source depth).Readable := by
  obtain ⟨hnonempty, hword⟩ := node.kindName_isWord
  cases node with
  | leaf kind span =>
    obtain ⟨token, rfl, rfl, hstring⟩ := hspells.of_leaf
    have htoken := hsubset List.mem_cons_self
    have hname : kind.name = "String" ↔ kind = .string := by cases kind <;> decide
    refine ⟨hnonempty, hword, fun hkind text htext ↦ ?_, fun hkind text htext ↦ ?_⟩
    · cases htext
      exact h.toList_read_string htoken (hstring.mp (hname.mp hkind))
    · cases htext
      have hnoString : token.kind ≠ .string := fun heq ↦ hkind (hname.mpr (hstring.mpr heq))
      exact h.newline_not_mem_read htoken hnoString
  | _ => exact .of_text?_eq_none hnonempty hword rfl

end TokenStream.Tiles

theorem Node.mem_entries {source : Source} {node : Node} {depth : Nat} {entry : OutlineEntry}
    (h : entry ∈ node.entries source depth) :
    ∃ inner ∈ node.nodes, ∃ innerDepth, entry = inner.entry source innerDepth := by
  obtain ⟨place, hplace, rfl⟩ := List.mem_map.mp h
  rw [← map_snd_preorder node depth]
  exact ⟨place.2, List.mem_map_of_mem hplace, place.1, rfl⟩

/-- In the tree of a source, parameters and bodies can be told apart, and its lines can be read. -/
theorem Source.listed_of_tree {source : Source} {tree : Node} (hsize : source.size < UInt32.size)
    (h : source.tree = .ok tree) :
    tree.Apart source ∧ ∀ entry ∈ tree.entries source 0, entry.Readable := by
  obtain ⟨stream, hstream, hprogram⟩ := Source.tree_eq_ok_iff.mp h
  have htiles := TokenStream.tiles_of_ofSource hsize hstream
  have hnode : ∀ node ∈ tree.nodes, (node.shape source).RolesApart ∧
      ∀ depth, (node.entry source depth).Readable := by
    intro node hnode
    rw [Node.nodes_eq] at hnode
    rcases List.mem_cons.mp hnode with rfl | hbelow
    · obtain ⟨hnonempty, hword⟩ := node.kindName_isWord
      cases hprogram with
      | statements =>
        rw [Node.shape]
        exact ⟨trivial, fun depth ↦ .of_text?_eq_none hnonempty hword rfl⟩
    · obtain ⟨tokens, htokens, htogether⟩ := hprogram.exists_of_mem hbelow
      exact ⟨htokens.rolesApart source, htiles.readable htokens htogether.subset⟩
  refine ⟨fun node hmem ↦ (hnode node hmem).1, fun entry hentry ↦ ?_⟩
  obtain ⟨inner, hinner, depth, rfl⟩ := Node.mem_entries hentry
  exact (hnode inner hinner).2 depth

/-- Two trees that sources are read as, with sizes that fit in a word, have the same outline exactly
if they have the same shape: the same kinds of nodes with the same children in the same roles, and
the same texts of leaves. -/
theorem outline_determines_tree {source otherSource : Source} {tree other : Node}
    (hsize : source.size < UInt32.size) (hotherSize : otherSource.size < UInt32.size)
    (htree : source.tree = .ok tree) (hother : otherSource.tree = .ok other) :
    tree.outline source = other.outline otherSource ↔
      tree.shape source = other.shape otherSource := by
  obtain ⟨hapart, hreadable⟩ := Source.listed_of_tree hsize htree
  obtain ⟨hotherApart, hotherReadable⟩ := Source.listed_of_tree hotherSize hother
  rw [← String.toList_inj, Node.toList_outline, Node.toList_outline]
  constructor
  · intro houtline
    have hentries := OutlineEntry.eq_of_flatMap_line hreadable hotherReadable houtline
    have hends : Node.StartsWithin 0 [] := by simp [Node.StartsWithin]
    exact (hapart.recovered hotherApart hends hends (congrArg (· ++ []) hentries)).1
  · intro hshape
    rw [Node.entries_eq_of_shape hshape]

/-- Two texts with a string over two lines, the second of which looks like a line of an outline. -/
theorem outline_determines_tree_strings :
    ∃ source otherSource tree other,
      source = Source.ofText "" "define f(a, b = 1) then print \"x\n  Call\" + b // é" ∧
      otherSource = Source.ofText "" "\ndefine f( a ,b=1 )then\n  print \"x\n  Call\"+b" ∧
      source.size < UInt32.size ∧ otherSource.size < UInt32.size ∧
      source.tree = .ok tree ∧ otherSource.tree = .ok other ∧
      tree.outline source = other.outline otherSource ∧
      tree.shape source = other.shape otherSource := by
  obtain ⟨source, hsource⟩ : ∃ source, source =
    Source.ofText "" "define f(a, b = 1) then print \"x\n  Call\" + b // é" := ⟨_, rfl⟩
  obtain ⟨otherSource, hotherSource⟩ : ∃ source, source =
    Source.ofText "" "\ndefine f( a ,b=1 )then\n  print \"x\n  Call\"+b" := ⟨_, rfl⟩
  have hsizes : source.size < UInt32.size ∧ otherSource.size < UInt32.size := by
    rw [hsource, hotherSource]
    decide +kernel
  obtain ⟨tree, htree⟩ : ∃ tree, source.tree = .ok tree := by
    rw [hsource]
    exact exists_of_isOk (by decide +kernel)
  obtain ⟨other, hother⟩ : ∃ tree, otherSource.tree = .ok tree := by
    rw [hotherSource]
    exact exists_of_isOk (by decide +kernel)
  have houtlines : source.tree.map (Node.outline source) =
      otherSource.tree.map (Node.outline otherSource) := by
    rw [hsource, hotherSource]
    decide +kernel
  rw [htree, hother] at houtlines
  have houtline : tree.outline source = other.outline otherSource := Except.ok.inj houtlines
  exact ⟨source, otherSource, tree, other, hsource, hotherSource, hsizes.1, hsizes.2, htree, hother,
    houtline, (outline_determines_tree hsizes.1 hsizes.2 htree hother).mp houtline⟩

end Presage
