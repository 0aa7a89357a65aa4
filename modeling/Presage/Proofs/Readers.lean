import Presage.Node.Statement
import Presage.Proofs.Phrases

/-!
When readers succeed. `Cursor.Passes` says that a cursor gets to another one by passing tokens, and
for every reader that is not a repetition one lemma says from where to where it reads what, in terms
of the readers inside it. What the grammar makes of the tokens is not looked at here.
-/

set_option autoImplicit false
set_option relaxedAutoImplicit false

namespace Presage

/-! ### Passing tokens -/

namespace Cursor

/-- The tokens are the next ones, and behind them stands the cursor `last`. -/
def Passes : Cursor → List Token → Cursor → Prop
  | cursor, [], last => cursor = last
  | cursor, token :: rest, last => cursor.ahead.head? = some token ∧ Passes cursor.next rest last

theorem passes_append {cursor last : Cursor} {first second : List Token} :
    cursor.Passes (first ++ second) last ↔
      ∃ middle, cursor.Passes first middle ∧ middle.Passes second last := by
  induction first generalizing cursor with
  | nil => exact ⟨fun h ↦ ⟨cursor, rfl, h⟩, fun ⟨_, hmiddle, h⟩ ↦ hmiddle ▸ h⟩
  | cons token rest ih =>
    constructor
    · rintro ⟨hhead, hrest⟩
      obtain ⟨middle, hfirst, hsecond⟩ := ih.mp hrest
      exact ⟨middle, ⟨hhead, hfirst⟩, hsecond⟩
    · rintro ⟨middle, ⟨hhead, hfirst⟩, hsecond⟩
      exact ⟨hhead, ih.mpr ⟨middle, hfirst, hsecond⟩⟩

theorem current_of_head? {cursor : Cursor} {token : Token} (h : cursor.ahead.head? = some token) :
    cursor.current = token := by
  unfold current
  rw [h]
  rfl

/-- The token that marks the end is the current one when no other is left. -/
theorem hasTokens_iff {cursor : Cursor} :
    cursor.hasTokens = true ↔ cursor.current.kind ≠ .eof := by
  unfold hasTokens current
  cases hahead : cursor.ahead with
  | nil =>
    constructor
    · intro htokens
      cases htokens
    · intro hkind
      exact (hkind cursor.eof_kind).elim
  | cons token rest =>
    have htoken : token ∈ cursor.ahead := by
      rw [hahead]
      exact List.mem_cons_self
    exact ⟨fun _ ↦ cursor.ahead_ne_eof token htoken, fun _ ↦ rfl⟩

/-- A token that does not mark the end can be passed. -/
theorem head?_ahead {cursor : Cursor} {kind : TokenKind} (hcurrent : cursor.current.kind = kind)
    (hkind : kind ≠ .eof) : cursor.ahead.head? = some cursor.current := by
  unfold current at hcurrent ⊢
  cases hhead : cursor.ahead.head? with
  | none =>
    rw [hhead] at hcurrent
    exact (hkind (hcurrent.symm.trans cursor.eof_kind)).elim
  | some token => rfl

namespace Passes

variable {cursor last : Cursor} {tokens : List Token}

theorem one {kind : TokenKind} (h : cursor.current.kind = kind) (hkind : kind ≠ .eof) :
    cursor.Passes [cursor.current] cursor.next :=
  ⟨head?_ahead h hkind, rfl⟩

theorem ahead_eq (h : cursor.Passes tokens last) : cursor.ahead = tokens ++ last.ahead := by
  induction tokens generalizing cursor with
  | nil =>
    obtain rfl := h
    rfl
  | cons token rest ih =>
    obtain ⟨hhead, hrest⟩ := h
    obtain ⟨ahead, hahead⟩ := List.head?_eq_some_iff.mp hhead
    have htail := ih hrest
    rw [ahead_next, hahead, List.tail_cons] at htail
    rw [hahead, List.cons_append, ← htail]

theorem length_le (h : cursor.Passes tokens last) : tokens.length ≤ cursor.ahead.length := by
  rw [h.ahead_eq, List.length_append]
  exact Nat.le_add_right _ _

theorem passed?_eq (h : cursor.Passes tokens last) (hne : tokens ≠ []) :
    last.passed? = tokens.getLast? := by
  induction tokens generalizing cursor with
  | nil => exact (hne rfl).elim
  | cons token rest ih =>
    obtain ⟨hhead, hrest⟩ := h
    cases rest with
    | nil =>
      obtain rfl := hrest
      obtain ⟨ahead, hahead⟩ := List.head?_eq_some_iff.mp hhead
      exact passed?_next hahead
    | cons second others =>
      rw [List.getLast?_cons_cons]
      exact ih hrest (List.cons_ne_nil second others)

theorem eof_eq (h : cursor.Passes tokens last) : last.eof = cursor.eof := by
  induction tokens generalizing cursor with
  | nil =>
    obtain rfl := h
    rfl
  | cons token rest ih =>
    rw [ih h.2, eof_next]

/-- What the cursor shows is the first of the tokens, if there are any. -/
theorem current_eq (h : cursor.Passes tokens last) :
    cursor.current = tokens.head?.getD last.current := by
  cases tokens with
  | nil =>
    obtain rfl := h
    rfl
  | cons token rest => exact current_of_head? h.1

/-- Behind the last token the cursor shows the one that ends the stream. -/
theorem to_end (h : cursor.Passes tokens last) (hlast : last.hasTokens = false) :
    cursor.ahead = tokens ∧ last.current = cursor.eof := by
  unfold hasTokens at hlast
  rw [Bool.not_eq_false', List.isEmpty_iff] at hlast
  constructor
  · rw [h.ahead_eq, hlast, List.append_nil]
  · unfold current
    rw [hlast, ← h.eof_eq]
    rfl

end Passes

theorem exists_passes (cursor : Cursor) :
    ∃ last, cursor.Passes cursor.ahead last ∧ last.hasTokens = false := by
  cases hahead : cursor.ahead with
  | nil => exact ⟨cursor, rfl, by unfold hasTokens; rw [hahead]; rfl⟩
  | cons token rest =>
    have hnext : cursor.next.ahead = rest := by rw [ahead_next, hahead, List.tail_cons]
    obtain ⟨last, hpasses, hlast⟩ := exists_passes cursor.next
    rw [hnext] at hpasses
    exact ⟨last, ⟨by rw [hahead]; rfl, hpasses⟩, hlast⟩
termination_by cursor.ahead.length
decreasing_by
  rw [hnext, hahead]
  exact Nat.lt_succ_self _

end Cursor

/-! ### Readers -/

namespace Parse

variable {α β : Type} {cursor last : Cursor}

theorem bind_eq_ok_iff {first : Parse α} {second : α → Parse β} {value : β} :
    (first >>= second) cursor = .ok value last ↔
      ∃ middle place, first cursor = .ok middle place ∧ second middle place = .ok value last := by
  show EStateM.bind first second cursor = _ ↔ _
  unfold EStateM.bind
  cases first cursor with
  | ok middle place =>
    constructor
    · exact fun h ↦ ⟨middle, place, rfl, h⟩
    · rintro ⟨_, _, hfirst, hsecond⟩
      cases hfirst
      exact hsecond
  | error diagnostic place =>
    constructor
    · intro h
      cases h
    · rintro ⟨_, _, hfirst, -⟩
      cases hfirst

theorem pure_eq_ok_iff {result value : α} :
    (pure result : Parse α) cursor = .ok value last ↔ result = value ∧ cursor = last := by
  constructor
  · intro h
    cases h
    exact ⟨rfl, rfl⟩
  · rintro ⟨rfl, rfl⟩
    rfl

theorem current_eq_ok_iff {token : Token} :
    current cursor = .ok token last ↔ cursor.current = token ∧ cursor = last :=
  pure_eq_ok_iff

theorem kind_eq_ok_iff {found : TokenKind} :
    kind cursor = .ok found last ↔ cursor.current.kind = found ∧ cursor = last :=
  pure_eq_ok_iff

theorem kind_bind (second : TokenKind → Parse β) :
    (kind >>= second) cursor = second cursor.current.kind cursor :=
  rfl

theorem get_eq_ok_iff {place : Cursor} :
    (get : Parse Cursor) cursor = .ok place last ↔ cursor = place ∧ cursor = last :=
  pure_eq_ok_iff

theorem spanFrom_eq_ok_iff {start : Position} {span : Span} :
    spanFrom start cursor = .ok span last ↔ cursor.spanFrom start = span ∧ cursor = last :=
  pure_eq_ok_iff

theorem advance_eq_ok_iff {token : Token} :
    advance cursor = .ok token last ↔ cursor.current = token ∧ cursor.next = last := by
  constructor
  · intro h
    cases h
    exact ⟨rfl, rfl⟩
  · rintro ⟨rfl, rfl⟩
    rfl

theorem unexpected_ne_ok {value : α} : (unexpected : Parse α) cursor ≠ .ok value last := by
  intro h
  cases h

theorem unexpectedBecause_ne_ok {message : String} {value : α} :
    (unexpectedBecause message : Parse α) cursor ≠ .ok value last := by
  intro h
  cases h

theorem expectOr_eq_ok_iff {otherwise : Parse Token} {expected : TokenKind} {token : Token}
    (hotherwise : otherwise cursor ≠ .ok token last) :
    expectOr otherwise expected cursor = .ok token last ↔
      cursor.current.kind = expected ∧ cursor.current = token ∧ cursor.next = last := by
  unfold expectOr
  simp only [bind_eq_ok_iff, kind_eq_ok_iff, and_assoc, exists_eq_left', exists_and_left]
  split
  · next hkind => simp only [advance_eq_ok_iff, hkind, true_and]
  · next hkind => simp only [hotherwise, hkind, false_and]

theorem expect_eq_ok_iff {expected : TokenKind} {token : Token} :
    expect expected cursor = .ok token last ↔
      cursor.current.kind = expected ∧ cursor.current = token ∧ cursor.next = last :=
  expectOr_eq_ok_iff unexpected_ne_ok

theorem expectIdentifier_eq_ok_iff {message : String} {node : Node} :
    expectIdentifier message cursor = .ok node last ↔
      cursor.current.kind = .identifier ∧ .leaf .identifier cursor.current.span = node ∧
        cursor.next = last := by
  unfold expectIdentifier
  simp only [bind_eq_ok_iff, pure_eq_ok_iff, expectOr_eq_ok_iff unexpectedBecause_ne_ok, and_assoc,
    exists_eq_left', exists_and_left]

/-! ### Forms of expressions -/

section Expressions

variable {inner : BindingPower → Parse Node} {node : Node}

theorem grouping_eq_ok_iff :
    grouping inner cursor = .ok node last ↔
      ∃ expression place, inner .default cursor.next = .ok expression place ∧
        place.current.kind = .closeParen ∧
        .parenthesized (place.next.spanFrom cursor.current.span.start) expression = node ∧
        place.next = last := by
  unfold grouping
  simp only [bind_eq_ok_iff, advance_eq_ok_iff, expect_eq_ok_iff, spanFrom_eq_ok_iff,
    pure_eq_ok_iff, and_assoc, exists_eq_left', exists_and_left]

theorem binary_eq_ok_iff {power : BindingPower} {left : Node} :
    binary inner power left cursor = .ok node last ↔
      ∃ right, inner power cursor.next = .ok right last ∧
        .binary ⟨left.span.start, right.span.stop⟩ left (.leaf .operator cursor.current.span)
          right = node := by
  unfold binary
  simp only [bind_eq_ok_iff, advance_eq_ok_iff, pure_eq_ok_iff, and_assoc, exists_eq_left',
    exists_and_left, exists_eq_right_right]

theorem argument_eq_ok_iff :
    argument inner cursor = .ok node last ↔
      ∃ expression place, inner .default cursor = .ok expression place ∧
        if expression.isIdentifier = true ∧ place.current.kind = .assignment then
          ∃ value, inner .default place.next = .ok value last ∧
            .keywordArgument (last.spanFrom expression.span.start) expression value = node
        else expression = node ∧ place = last := by
  unfold argument
  simp only [bind_eq_ok_iff, kind_eq_ok_iff, and_assoc, exists_eq_left', exists_and_left,
    Bool.and_eq_true, decide_eq_true_eq]
  refine exists_congr fun expression ↦ exists_congr fun place ↦ and_congr_right fun _ ↦ ?_
  split
  · simp only [bind_eq_ok_iff, advance_eq_ok_iff, spanFrom_eq_ok_iff, pure_eq_ok_iff, and_assoc,
      exists_eq_left', exists_and_left, exists_eq_right_right]
  · exact pure_eq_ok_iff

theorem closedItems_eq_ok_iff {item : Parse Node} {nodes : List Node} :
    closedItems item cursor = .ok nodes last ↔
      ∃ place, itemsAtMost item cursor.budget cursor = .ok nodes place ∧
        place.current.kind = .closeParen ∧ place.next = last := by
  unfold closedItems
  simp only [bind_eq_ok_iff, get_eq_ok_iff, expect_eq_ok_iff, pure_eq_ok_iff, and_assoc,
    exists_eq_left', exists_and_left]
  constructor
  · rintro ⟨_, place, hitems, hkind, rfl, rfl⟩
    exact ⟨place, hitems, hkind, rfl⟩
  · rintro ⟨place, hitems, hkind, rfl⟩
    exact ⟨_, place, hitems, hkind, rfl, rfl⟩

theorem itemsAtMost_eq_ok_iff {item : Parse Node} {steps : Nat} {nodes : List Node} :
    itemsAtMost item (steps + 1) cursor = .ok nodes last ↔
      if cursor.current.kind = .closeParen then [] = nodes ∧ cursor = last
      else
        ∃ node place, item cursor = .ok node place ∧
          if place.current.kind = .comma then
            ∃ rest, itemsAtMost item steps place.next = .ok rest last ∧ node :: rest = nodes
          else [node] = nodes ∧ place = last := by
  show (do
    if (← kind) = .closeParen then return []
    let first ← item
    if (← kind) = .comma then
      let _ ← advance
      let rest ← itemsAtMost item steps
      return first :: rest
    else return [first] : Parse (List Node)) cursor = _ ↔ _
  simp only [bind_eq_ok_iff, kind_eq_ok_iff, and_assoc, exists_eq_left', exists_and_left]
  split
  · exact pure_eq_ok_iff
  · simp only [bind_eq_ok_iff, kind_eq_ok_iff, and_assoc, exists_eq_left', exists_and_left]
    refine exists_congr fun node ↦ exists_congr fun place ↦ and_congr_right fun _ ↦ ?_
    split
    · simp only [bind_eq_ok_iff, advance_eq_ok_iff, pure_eq_ok_iff, and_assoc, exists_eq_left',
        exists_and_left, exists_eq_right_right]
    · exact pure_eq_ok_iff

theorem call_eq_ok_iff {callee : Node} :
    call inner callee cursor = .ok node last ↔
      callee.isIdentifier = true ∧
        ∃ nodes, closedItems (argument inner) cursor.next = .ok nodes last ∧
          .call (last.spanFrom callee.span.start) callee nodes = node := by
  unfold call
  simp only [Bool.not_eq_true']
  split
  · next hcallee =>
    simp only [bind_eq_ok_iff, unexpectedBecause_ne_ok, hcallee, Bool.false_eq_true, false_and,
      exists_false]
  · next hcallee =>
    simp only [Bool.not_eq_false] at hcallee
    simp only [bind_eq_ok_iff, advance_eq_ok_iff, spanFrom_eq_ok_iff, pure_eq_ok_iff, and_assoc,
      exists_eq_left', exists_and_left, exists_eq_right_right, hcallee, true_and]

theorem leaf_eq_ok_iff {leafKind : LeafKind} :
    (do return .leaf leafKind (← advance).span : Parse Node) cursor = .ok node last ↔
      .leaf leafKind cursor.current.span = node ∧ cursor.next = last := by
  simp only [bind_eq_ok_iff, advance_eq_ok_iff, pure_eq_ok_iff, and_assoc, exists_eq_left',
    exists_and_left]

theorem primary_eq_ok_iff :
    primary cursor = .ok node last ↔
      ∃ leafKind, Phrase.leafKind? cursor.current.kind = some leafKind ∧
        (cursor.current.kind = .number → ∃ value, Integer.read? cursor.current.value = some value) ∧
        .leaf leafKind cursor.current.span = node ∧ cursor.next = last := by
  unfold primary
  simp only [bind_eq_ok_iff, current_eq_ok_iff, and_assoc, exists_eq_left', exists_and_left]
  cases hkind : cursor.current.kind with
  | number =>
    cases hvalue : Integer.read? cursor.current.value with
    | none =>
      constructor
      · intro h
        cases h
      · rintro ⟨_, -, hread, -⟩
        obtain ⟨value, hread⟩ := hread rfl
        cases hread
    | some value =>
      constructor
      · intro h
        exact ⟨.number, rfl, fun _ ↦ ⟨value, rfl⟩, leaf_eq_ok_iff.mp h⟩
      · rintro ⟨leafKind, hleaf, -, hnode⟩
        cases hleaf
        exact leaf_eq_ok_iff.mpr hnode
  | string | identifier | kwTrue | kwFalse =>
    constructor
    · intro h
      exact ⟨_, rfl, nofun, leaf_eq_ok_iff.mp h⟩
    · rintro ⟨leafKind, hleaf, -, hnode⟩
      cases hleaf
      exact leaf_eq_ok_iff.mpr hnode
  | _ =>
    constructor
    · intro h
      exact (unexpected_ne_ok h).elim
    · rintro ⟨_, hleaf, -⟩
      cases hleaf

theorem expressionWithin_eq_ok_iff {grammar : Grammar} {depth : Nat} {least : BindingPower} :
    expressionWithin grammar (depth + 1) least cursor = .ok node last ↔
      ∃ form left place, grammar.operand cursor.current.kind = some form ∧
        operand (expressionWithin grammar depth) form cursor = .ok left place ∧
        extendAtMost grammar (expressionWithin grammar depth) least place.budget left place =
          .ok node last := by
  unfold expressionWithin
  simp only [bind_eq_ok_iff, kind_eq_ok_iff, and_assoc, exists_eq_left', exists_and_left]
  cases grammar.operand cursor.current.kind with
  | none => simp only [unexpected_ne_ok, reduceCtorEq, false_and, exists_false]
  | some form =>
    simp only [bind_eq_ok_iff, get_eq_ok_iff]
    constructor
    · rintro ⟨left, place, hleft, _, _, ⟨rfl, rfl⟩, hextended⟩
      exact ⟨form, rfl, left, place, hleft, hextended⟩
    · rintro ⟨_, hform, left, place, hleft, hextended⟩
      obtain rfl := Option.some.inj hform
      exact ⟨left, place, hleft, _, _, ⟨rfl, rfl⟩, hextended⟩

/-- A token that binds tightly enough extends the expression, and any other ends it. -/
theorem extendAtMost_eq_ok_iff {grammar : Grammar} {least : BindingPower} {steps : Nat}
    {left : Node} :
    extendAtMost grammar inner least (steps + 1) left cursor = .ok node last ↔
      ((grammar.power cursor.current.kind).rank ≤ least.rank ∧ left = node ∧ cursor = last) ∨
        ∃ power form longer place, grammar.extension cursor.current.kind = some (power, form) ∧
          least.rank < power.rank ∧ extension inner power left form cursor = .ok longer place ∧
          extendAtMost grammar inner least steps longer place = .ok node last := by
  rw [extendAtMost]
  simp only [bind_eq_ok_iff, kind_eq_ok_iff, and_assoc, exists_eq_left', exists_and_left]
  unfold Grammar.power
  cases grammar.extension cursor.current.kind with
  | none =>
    simp only [pure_eq_ok_iff, reduceCtorEq, false_and, exists_false, or_false]
    exact ⟨fun h ↦ ⟨Nat.zero_le _, h⟩, fun h ↦ h.2⟩
  | some found =>
    obtain ⟨power, form⟩ := found
    simp only
    split
    · next hless =>
      simp only [bind_eq_ok_iff]
      constructor
      · rintro ⟨longer, place, hlonger, hrest⟩
        exact Or.inr ⟨power, form, rfl, hless, longer, place, hlonger, hrest⟩
      · rintro (⟨hle, -⟩ | ⟨_, _, hfound, -, longer, place, hlonger, hrest⟩)
        · exact absurd hless (Nat.not_lt.mpr hle)
        · cases hfound
          exact ⟨longer, place, hlonger, hrest⟩
    · next hless =>
      rw [pure_eq_ok_iff]
      constructor
      · exact fun h ↦ Or.inl ⟨Nat.not_lt.mp hless, h⟩
      · rintro (⟨-, h⟩ | ⟨_, _, hfound, hpower, -⟩)
        · exact h
        · cases hfound
          exact absurd hpower hless

end Expressions

/-! ### Forms of statements -/

section Statements

variable {grammar : Grammar} {inner : Parse Node} {node : Node}

theorem variableDeclaration_eq_ok_iff :
    variableDeclaration grammar cursor = .ok node last ↔
      cursor.next.current.kind = .identifier ∧ cursor.next.next.current.kind = .assignment ∧
        ∃ initializer, expression grammar .default cursor.next.next.next = .ok initializer last ∧
          .variableDeclaration (last.spanFrom cursor.current.span.start)
            (.leaf .identifier cursor.next.current.span) initializer = node := by
  unfold variableDeclaration
  simp only [bind_eq_ok_iff, advance_eq_ok_iff, expectIdentifier_eq_ok_iff, expect_eq_ok_iff,
    spanFrom_eq_ok_iff, pure_eq_ok_iff, and_assoc, exists_eq_left', exists_and_left,
    exists_eq_right_right]

theorem parameter_eq_ok_iff :
    parameter grammar cursor = .ok node last ↔
      cursor.current.kind = .identifier ∧
        if cursor.next.current.kind = .assignment then
          ∃ default, expression grammar .default cursor.next.next = .ok default last ∧
            .parameter (last.spanFrom cursor.current.span.start)
              (.leaf .identifier cursor.current.span) (some default) = node
        else
          .parameter (cursor.next.spanFrom cursor.current.span.start)
            (.leaf .identifier cursor.current.span) none = node ∧ cursor.next = last := by
  unfold parameter
  simp only [bind_eq_ok_iff, expectIdentifier_eq_ok_iff, kind_eq_ok_iff, and_assoc,
    exists_eq_left', exists_and_left]
  refine and_congr_right fun _ ↦ ?_
  split
  · simp only [bind_eq_ok_iff, advance_eq_ok_iff, spanFrom_eq_ok_iff, pure_eq_ok_iff, and_assoc,
      exists_eq_left', exists_and_left, exists_eq_right_right, Node.span]
  · simp only [bind_eq_ok_iff, spanFrom_eq_ok_iff, pure_eq_ok_iff, and_assoc, exists_eq_left',
      exists_and_left, Node.span]

theorem functionDefinition_eq_ok_iff :
    functionDefinition grammar inner cursor = .ok node last ↔
      cursor.next.current.kind = .identifier ∧ cursor.next.next.current.kind = .openParen ∧
        ∃ parameters place,
          closedItems (parameter grammar) cursor.next.next.next = .ok parameters place ∧
          place.current.kind = .kwThen ∧
          ∃ body, repeatWhile (inBody cursor.current place.current) inner place.next =
              .ok body last ∧
            body ≠ [] ∧
            .functionDefinition (last.spanFrom cursor.current.span.start)
              (.leaf .identifier cursor.next.current.span) parameters body = node := by
  unfold functionDefinition
  simp only [bind_eq_ok_iff, advance_eq_ok_iff, expectIdentifier_eq_ok_iff, expect_eq_ok_iff,
    and_assoc, exists_eq_left', exists_and_left]
  refine and_congr_right fun _ ↦ and_congr_right fun _ ↦ exists_congr fun parameters ↦
    exists_congr fun place ↦ and_congr_right fun _ ↦ and_congr_right fun _ ↦
      exists_congr fun body ↦ ?_
  cases body with
  | nil =>
    simp only [List.isEmpty_nil, if_true, bind_eq_ok_iff, unexpectedBecause_ne_ok, false_and,
      exists_false, and_false, ne_eq, not_true_eq_false]
  | cons first rest =>
    simp only [List.isEmpty_cons, Bool.false_eq_true, if_false, bind_eq_ok_iff, spanFrom_eq_ok_iff,
      pure_eq_ok_iff, and_assoc, exists_eq_left', exists_and_left, exists_eq_right_right, ne_eq,
      reduceCtorEq, not_false_eq_true, true_and]

theorem comparison_eq_ok_iff :
    comparison grammar cursor = .ok node last ↔
      ∃ left place, expression grammar .default cursor.next = .ok left place ∧
        place.current.kind = .kwTo ∧
        ∃ right, expression grammar .default place.next = .ok right last ∧
          .comparisonStatement (last.spanFrom cursor.current.span.start) left right = node := by
  unfold comparison
  simp only [bind_eq_ok_iff, advance_eq_ok_iff, expect_eq_ok_iff, spanFrom_eq_ok_iff,
    pure_eq_ok_iff, and_assoc, exists_eq_left', exists_and_left, exists_eq_right_right]

theorem wordAndExpression_eq_ok_iff {build : Span → Node → Node} :
    wordAndExpression grammar build cursor = .ok node last ↔
      ∃ value, expression grammar .default cursor.next = .ok value last ∧
        build (last.spanFrom cursor.current.span.start) value = node := by
  unfold wordAndExpression
  simp only [bind_eq_ok_iff, advance_eq_ok_iff, spanFrom_eq_ok_iff, pure_eq_ok_iff, and_assoc,
    exists_eq_left', exists_and_left, exists_eq_right_right]

theorem predictiveLoop_eq_ok_iff :
    predictiveLoop grammar inner cursor = .ok node last ↔
      cursor.next.current.kind = .identifier ∧ cursor.next.next.current.kind = .kwIn ∧
        cursor.next.next.next.current.kind = .kwPredictiveRange ∧
        cursor.next.next.next.next.current.kind = .openParen ∧
        ∃ low first, expression grammar .default cursor.next.next.next.next.next = .ok low first ∧
          first.current.kind = .comma ∧
          ∃ high second, expression grammar .default first.next = .ok high second ∧
            second.current.kind = .comma ∧ second.next.current.kind = .identifier ∧
            second.next.next.current.kind = .closeParen ∧
            second.next.next.next.current.kind = .openCurly ∧
            ∃ body place, repeatWhile (fun cursor ↦ cursor.current.kind != .closeCurly) inner
                second.next.next.next.next = .ok body place ∧
              place.current.kind = .closeCurly ∧
              .predictiveLoop (place.next.spanFrom cursor.current.span.start)
                (.leaf .identifier cursor.next.current.span) low high
                (.leaf .identifier second.next.current.span) body = node ∧
              place.next = last := by
  unfold predictiveLoop
  simp only [bind_eq_ok_iff, advance_eq_ok_iff, expectIdentifier_eq_ok_iff, expect_eq_ok_iff,
    spanFrom_eq_ok_iff, pure_eq_ok_iff, and_assoc, exists_eq_left', exists_and_left]

/-- A statement without a word of its own starts with an expression that is a name or a call. -/
theorem simpleStatement_eq_ok_iff :
    simpleStatement grammar cursor = .ok node last ↔
      cursor.current.kind = .identifier ∧
        ∃ first place, expression grammar .default cursor = .ok first place ∧
          ((first.isIdentifier = true ∧ place.current.kind = .assignment ∧
              ∃ value, expression grammar .default place.next = .ok value last ∧
                .variableReassignment (last.spanFrom first.span.start) first value = node) ∨
            (∃ span callee arguments, first = .call span callee arguments) ∧ first = node ∧
              place = last) := by
  unfold simpleStatement
  simp only [bind_eq_ok_iff, kind_eq_ok_iff, and_assoc, exists_eq_left', exists_and_left]
  by_cases hkind : cursor.current.kind = .identifier
  · rw [if_neg (not_not_intro hkind)]
    simp only [bind_eq_ok_iff, hkind, true_and]
    refine exists_congr fun first ↦ exists_congr fun place ↦ and_congr_right fun _ ↦ ?_
    split
    · -- A name alone: an equals sign and a value have to follow.
      simp only [bind_eq_ok_iff, kind_eq_ok_iff, and_assoc, exists_eq_left', exists_and_left,
        reduceCtorEq, exists_false, false_and, or_false, Node.isIdentifier, true_and]
      split
      · next hsign =>
        simp only [bind_eq_ok_iff, advance_eq_ok_iff, spanFrom_eq_ok_iff, pure_eq_ok_iff, and_assoc,
          exists_eq_left', exists_and_left, exists_eq_right_right, hsign, true_and]
      · next hsign => simp only [unexpectedBecause_ne_ok, hsign, false_and]
    · simp only [pure_eq_ok_iff, Node.isIdentifier, Bool.false_eq_true, false_and, false_or]
      exact ⟨fun h ↦ ⟨⟨_, _, _, rfl⟩, h⟩, fun h ↦ h.2⟩
    · next hother hcall =>
      simp only [unexpectedBecause_ne_ok, false_iff]
      rintro (⟨hidentifier, -⟩ | ⟨⟨span, callee, arguments, rfl⟩, -⟩)
      · unfold Node.isIdentifier at hidentifier
        split at hidentifier
        · exact hother _ rfl
        · cases hidentifier
      · exact hcall span callee arguments rfl
  · rw [if_pos hkind]
    simp only [bind_eq_ok_iff, unexpectedBecause_ne_ok, hkind, false_and, exists_false]

theorem statementWithin_of_form {depth : Nat} {form : StatementForm}
    (h : grammar.statement cursor.current.kind = some form) :
    statementWithin grammar (depth + 1) cursor =
      statementForm grammar (statementWithin grammar depth) form cursor := by
  rw [statementWithin, kind_bind, h]

theorem statementWithin_of_none {depth : Nat} (h : grammar.statement cursor.current.kind = none) :
    statementWithin grammar (depth + 1) cursor = simpleStatement grammar cursor := by
  rw [statementWithin, kind_bind, h]

theorem whileAtMost_eq_ok_iff {continues : Cursor → Bool} {item : Parse Node} {steps : Nat}
    {nodes : List Node} :
    whileAtMost continues item (steps + 1) cursor = .ok nodes last ↔
      if continues cursor = true then
        ∃ first place, item cursor = .ok first place ∧
          ∃ rest, whileAtMost continues item steps place = .ok rest last ∧ first :: rest = nodes
      else [] = nodes ∧ cursor = last := by
  rw [whileAtMost]
  simp only [bind_eq_ok_iff, get_eq_ok_iff, and_assoc, exists_eq_left', exists_and_left]
  split
  · simp only [bind_eq_ok_iff, pure_eq_ok_iff, exists_eq_right_right]
  · exact pure_eq_ok_iff

end Statements

end Parse

end Presage
