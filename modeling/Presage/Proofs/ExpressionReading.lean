import Presage.Proofs.Readers

/-!
The reader of expressions reads exactly the expressions of the grammar. `ReadsExpressions depth`
says so of a reader for expressions of up to `depth` tokens: what it reads is an expression before a
token that does not bind tighter than asked for, and every such expression is read. It is proved of
`expressionWithin` by induction on the depth, where the forms get the reader of the depth below.

Soundness follows the loop of extensions: what was read so far binds at least as tightly as the
operator that comes next (`extendAtMost_sound`). Completeness follows the left operands of an
expression down to the first one: reading a left operand leads to the loop with that operand in hand
(`expressionWithin_of_extendAtMost`).
-/

set_option autoImplicit false
set_option relaxedAutoImplicit false

namespace Presage

open Phrase (cover precedence? leafKind?)

/-! ### Tables and grammar -/

theorem BindingPower.default_lt_call : BindingPower.default.rank < BindingPower.call.rank := by
  decide

namespace Grammar

/-- How tightly the current token binds what is on its left. -/
def tightness (cursor : Cursor) : Nat := (standard.power cursor.current.kind).rank

/-- A token that extends nothing does not bind at all. -/
theorem tightness_eq_zero {cursor : Cursor} {kind : TokenKind} (h : cursor.current.kind = kind)
    (hkind : standard.extension kind = none) : tightness cursor = 0 := by
  unfold tightness power
  rw [h, hkind]
  rfl

theorem extension_of_precedence? {kind : TokenKind} {precedence : Nat}
    (h : precedence? kind = some precedence) :
    ∃ power, standard.extension kind = some (power, .binary) ∧ power.rank = precedence + 1 ∧
      power.rank < BindingPower.call.rank := by
  cases kind <;> cases h <;> exact ⟨_, rfl, rfl, by decide⟩

theorem precedence?_of_extension {kind : TokenKind} {power : BindingPower}
    (h : standard.extension kind = some (power, .binary)) :
    ∃ precedence, precedence? kind = some precedence ∧ power.rank = precedence + 1 := by
  cases kind <;> cases h <;> exact ⟨_, rfl, rfl⟩

theorem openParen_of_extension {kind : TokenKind} {power : BindingPower}
    (h : standard.extension kind = some (power, .call)) : kind = .openParen := by
  cases kind <;> cases h
  rfl

theorem rank_power_of_precedence? {kind : TokenKind} {precedence : Nat}
    (h : precedence? kind = some precedence) : (standard.power kind).rank = precedence + 1 := by
  cases kind <;> cases h <;> rfl

theorem operand_of_leafKind? {kind : TokenKind} {leafKind : LeafKind}
    (h : leafKind? kind = some leafKind) : standard.operand kind = some .primary := by
  cases kind <;> cases h <;> rfl

theorem openParen_of_operand {kind : TokenKind} (h : standard.operand kind = some .grouping) :
    kind = .openParen := by
  cases kind <;> cases h
  rfl

end Grammar

theorem Node.eq_leaf_of_isIdentifier {node : Node} (h : node.isIdentifier = true) :
    ∃ span, node = .leaf .identifier span := by
  unfold isIdentifier at h
  split at h
  · exact ⟨_, rfl⟩
  · cases h

/-- A span up to here ends with the last of the tokens passed. -/
theorem Cursor.Passes.spanFrom_eq {cursor last : Cursor} {tokens : List Token}
    (h : cursor.Passes tokens last) (hne : tokens ≠ []) (start : Position) :
    last.spanFrom start = ⟨start, (cover tokens).stop⟩ := by
  unfold Cursor.spanFrom Cursor.passedEnd cover
  rw [h.passed?_eq hne, List.getLast?_eq_some_getLast hne]
  rfl

namespace Parse

/-! ### Items -/

section Items

variable {item : Parse Node} {phrase : List Token → Node → Prop}

theorem itemsAtMost_sound
    (hitem : ∀ {cursor last : Cursor} {node : Node}, item cursor = .ok node last →
      ∃ tokens, cursor.Passes tokens last ∧ phrase tokens node)
    {steps : Nat} {cursor last : Cursor} {nodes : List Node}
    (h : itemsAtMost item steps cursor = .ok nodes last) :
    ∃ tokens, cursor.Passes tokens last ∧ Phrase.Items phrase tokens nodes := by
  induction steps generalizing cursor nodes with
  | zero => exact (unexpected_ne_ok h).elim
  | succ steps ih =>
    rw [itemsAtMost_eq_ok_iff] at h
    split at h
    · obtain ⟨rfl, rfl⟩ := h
      exact ⟨[], rfl, .none⟩
    · obtain ⟨node, place, hread, hrest⟩ := h
      obtain ⟨tokens, hpasses, hphrase⟩ := hitem hread
      split at hrest
      · next hcomma =>
        obtain ⟨rest, hrest, rfl⟩ := hrest
        have hone := Cursor.Passes.one hcomma nofun
        obtain ⟨restTokens, hrestPasses, hitems⟩ := ih hrest
        refine ⟨tokens ++ place.current :: restTokens, ?_, .more hphrase hcomma hitems⟩
        exact Cursor.passes_append.mpr ⟨place, hpasses, hone.1, hrestPasses⟩
      · obtain ⟨rfl, rfl⟩ := hrest
        exact ⟨tokens, hpasses, .last hphrase⟩

/-- What is read as closed items is items and a closing parenthesis. -/
theorem closedItems_sound
    (hitem : ∀ {cursor last : Cursor} {node : Node}, item cursor = .ok node last →
      ∃ tokens, cursor.Passes tokens last ∧ phrase tokens node)
    {cursor last : Cursor} {nodes : List Node}
    (h : closedItems item cursor = .ok nodes last) :
    ∃ tokens closing, cursor.Passes (tokens ++ [closing]) last ∧ closing.kind = .closeParen ∧
      Phrase.Items phrase tokens nodes := by
  obtain ⟨place, hitems, hclosing, rfl⟩ := closedItems_eq_ok_iff.mp h
  obtain ⟨tokens, hpasses, hphrase⟩ := itemsAtMost_sound hitem hitems
  have hone := Cursor.Passes.one hclosing nofun
  exact ⟨tokens, place.current, Cursor.passes_append.mpr ⟨place, hpasses, hone⟩, hclosing, hphrase⟩

theorem itemsAtMost_complete {bound : Nat}
    (hitem : ∀ {cursor last : Cursor} {tokens : List Token} {node : Node}, phrase tokens node →
      tokens.length ≤ bound → cursor.Passes tokens last →
      last.current.kind = .comma ∨ last.current.kind = .closeParen → item cursor = .ok node last)
    (hstart : ∀ {tokens : List Token} {node : Node}, phrase tokens node →
      ∃ token rest, tokens = token :: rest ∧ token.kind ≠ .closeParen)
    {tokens : List Token} {nodes : List Node} (hitems : Phrase.Items phrase tokens nodes)
    {steps : Nat} {cursor last : Cursor} (hbound : tokens.length ≤ bound)
    (hsteps : tokens.length < steps) (hpasses : cursor.Passes tokens last)
    (hlast : last.current.kind = .closeParen) :
    itemsAtMost item steps cursor = .ok nodes last := by
  induction hitems generalizing steps cursor with
  | none =>
    obtain rfl := hpasses
    obtain ⟨steps, rfl⟩ := Nat.exists_eq_succ_of_ne_zero (Nat.ne_of_gt hsteps)
    rw [itemsAtMost_eq_ok_iff, if_pos hlast]
    exact ⟨rfl, rfl⟩
  | @last tokens node hphrase =>
    obtain ⟨steps, rfl⟩ := Nat.exists_eq_succ_of_ne_zero (Nat.ne_zero_of_lt hsteps)
    have hread := hitem hphrase hbound hpasses (Or.inr hlast)
    obtain ⟨token, rest, rfl, hkind⟩ := hstart hphrase
    rw [itemsAtMost_eq_ok_iff, if_neg (by rwa [hpasses.current_eq])]
    refine ⟨node, last, hread, ?_⟩
    rw [if_neg (by rw [hlast]; nofun)]
    exact ⟨rfl, rfl⟩
  | @more tokens rest comma node nodes hphrase hcomma hrest ih =>
    obtain ⟨steps, rfl⟩ := Nat.exists_eq_succ_of_ne_zero (Nat.ne_zero_of_lt hsteps)
    rw [List.length_append, List.length_cons] at hbound hsteps
    obtain ⟨place, hfirst, hhead, hrestPasses⟩ := Cursor.passes_append.mp hpasses
    have hplace : place.current.kind = .comma := by rw [Cursor.current_of_head? hhead, hcomma]
    have hread := hitem hphrase (by omega) hfirst (Or.inl hplace)
    obtain ⟨token, others, rfl, hkind⟩ := hstart hphrase
    rw [itemsAtMost_eq_ok_iff, if_neg (by rwa [hpasses.current_eq])]
    refine ⟨node, place, hread, ?_⟩
    rw [if_pos hplace]
    exact ⟨nodes, ih (by omega) (by omega) hrestPasses, rfl⟩

theorem closedItems_complete {bound : Nat}
    (hitem : ∀ {cursor last : Cursor} {tokens : List Token} {node : Node}, phrase tokens node →
      tokens.length ≤ bound → cursor.Passes tokens last →
      last.current.kind = .comma ∨ last.current.kind = .closeParen → item cursor = .ok node last)
    (hstart : ∀ {tokens : List Token} {node : Node}, phrase tokens node →
      ∃ token rest, tokens = token :: rest ∧ token.kind ≠ .closeParen)
    {tokens : List Token} {nodes : List Node} (hitems : Phrase.Items phrase tokens nodes)
    {closing : Token} {cursor last : Cursor} (hbound : tokens.length ≤ bound)
    (hclosing : closing.kind = .closeParen) (hpasses : cursor.Passes (tokens ++ [closing]) last) :
    closedItems item cursor = .ok nodes last := by
  obtain ⟨place, hplace, hhead, rfl⟩ := Cursor.passes_append.mp hpasses
  have hkind : place.current.kind = .closeParen := by rw [Cursor.current_of_head? hhead, hclosing]
  have hsteps : tokens.length < cursor.budget := Nat.lt_succ_of_le hplace.length_le
  have hread := itemsAtMost_complete hitem hstart hitems hbound hsteps hplace hkind
  exact closedItems_eq_ok_iff.mpr ⟨place, hread, hkind, rfl⟩

end Items

/-! ### Readers of expressions -/

/-- The reader reads expressions whose operators bind tighter than the given power, up to a token
that does not. It reads all those of up to `depth` tokens, unless the power keeps it from calls. -/
structure ReadsExpressions (depth : Nat) (inner : BindingPower → Parse Node) : Prop where
  sound : ∀ {power : BindingPower} {cursor last : Cursor} {node : Node},
    inner power cursor = .ok node last →
      ∃ tokens, cursor.Passes tokens last ∧ Phrase.Expression power.rank tokens node ∧
        Grammar.tightness last ≤ power.rank
  complete : ∀ {power : BindingPower} {cursor last : Cursor} {tokens : List Token} {node : Node},
    power.rank < BindingPower.call.rank → Phrase.Expression power.rank tokens node →
    tokens.length ≤ depth → cursor.Passes tokens last → Grammar.tightness last ≤ power.rank →
      inner power cursor = .ok node last

section Forms

variable {depth : Nat} {inner : BindingPower → Parse Node}

theorem argument_sound (hinner : ReadsExpressions depth inner) {cursor last : Cursor} {node : Node}
    (h : argument inner cursor = .ok node last) :
    ∃ tokens, cursor.Passes tokens last ∧ Phrase.Argument (Phrase.Expression 0) tokens node := by
  obtain ⟨expression, place, hexpression, hrest⟩ := argument_eq_ok_iff.mp h
  obtain ⟨tokens, hpasses, hphrase, -⟩ := hinner.sound hexpression
  split at hrest
  · next hkeyword =>
    obtain ⟨value, hvalue, rfl⟩ := hrest
    obtain ⟨span, rfl⟩ := Node.eq_leaf_of_isIdentifier hkeyword.1
    obtain ⟨name, hname, rfl, rfl⟩ := hphrase.of_identifier
    have hsign := Cursor.Passes.one hkeyword.2 nofun
    obtain ⟨valueTokens, hvaluePasses, hvaluePhrase, -⟩ := hinner.sound hvalue
    have hall : cursor.Passes ([name] ++ place.current :: valueTokens) last :=
      Cursor.passes_append.mpr ⟨place, hpasses, hsign.1, hvaluePasses⟩
    refine ⟨name :: place.current :: valueTokens, hall, ?_⟩
    rw [hall.spanFrom_eq (List.cons_ne_nil _ _)]
    exact .keyword hname hkeyword.2 hvaluePhrase
  · obtain ⟨rfl, rfl⟩ := hrest
    exact ⟨tokens, hpasses, .positional hphrase⟩

theorem argument_complete (hinner : ReadsExpressions depth inner) {cursor last : Cursor}
    {tokens : List Token} {node : Node}
    (hargument : Phrase.Argument (Phrase.Expression 0) tokens node) (hdepth : tokens.length ≤ depth)
    (hpasses : cursor.Passes tokens last)
    (hlast : last.current.kind = .comma ∨ last.current.kind = .closeParen) :
    argument inner cursor = .ok node last := by
  have hstops : Grammar.tightness last ≤ BindingPower.default.rank := by
    rcases hlast with hkind | hkind <;> exact Nat.le_of_eq (Grammar.tightness_eq_zero hkind rfl)
  rw [argument_eq_ok_iff]
  cases hargument with
  | positional hvalue =>
    have hread := hinner.complete BindingPower.default_lt_call hvalue hdepth hpasses hstops
    refine ⟨node, last, hread, ?_⟩
    rw [if_neg]
    · exact ⟨rfl, rfl⟩
    · rintro ⟨-, hsign⟩
      rcases hlast with hkind | hkind <;> rw [hkind] at hsign <;> cases hsign
  | @keyword name sign tokens node hname hsign hvalue =>
    rw [List.length_cons, List.length_cons] at hdepth
    obtain ⟨hnameHead, hsignHead, hvaluePasses⟩ := id hpasses
    have hplace : cursor.next.current.kind = .assignment := by
      rw [Cursor.current_of_head? hsignHead, hsign]
    have hnameRead : inner .default cursor = .ok (.leaf .identifier name.span) cursor.next := by
      refine hinner.complete BindingPower.default_lt_call (.identifier hname) ?_ ⟨hnameHead, rfl⟩ ?_
      · show 1 ≤ depth
        omega
      · exact Nat.le_of_eq (Grammar.tightness_eq_zero hplace rfl)
    refine ⟨_, cursor.next, hnameRead, ?_⟩
    rw [if_pos ⟨rfl, hplace⟩]
    have hread := hinner.complete BindingPower.default_lt_call hvalue (by omega) hvaluePasses hstops
    refine ⟨node, hread, ?_⟩
    rw [hpasses.spanFrom_eq (List.cons_ne_nil _ _)]
    rfl

/-- An argument does not start with a closing parenthesis. -/
theorem argument_start {tokens : List Token} {node : Node}
    (h : Phrase.Argument (Phrase.Expression 0) tokens node) :
    ∃ token rest, tokens = token :: rest ∧ token.kind ≠ .closeParen := by
  cases h with
  | positional hvalue =>
    obtain ⟨token, rest, rfl, hstart⟩ := hvalue.start
    refine ⟨token, rest, rfl, fun hkind ↦ ?_⟩
    rw [hkind] at hstart
    rcases hstart with hopening | ⟨kind, hleaf⟩
    · cases hopening
    · cases hleaf
  | keyword hname hsign hvalue => exact ⟨_, _, rfl, by rw [hname]; nofun⟩

/-- The rest of a call, from the opening parenthesis on. -/
theorem call_sound (hinner : ReadsExpressions depth inner) {cursor last : Cursor}
    {callee node : Node} (hopening : cursor.current.kind = .openParen)
    (h : call inner callee cursor = .ok node last) :
    ∃ nodes tokens closing, callee.isIdentifier = true ∧
      cursor.Passes (cursor.current :: (tokens ++ [closing])) last ∧ closing.kind = .closeParen ∧
      Phrase.Items (Phrase.Argument (Phrase.Expression 0)) tokens nodes ∧
      .call (last.spanFrom callee.span.start) callee nodes = node := by
  obtain ⟨hcallee, nodes, hnodes, rfl⟩ := call_eq_ok_iff.mp h
  have hone := Cursor.Passes.one hopening nofun
  obtain ⟨tokens, closing, hpasses, hclosing, hitems⟩ :=
    closedItems_sound (argument_sound hinner) hnodes
  exact ⟨nodes, tokens, closing, hcallee, ⟨hone.1, hpasses⟩, hclosing, hitems, rfl⟩

theorem call_complete (hinner : ReadsExpressions depth inner) {cursor last : Cursor}
    (callee : Node) {opening closing : Token} {tokens : List Token} {nodes : List Node}
    (hcallee : callee.isIdentifier = true)
    (hitems : Phrase.Items (Phrase.Argument (Phrase.Expression 0)) tokens nodes)
    (hdepth : tokens.length ≤ depth) (hclosing : closing.kind = .closeParen)
    (hpasses : cursor.Passes (opening :: (tokens ++ [closing])) last) :
    call inner callee cursor = .ok (.call (last.spanFrom callee.span.start) callee nodes) last := by
  have hread := closedItems_complete (argument_complete hinner) argument_start hitems hdepth
    hclosing hpasses.2
  exact call_eq_ok_iff.mpr ⟨hcallee, nodes, hread, rfl⟩

/-- An operand binds as tightly as one likes. -/
theorem operand_sound (hinner : ReadsExpressions depth inner) {cursor last : Cursor} {node : Node}
    {form : OperandForm}
    (hform : Grammar.standard.operand cursor.current.kind = some form)
    (h : operand inner form cursor = .ok node last) :
    ∃ tokens, cursor.Passes tokens last ∧ ∀ least, Phrase.Expression least tokens node := by
  cases form with
  | primary =>
    obtain ⟨leafKind, hleaf, hnumber, rfl, rfl⟩ := primary_eq_ok_iff.mp h
    have hkind : cursor.current.kind ≠ .eof := by
      intro heof
      rw [heof] at hleaf
      cases hleaf
    have hone := Cursor.Passes.one rfl hkind
    exact ⟨[cursor.current], hone, fun least ↦ .leaf hleaf hnumber⟩
  | grouping =>
    have hopening := Grammar.openParen_of_operand hform
    obtain ⟨expression, place, hexpression, hclosing, rfl, rfl⟩ := grouping_eq_ok_iff.mp h
    have hone := Cursor.Passes.one hopening nofun
    obtain ⟨tokens, hpasses, hphrase, -⟩ := hinner.sound hexpression
    have hend := Cursor.Passes.one hclosing nofun
    have hall : cursor.Passes (cursor.current :: (tokens ++ [place.current])) place.next :=
      ⟨hone.1, Cursor.passes_append.mpr ⟨place, hpasses, hend⟩⟩
    rw [hall.spanFrom_eq (List.cons_ne_nil _ _)]
    exact ⟨_, hall, fun least ↦ .parenthesized hopening hphrase hclosing⟩

/-- The loop of extensions. What stands on the left binds at least as tightly as the operator that
comes next, so the two can be put together. -/
theorem extendAtMost_sound (hinner : ReadsExpressions depth inner) {least : BindingPower}
    {steps : Nat} {cursor last : Cursor} {left node : Node} {leftTokens : List Token}
    (hleft : Phrase.Expression least.rank leftTokens left)
    (hnext : ∀ precedence, precedence? cursor.current.kind = some precedence →
      Phrase.Expression precedence leftTokens left)
    (h : extendAtMost .standard inner least steps left cursor = .ok node last) :
    ∃ tokens, cursor.Passes tokens last ∧ Phrase.Expression least.rank (leftTokens ++ tokens) node ∧
      Grammar.tightness last ≤ least.rank := by
  induction steps generalizing cursor left leftTokens with
  | zero => exact (unexpected_ne_ok h).elim
  | succ steps ih =>
    rcases extendAtMost_eq_ok_iff.mp h with ⟨hstops, rfl, rfl⟩ | hextended
    · refine ⟨[], rfl, ?_, hstops⟩
      rw [List.append_nil]
      exact hleft
    · obtain ⟨power, form, longer, place, hform, hpower, hlonger, hrest⟩ := hextended
      have hkind : cursor.current.kind ≠ .eof := by
        intro heof
        rw [heof] at hform
        cases hform
      have hone := Cursor.Passes.one rfl hkind
      cases form with
      | binary =>
        obtain ⟨right, hright, rfl⟩ := binary_eq_ok_iff.mp hlonger
        obtain ⟨rightTokens, hpasses, hphrase, hstops⟩ := hinner.sound hright
        obtain ⟨precedence, hprecedence, hrank⟩ := Grammar.precedence?_of_extension hform
        rw [hrank] at hphrase hpower hstops
        have hlonger : ∀ less ≤ precedence, Phrase.Expression less
            (leftTokens ++ cursor.current :: rightTokens)
            (.binary ⟨left.span.start, right.span.stop⟩ left (.leaf .operator cursor.current.span)
              right) := by
          intro less hless
          rw [← hleft.cover_binary hphrase cursor.current]
          exact .binary hprecedence hless (hnext precedence hprecedence) hphrase
        obtain ⟨tokens, hmore, hexpression, hlast⟩ := ih (hlonger least.rank (by omega))
          (fun other hother ↦ hlonger other (by
            have hrankOther := Grammar.rank_power_of_precedence? hother
            unfold Grammar.tightness at hstops
            omega)) hrest
        refine ⟨cursor.current :: (rightTokens ++ tokens), ?_, ?_, hlast⟩
        · exact ⟨hone.1, Cursor.passes_append.mpr ⟨place, hpasses, hmore⟩⟩
        · rw [List.append_assoc, List.cons_append] at hexpression
          exact hexpression
      | call =>
        have hopening := Grammar.openParen_of_extension hform
        obtain ⟨nodes, arguments, closing, hcallee, hpasses, hclosing, hitems, rfl⟩ :=
          call_sound hinner hopening hlonger
        obtain ⟨span, rfl⟩ := Node.eq_leaf_of_isIdentifier hcallee
        obtain ⟨callee, hname, rfl, rfl⟩ := hleft.of_identifier
        have hlonger : ∀ less, Phrase.Expression less
            (callee :: cursor.current :: (arguments ++ [closing]))
            (.call (place.spanFrom callee.span.start) (.leaf .identifier callee.span) nodes) := by
          intro less
          rw [hpasses.spanFrom_eq (List.cons_ne_nil _ _)]
          exact .call hname hopening hitems hclosing
        obtain ⟨tokens, hmore, hexpression, hlast⟩ := ih
          (hlonger least.rank) (fun other _ ↦ hlonger other) hrest
        refine ⟨cursor.current :: (arguments ++ [closing]) ++ tokens, ?_, hexpression, hlast⟩
        exact Cursor.passes_append.mpr ⟨place, hpasses, hmore⟩

end Forms

/-! ### Expressions -/

/-- Reading a left operand leads to the loop of extensions with the operand in hand. Assumes: what
comes next does not bind tighter than what is read. -/
theorem expressionWithin_of_extendAtMost {depth : Nat}
    (hinner : ReadsExpressions depth (expressionWithin .standard depth)) {bound : Nat}
    {tokens : List Token} {node : Node} :
    Phrase.Expression bound tokens node → ∀ {least : BindingPower} {cursor place : Cursor},
      least.rank < BindingPower.call.rank → least.rank ≤ bound → tokens.length ≤ depth + 1 →
      cursor.Passes tokens place → Grammar.tightness place ≤ bound + 1 →
      ∃ steps, place.ahead.length < steps ∧ ∀ {final : Node} {last : Cursor},
        extendAtMost .standard (expressionWithin .standard depth) least steps node place =
            .ok final last →
          expressionWithin .standard (depth + 1) least cursor = .ok final last
  | .leaf hkind hnumber, least, cursor, place, _, _, _, ⟨hhead, hplace⟩, _ => by
    obtain rfl := hplace
    have hcurrent := Cursor.current_of_head? hhead
    subst hcurrent
    refine ⟨cursor.next.budget, Nat.lt_succ_self _, fun hextended ↦ ?_⟩
    have hread := primary_eq_ok_iff.mpr ⟨_, hkind, hnumber, rfl, rfl⟩
    exact expressionWithin_eq_ok_iff.mpr
      ⟨.primary, _, _, Grammar.operand_of_leafKind? hkind, hread, hextended⟩
  | .parenthesized hopening hphrase hclosing, least, cursor, place, _, _, hdepth, hpasses, _ => by
    obtain ⟨middle, hmiddle, hhead, rfl⟩ := Cursor.passes_append.mp hpasses.2
    have hcurrent := Cursor.current_of_head? hpasses.1
    have hmiddleCurrent := Cursor.current_of_head? hhead
    subst hcurrent hmiddleCurrent
    have hstops : Grammar.tightness middle ≤ BindingPower.default.rank :=
      Nat.le_of_eq (Grammar.tightness_eq_zero hclosing rfl)
    rw [List.length_cons, List.length_append] at hdepth
    have hexpression := hinner.complete BindingPower.default_lt_call hphrase (by omega) hmiddle
      hstops
    refine ⟨middle.next.budget, Nat.lt_succ_self _, fun hextended ↦ ?_⟩
    have hread := grouping_eq_ok_iff.mpr ⟨_, middle, hexpression, hclosing, rfl, rfl⟩
    rw [hpasses.spanFrom_eq (List.cons_ne_nil _ _)] at hread
    have hform : Grammar.standard.operand cursor.current.kind = some .grouping := by
      rw [hopening]
      rfl
    exact expressionWithin_eq_ok_iff.mpr ⟨.grouping, _, _, hform, hread, hextended⟩
  | .call hcallee hopening harguments hclosing, least, cursor, place, hcall, _, hdepth, hpasses,
      _ => by
    obtain ⟨hhead, hopened⟩ := hpasses
    have hcurrent := Cursor.current_of_head? hhead
    have hnext := Cursor.current_of_head? hopened.1
    subst hcurrent hnext
    have hleaf : leafKind? cursor.current.kind = some .identifier := by rw [hcallee]; rfl
    have hname := primary_eq_ok_iff.mpr ⟨.identifier, hleaf, by rw [hcallee]; nofun, rfl, rfl⟩
    rw [List.length_cons, List.length_cons, List.length_append] at hdepth
    have hread := call_complete hinner (.leaf .identifier cursor.current.span) rfl harguments
      (by omega) hclosing hopened
    rw [hopened.spanFrom_eq (List.cons_ne_nil _ _)] at hread
    have hshorter := hopened.ahead_eq
    refine ⟨cursor.next.ahead.length, ?_, fun hextended ↦ ?_⟩
    · rw [hshorter, List.cons_append, List.length_cons, List.length_append]
      omega
    · have hform : Grammar.standard.extension cursor.next.current.kind = some (.call, .call) := by
        rw [hopening]
        rfl
      refine expressionWithin_eq_ok_iff.mpr
        ⟨.primary, _, _, Grammar.operand_of_leafKind? hleaf, hname, ?_⟩
      exact extendAtMost_eq_ok_iff.mpr
        (Or.inr ⟨.call, .call, _, place, hform, hcall, hread, hextended⟩)
  | .binary hoperator hleast hleft hright, least, cursor, place, hleastCall, hbound, hdepth,
      hpasses, hstops => by
    obtain ⟨operatorPlace, hleftPasses, hhead, hrightPasses⟩ := Cursor.passes_append.mp hpasses
    have hcurrent := Cursor.current_of_head? hhead
    subst hcurrent
    rw [List.length_append, List.length_cons] at hdepth
    obtain ⟨power, hform, hrank, hcall⟩ := Grammar.extension_of_precedence? hoperator
    have hoperatorStops : Grammar.tightness operatorPlace ≤ _ + 1 :=
      Nat.le_of_eq (Grammar.rank_power_of_precedence? hoperator)
    obtain ⟨steps, hsteps, hleftRead⟩ := expressionWithin_of_extendAtMost hinner hleft
      hleastCall (Nat.le_trans hbound hleast) (by omega) hleftPasses hoperatorStops
    obtain ⟨steps, rfl⟩ := Nat.exists_eq_succ_of_ne_zero (Nat.ne_zero_of_lt hsteps)
    have hshorter : place.ahead.length < operatorPlace.ahead.length := by
      have hright : operatorPlace.Passes (operatorPlace.current :: _) place := ⟨hhead, hrightPasses⟩
      rw [hright.ahead_eq, List.length_append, List.length_cons]
      omega
    refine ⟨steps, by omega, fun hextended ↦ hleftRead ?_⟩
    have hrightRead := hinner.complete hcall (hrank ▸ hright) (by omega) hrightPasses (by omega)
    refine extendAtMost_eq_ok_iff.mpr (Or.inr
      ⟨power, .binary, _, place, hform, by omega, binary_eq_ok_iff.mpr ⟨_, hrightRead, rfl⟩, ?_⟩)
    rw [← hleft.cover_binary hright operatorPlace.current]
    exact hextended
termination_by tokens.length
decreasing_by
  rw [List.length_append, List.length_cons]
  omega

/-- The reader of expressions reads the expressions of the grammar. -/
theorem readsExpressions_expressionWithin (depth : Nat) :
    ReadsExpressions depth (expressionWithin .standard depth) := by
  induction depth with
  | zero =>
    refine ⟨fun h ↦ (unexpected_ne_ok h).elim, fun _ hphrase hdepth ↦ ?_⟩
    exact (hphrase.ne_nil (List.length_eq_zero_iff.mp (Nat.le_zero.mp hdepth))).elim
  | succ depth ih =>
    constructor
    · intro power cursor last node h
      obtain ⟨form, left, place, hform, hleft, hrest⟩ := expressionWithin_eq_ok_iff.mp h
      obtain ⟨leftTokens, hleftPasses, hleftPhrase⟩ := operand_sound ih hform hleft
      obtain ⟨tokens, hpasses, hphrase, hstops⟩ := extendAtMost_sound ih
        (hleftPhrase _) (fun precedence _ ↦ hleftPhrase precedence) hrest
      refine ⟨leftTokens ++ tokens, ?_, hphrase, hstops⟩
      exact Cursor.passes_append.mpr ⟨place, hleftPasses, hpasses⟩
    · intro power cursor last tokens node hcall hphrase hdepth hpasses hstops
      obtain ⟨steps, hsteps, hread⟩ := expressionWithin_of_extendAtMost ih hphrase hcall
        (Nat.le_refl _) hdepth hpasses (Nat.le_succ_of_le hstops)
      obtain ⟨steps, rfl⟩ := Nat.exists_eq_succ_of_ne_zero (Nat.ne_zero_of_lt hsteps)
      exact hread (extendAtMost_eq_ok_iff.mpr (Or.inl ⟨hstops, rfl, rfl⟩))

/-- What is read as an expression is one, before a token that does not extend it. -/
theorem expression_sound {cursor last : Cursor} {node : Node}
    (h : expression .standard .default cursor = .ok node last) :
    ∃ tokens, cursor.Passes tokens last ∧ Phrase.Expression 0 tokens node ∧
      Grammar.tightness last = 0 := by
  obtain ⟨tokens, hpasses, hphrase, hstops⟩ :=
    (readsExpressions_expressionWithin cursor.budget).sound h
  exact ⟨tokens, hpasses, hphrase, Nat.le_zero.mp hstops⟩

/-- Every expression before a token that does not extend it is read. -/
theorem expression_complete {cursor last : Cursor} {tokens : List Token} {node : Node}
    (hphrase : Phrase.Expression 0 tokens node) (hpasses : cursor.Passes tokens last)
    (hstops : Grammar.tightness last = 0) :
    expression .standard .default cursor = .ok node last :=
  (readsExpressions_expressionWithin cursor.budget).complete BindingPower.default_lt_call hphrase
    (Nat.le_succ_of_le hpasses.length_le) hpasses (Nat.le_of_eq hstops)

end Parse

end Presage
