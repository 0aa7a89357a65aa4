import Presage.Proofs.ExpressionReading
import Presage.Proofs.Outcomes
import Presage.Token.Scan

/-!
The reader of statements reads exactly the statements of the grammar, and the reader of token
streams exactly its programs. `ReadsStatements depth` says so of a reader for statements of up to
`depth` tokens, and is proved of `statementWithin` by induction on the depth. The bodies of
functions and loops are read by one repetition, with its own rule for going on in each case:
`whileAtMost_sound` and `whileAtMost_complete` relate it to statements one after the other.

A statement can be read only if the token after it does not extend an expression. That is so of the
tokens that start a statement, of the closing brace and of the end of the stream. A function body is
the only part that ends without a mark of its own, so the token after it is part of the phrase.
-/

set_option autoImplicit false
set_option relaxedAutoImplicit false

namespace Presage

open Phrase (cover)

namespace Parse

/-- The reader reads statements before the token that comes next, and all those of up to `depth`
tokens before a token that does not extend an expression. -/
structure ReadsStatements (depth : Nat) (inner : Parse Node) : Prop where
  sound : ∀ {cursor last : Cursor} {node : Node}, inner cursor = .ok node last →
    ∃ tokens, cursor.Passes tokens last ∧ Phrase.Statement last.current tokens node
  complete : ∀ {cursor last : Cursor} {tokens : List Token} {node : Node},
    Phrase.Statement last.current tokens node → tokens.length ≤ depth →
    cursor.Passes tokens last → Grammar.tightness last = 0 → inner cursor = .ok node last

/-! ### Repeated statements -/

section Repetition

variable {depth : Nat} {inner : Parse Node} {continues : Cursor → Bool}

theorem whileAtMost_sound (hinner : ReadsStatements depth inner) {good : Node → Prop}
    (hgood : ∀ {cursor : Cursor} {node : Node}, continues cursor = true →
      node.span.start = cursor.position → good node)
    {steps : Nat} {cursor last : Cursor} {nodes : List Node}
    (h : whileAtMost continues inner steps cursor = .ok nodes last) :
    ∃ tokens, cursor.Passes tokens last ∧ Phrase.Statements last.current tokens nodes ∧
      (∀ node ∈ nodes, good node) ∧ continues last = false := by
  induction steps generalizing cursor nodes with
  | zero => exact (unexpected_ne_ok h).elim
  | succ steps ih =>
    rw [whileAtMost_eq_ok_iff] at h
    split at h
    · next hcontinues =>
      obtain ⟨first, place, hfirst, rest, hrest, rfl⟩ := h
      obtain ⟨tokens, hpasses, hstatement⟩ := hinner.sound hfirst
      obtain ⟨others, hothers, hstatements, hall, hlast⟩ := ih hrest
      have hfirstGood : good first := by
        obtain ⟨token, remaining, rfl, -, hspan⟩ := hstatement.start
        refine hgood hcontinues ?_
        unfold Cursor.position
        rw [hspan, hpasses.current_eq]
        rfl
      rw [hothers.current_eq] at hstatement
      refine ⟨tokens ++ others, Cursor.passes_append.mpr ⟨place, hpasses, hothers⟩,
        .cons hstatement hstatements, ?_, hlast⟩
      exact List.forall_mem_cons.mpr ⟨hfirstGood, hall⟩
    · next hcontinues =>
      obtain ⟨rfl, rfl⟩ := h
      exact ⟨[], rfl, .nil, nofun, Bool.eq_false_iff.mpr hcontinues⟩

theorem repeatWhile_sound (hinner : ReadsStatements depth inner) {cursor last : Cursor}
    {nodes : List Node}
    (h : repeatWhile continues inner cursor = .ok nodes last) :
    ∃ tokens, cursor.Passes tokens last ∧ Phrase.Statements last.current tokens nodes ∧
      continues last = false := by
  have hgood : ∀ {place : Cursor} {node : Node}, continues place = true →
      node.span.start = place.position → True := fun _ _ ↦ trivial
  obtain ⟨tokens, hpasses, hstatements, -, hlast⟩ := whileAtMost_sound hinner hgood h
  exact ⟨tokens, hpasses, hstatements, hlast⟩

/-- A token that starts a statement does not extend an expression. -/
theorem tightness_of_startsStatement {cursor : Cursor}
    (h : Phrase.startsStatement cursor.current.kind = true) : Grammar.tightness cursor = 0 := by
  cases hkind : cursor.current.kind with
  | kwLet | identifier | kwPrint | kwReturn | kwYield | kwCompare | kwDefine | kwFor =>
    exact Grammar.tightness_eq_zero hkind rfl
  | _ =>
    rw [hkind] at h
    cases h

theorem whileAtMost_complete (hinner : ReadsStatements depth inner) {tokens : List Token}
    {nodes : List Node} {steps : Nat} {cursor last : Cursor}
    (hstatements : Phrase.Statements last.current tokens nodes) (hdepth : tokens.length ≤ depth)
    (hsteps : tokens.length < steps) (hpasses : cursor.Passes tokens last)
    (hstops : Grammar.tightness last = 0)
    (hcontinues : ∀ {place : Cursor},
      Phrase.startsStatement place.current.kind = true →
      (∃ node ∈ nodes, node.span.start = place.position) → continues place = true)
    (hlast : continues last = false) :
    whileAtMost continues inner steps cursor = .ok nodes last := by
  induction nodes generalizing tokens steps cursor with
  | nil =>
    obtain ⟨steps, rfl⟩ := Nat.exists_eq_succ_of_ne_zero (Nat.ne_zero_of_lt hsteps)
    cases hstatements with
    | nil =>
      obtain rfl := hpasses
      rw [whileAtMost_eq_ok_iff, if_neg (Bool.eq_false_iff.mp hlast)]
      exact ⟨rfl, rfl⟩
  | cons node nodes ih =>
    obtain ⟨steps, rfl⟩ := Nat.exists_eq_succ_of_ne_zero (Nat.ne_zero_of_lt hsteps)
    cases hstatements with
    | @cons _ first rest _ _ hfirst hrest =>
      obtain ⟨place, hfirstPasses, hrestPasses⟩ := Cursor.passes_append.mp hpasses
      rw [List.length_append] at hdepth hsteps
      rw [← hrestPasses.current_eq] at hfirst
      -- Behind the first statement another one starts, or all of them end.
      have hplaceStops : Grammar.tightness place = 0 := by
        cases hrest with
        | nil =>
          obtain rfl := hrestPasses
          exact hstops
        | cons hsecond hothers =>
          obtain ⟨token, remaining, rfl, hstart, -⟩ := hsecond.start
          refine tightness_of_startsStatement ?_
          rw [hrestPasses.current_eq]
          exact hstart
      obtain ⟨token, remaining, rfl, hstart, hspan⟩ := hfirst.start
      have hcurrent := hfirstPasses.current_eq
      have hgoes : continues cursor = true := by
        refine hcontinues ?_ ⟨node, List.mem_cons_self, ?_⟩
        · rw [hcurrent]
          exact hstart
        · unfold Cursor.position
          rw [hspan, hcurrent]
          rfl
      rw [whileAtMost_eq_ok_iff, if_pos hgoes]
      refine ⟨node, place, hinner.complete hfirst (by omega) hfirstPasses hplaceStops,
        nodes, ?_, rfl⟩
      refine ih hrest (by omega) ?_ hrestPasses ?_
      · rw [List.length_cons] at hsteps
        omega
      · intro other hstarts hnode
        obtain ⟨found, hfound, hposition⟩ := hnode
        exact hcontinues hstarts ⟨found, List.mem_cons_of_mem node hfound, hposition⟩

end Repetition

/-! ### Parameters -/

theorem parameter_sound {cursor last : Cursor} {node : Node}
    (h : parameter .standard cursor = .ok node last) :
    ∃ tokens, cursor.Passes tokens last ∧ Phrase.Parameter tokens node := by
  obtain ⟨hname, hrest⟩ := parameter_eq_ok_iff.mp h
  have hnameHead := Cursor.head?_ahead hname nofun
  split at hrest
  · next hsign =>
    obtain ⟨value, hvalue, rfl⟩ := hrest
    obtain ⟨tokens, hpasses, hphrase, -⟩ := expression_sound hvalue
    have hall : cursor.Passes (cursor.current :: cursor.next.current :: tokens) last :=
      ⟨hnameHead, Cursor.head?_ahead hsign nofun, hpasses⟩
    rw [hall.spanFrom_eq (List.cons_ne_nil _ _)]
    exact ⟨_, hall, .optional hname hsign hphrase⟩
  · obtain ⟨rfl, rfl⟩ := hrest
    have hall : cursor.Passes [cursor.current] cursor.next := ⟨hnameHead, rfl⟩
    rw [hall.spanFrom_eq (List.cons_ne_nil _ _)]
    exact ⟨_, hall, .required hname⟩

theorem parameter_complete {cursor last : Cursor} {tokens : List Token} {node : Node}
    (h : Phrase.Parameter tokens node) (hpasses : cursor.Passes tokens last)
    (hlast : last.current.kind = .comma ∨ last.current.kind = .closeParen) :
    parameter .standard cursor = .ok node last := by
  rw [parameter_eq_ok_iff]
  cases h with
  | required hname =>
    obtain ⟨hhead, rfl⟩ := id hpasses
    obtain rfl := Cursor.current_of_head? hhead
    refine ⟨hname, ?_⟩
    rw [if_neg (by rcases hlast with hkind | hkind <;> rw [hkind] <;> nofun)]
    rw [hpasses.spanFrom_eq (List.cons_ne_nil _ _)]
    exact ⟨rfl, rfl⟩
  | optional hname hsign hdefault =>
    obtain ⟨hhead, hsignHead, hdefaultPasses⟩ := id hpasses
    obtain rfl := Cursor.current_of_head? hhead
    obtain rfl := Cursor.current_of_head? hsignHead
    have hstops : Grammar.tightness last = 0 := by
      rcases hlast with hkind | hkind <;> exact Grammar.tightness_eq_zero hkind rfl
    refine ⟨hname, ?_⟩
    rw [if_pos hsign, hpasses.spanFrom_eq (List.cons_ne_nil _ _)]
    exact ⟨_, expression_complete hdefault hdefaultPasses hstops, rfl⟩

/-- A parameter does not start with a closing parenthesis. -/
theorem parameter_start {tokens : List Token} {node : Node} (h : Phrase.Parameter tokens node) :
    ∃ token rest, tokens = token :: rest ∧ token.kind ≠ .closeParen := by
  cases h with
  | required hname => exact ⟨_, _, rfl, by rw [hname]; nofun⟩
  | optional hname hsign hdefault => exact ⟨_, _, rfl, by rw [hname]; nofun⟩

theorem parameters_complete {tokens : List Token} {nodes : List Node}
    (hitems : Phrase.Items Phrase.Parameter tokens nodes) {closing : Token} {cursor last : Cursor}
    (hclosing : closing.kind = .closeParen) (hpasses : cursor.Passes (tokens ++ [closing]) last) :
    closedItems (parameter .standard) cursor = .ok nodes last :=
  closedItems_complete (fun hparameter _ hparameterPasses ↦
    parameter_complete hparameter hparameterPasses) parameter_start hitems (Nat.le_refl _) hclosing
    hpasses

/-! ### Statements with statements inside -/

/-- The rule for going on with a function body, in terms of the current token. -/
theorem inBody_iff {defineToken thenToken : Token} {cursor : Cursor} :
    inBody defineToken thenToken cursor = true ↔
      cursor.current.kind ≠ .eof ∧ cursor.current.kind ≠ .closeCurly ∧
        Phrase.Inside defineToken thenToken cursor.position := by
  unfold inBody Phrase.Inside
  rw [Bool.and_eq_true, Bool.and_eq_true, Bool.or_eq_true, Cursor.hasTokens_iff, bne_iff_ne,
    beq_iff_eq, decide_eq_true_eq, and_assoc]

section Forms

variable {depth : Nat} {inner : Parse Node} {cursor last : Cursor}

/-- What is read as the body of a function is statements inside of it, and the token after them is
outside or closes the block around the function. -/
theorem functionBody_sound (hinner : ReadsStatements depth inner) {defineToken thenToken : Token}
    {body : List Node}
    (h : repeatWhile (inBody defineToken thenToken) inner cursor = .ok body last) :
    ∃ tokens, cursor.Passes tokens last ∧ Phrase.Statements last.current tokens body ∧
      (∀ node ∈ body, Phrase.Inside defineToken thenToken node.span.start) ∧
      (last.current.kind = .eof ∨ last.current.kind = .closeCurly ∨
        ¬ Phrase.Inside defineToken thenToken last.current.span.start) := by
  have hgood : ∀ {place : Cursor} {node : Node},
      inBody defineToken thenToken place = true → node.span.start = place.position →
      Phrase.Inside defineToken thenToken node.span.start := by
    intro place node hcontinues hstart
    rw [hstart]
    exact (inBody_iff.mp hcontinues).2.2
  obtain ⟨tokens, hpasses, hstatements, hinside, hstops⟩ :=
    whileAtMost_sound hinner hgood h
  refine ⟨tokens, hpasses, hstatements, hinside, ?_⟩
  by_cases heof : last.current.kind = .eof
  · exact Or.inl heof
  · by_cases hcurly : last.current.kind = .closeCurly
    · exact Or.inr (Or.inl hcurly)
    · refine Or.inr (Or.inr fun hlast ↦ Bool.eq_false_iff.mp hstops ?_)
      exact inBody_iff.mpr ⟨heof, hcurly, hlast⟩

theorem functionBody_complete (hinner : ReadsStatements depth inner)
    {defineToken thenToken : Token} {tokens : List Token} {body : List Node}
    (hbody : Phrase.Statements last.current tokens body)
    (hinside : ∀ node ∈ body, Phrase.Inside defineToken thenToken node.span.start)
    (hnext : last.current.kind = .eof ∨ last.current.kind = .closeCurly ∨
      ¬ Phrase.Inside defineToken thenToken last.current.span.start)
    (hdepth : tokens.length ≤ depth) (hpasses : cursor.Passes tokens last)
    (hstops : Grammar.tightness last = 0) :
    repeatWhile (inBody defineToken thenToken) inner cursor = .ok body last := by
  have hcontinues : ∀ {place : Cursor},
      Phrase.startsStatement place.current.kind = true →
      (∃ node ∈ body, node.span.start = place.position) →
      inBody defineToken thenToken place = true := by
    rintro place hstarts ⟨node, hnode, hstart⟩
    refine inBody_iff.mpr ⟨?_, ?_, hstart ▸ hinside node hnode⟩
    · exact Phrase.kind_ne_of_startsStatement hstarts rfl
    · exact Phrase.kind_ne_of_startsStatement hstarts rfl
  have hlast : inBody defineToken thenToken last = false := by
    refine Bool.eq_false_iff.mpr fun hinBody ↦ ?_
    obtain ⟨heof, hcurly, hposition⟩ := inBody_iff.mp hinBody
    rcases hnext with hkind | hkind | houtside
    · exact heof hkind
    · exact hcurly hkind
    · exact houtside hposition
  exact whileAtMost_complete hinner hbody hdepth (Nat.lt_succ_of_le hpasses.length_le)
    hpasses hstops hcontinues hlast

theorem functionDefinition_sound (hinner : ReadsStatements depth inner) {node : Node}
    (hdefine : cursor.current.kind = .kwDefine)
    (h : functionDefinition .standard inner cursor = .ok node last) :
    ∃ tokens, cursor.Passes tokens last ∧ Phrase.Statement last.current tokens node := by
  obtain ⟨hname, hopening, parameters, place, hparameters, hthen, body, hbody, hnonempty, rfl⟩ :=
    functionDefinition_eq_ok_iff.mp h
  obtain ⟨parameterTokens, closing, hplace, hclosing, hitems⟩ :=
    closedItems_sound parameter_sound hparameters
  obtain ⟨tokens, hpasses, hstatements, hinside, hnext⟩ :=
    functionBody_sound hinner hbody
  have hall : cursor.Passes (cursor.current :: cursor.next.current :: cursor.next.next.current ::
      (parameterTokens ++ closing :: place.current :: tokens)) last := by
    refine ⟨Cursor.head?_ahead hdefine nofun, Cursor.head?_ahead hname nofun,
      Cursor.head?_ahead hopening nofun, ?_⟩
    rw [List.append_cons]
    exact Cursor.passes_append.mpr ⟨place, hplace, Cursor.head?_ahead hthen nofun, hpasses⟩
  rw [hall.spanFrom_eq (List.cons_ne_nil _ _)]
  exact ⟨_, hall, .functionDefinition hdefine hname hopening hitems hclosing hthen hstatements
    hnonempty hinside hnext⟩

theorem loopBody_complete (hinner : ReadsStatements depth inner) {tokens : List Token}
    {body : List Node}
    (hbody : Phrase.Statements last.current tokens body)
    (hcurly : last.current.kind = .closeCurly) (hdepth : tokens.length ≤ depth)
    (hpasses : cursor.Passes tokens last) :
    repeatWhile (fun cursor ↦ cursor.current.kind != .closeCurly) inner cursor = .ok body last := by
  refine whileAtMost_complete hinner hbody hdepth (Nat.lt_succ_of_le hpasses.length_le)
    hpasses (Grammar.tightness_eq_zero hcurly rfl) ?_ ?_
  · intro place hstarts _
    exact bne_iff_ne.mpr (Phrase.kind_ne_of_startsStatement hstarts rfl)
  · rw [hcurly]
    rfl

theorem predictiveLoop_sound (hinner : ReadsStatements depth inner) {node : Node}
    (hfor : cursor.current.kind = .kwFor)
    (h : predictiveLoop .standard inner cursor = .ok node last) :
    ∃ tokens, cursor.Passes tokens last ∧ Phrase.Statement last.current tokens node := by
  obtain ⟨hname, hin, hrange, hopening, low, first, hlow, hfirst, high, second, hhigh, hsecond,
    hpattern, hclosing, hcurly, body, place, hbody, hclosingCurly, rfl, rfl⟩ :=
      predictiveLoop_eq_ok_iff.mp h
  obtain ⟨lowTokens, hlowPasses, hlowPhrase, -⟩ := expression_sound hlow
  obtain ⟨highTokens, hhighPasses, hhighPhrase, -⟩ := expression_sound hhigh
  obtain ⟨tokens, hpasses, hstatements, -⟩ := repeatWhile_sound hinner hbody
  have hbodyPasses : second.Passes (second.current :: second.next.current ::
      second.next.next.current :: second.next.next.next.current :: (tokens ++ [place.current]))
      place.next := by
    refine ⟨Cursor.head?_ahead hsecond nofun, Cursor.head?_ahead hpattern nofun,
      Cursor.head?_ahead hclosing nofun,
      Cursor.head?_ahead hcurly nofun, ?_⟩
    have hend := Cursor.Passes.one hclosingCurly nofun
    exact Cursor.passes_append.mpr ⟨place, hpasses, hend⟩
  have hall : cursor.Passes (cursor.current :: cursor.next.current :: cursor.next.next.current ::
      cursor.next.next.next.current :: cursor.next.next.next.next.current ::
      (lowTokens ++ first.current :: (highTokens ++ second.current :: second.next.current ::
        second.next.next.current :: second.next.next.next.current ::
        (tokens ++ [place.current])))) place.next := by
    refine ⟨Cursor.head?_ahead hfor nofun, Cursor.head?_ahead hname nofun,
      Cursor.head?_ahead hin nofun, Cursor.head?_ahead hrange nofun,
      Cursor.head?_ahead hopening nofun, ?_⟩
    refine Cursor.passes_append.mpr ⟨first, hlowPasses, Cursor.head?_ahead hfirst nofun, ?_⟩
    exact Cursor.passes_append.mpr ⟨second, hhighPasses, hbodyPasses⟩
  rw [hall.spanFrom_eq (List.cons_ne_nil _ _)]
  exact ⟨_, hall, .predictiveLoop hfor hname hin hrange hopening hlowPhrase hfirst hhighPhrase
    hsecond hpattern hclosing hcurly hstatements hclosingCurly⟩

end Forms

/-! ### Statements of expressions -/

section Sound

variable {cursor last : Cursor} {node : Node}

theorem variableDeclaration_sound (hlet : cursor.current.kind = .kwLet)
    (h : variableDeclaration .standard cursor = .ok node last) :
    ∃ tokens, cursor.Passes tokens last ∧ Phrase.Statement last.current tokens node := by
  obtain ⟨hname, hsign, initializer, hvalue, rfl⟩ := variableDeclaration_eq_ok_iff.mp h
  obtain ⟨tokens, hpasses, hphrase, -⟩ := expression_sound hvalue
  have hall : cursor.Passes (cursor.current :: cursor.next.current :: cursor.next.next.current ::
      tokens) last :=
    ⟨Cursor.head?_ahead hlet nofun, Cursor.head?_ahead hname nofun, Cursor.head?_ahead hsign nofun,
      hpasses⟩
  rw [hall.spanFrom_eq (List.cons_ne_nil _ _)]
  exact ⟨_, hall, .variableDeclaration hlet hname hsign hphrase⟩

theorem comparison_sound (hcompare : cursor.current.kind = .kwCompare)
    (h : comparison .standard cursor = .ok node last) :
    ∃ tokens, cursor.Passes tokens last ∧ Phrase.Statement last.current tokens node := by
  obtain ⟨left, place, hleft, hto, right, hright, rfl⟩ := comparison_eq_ok_iff.mp h
  obtain ⟨leftTokens, hleftPasses, hleftPhrase, -⟩ := expression_sound hleft
  obtain ⟨rightTokens, hrightPasses, hrightPhrase, -⟩ := expression_sound hright
  have hall : cursor.Passes (cursor.current :: (leftTokens ++ place.current :: rightTokens))
      last := by
    refine ⟨Cursor.head?_ahead hcompare nofun, ?_⟩
    exact Cursor.passes_append.mpr ⟨place, hleftPasses, Cursor.head?_ahead hto nofun, hrightPasses⟩
  rw [hall.spanFrom_eq (List.cons_ne_nil _ _)]
  exact ⟨_, hall, .comparison hcompare hleftPhrase hto hrightPhrase⟩

theorem wordAndExpression_sound {build : Span → Node → Node}
    (hword : Phrase.wordStatement? cursor.current.kind = some build)
    (h : wordAndExpression .standard build cursor = .ok node last) :
    ∃ tokens, cursor.Passes tokens last ∧ Phrase.Statement last.current tokens node := by
  obtain ⟨value, hvalue, rfl⟩ := wordAndExpression_eq_ok_iff.mp h
  obtain ⟨tokens, hpasses, hphrase, -⟩ := expression_sound hvalue
  have hkind : cursor.current.kind ≠ .eof := by
    intro heof
    rw [heof] at hword
    cases hword
  have hall : cursor.Passes (cursor.current :: tokens) last :=
    ⟨Cursor.head?_ahead rfl hkind, hpasses⟩
  rw [hall.spanFrom_eq (List.cons_ne_nil _ _)]
  exact ⟨_, hall, .wordStatement hword hphrase⟩

theorem simpleStatement_sound
    (h : simpleStatement .standard cursor = .ok node last) :
    ∃ tokens, cursor.Passes tokens last ∧ Phrase.Statement last.current tokens node := by
  obtain ⟨hkind, first, place, hfirst, hrest⟩ := simpleStatement_eq_ok_iff.mp h
  obtain ⟨tokens, hpasses, hphrase, -⟩ := expression_sound hfirst
  rcases hrest with ⟨hidentifier, hsign, value, hvalue, rfl⟩ | ⟨⟨span, callee, arguments, rfl⟩,
    rfl, rfl⟩
  · obtain ⟨span, rfl⟩ := Node.eq_leaf_of_isIdentifier hidentifier
    obtain ⟨name, hname, rfl, rfl⟩ := hphrase.of_identifier
    obtain ⟨valueTokens, hvaluePasses, hvaluePhrase, -⟩ := expression_sound hvalue
    have hall : cursor.Passes ([name] ++ place.current :: valueTokens) last :=
      Cursor.passes_append.mpr ⟨place, hpasses, Cursor.head?_ahead hsign nofun, hvaluePasses⟩
    rw [hall.spanFrom_eq (List.cons_ne_nil _ _)]
    exact ⟨_, hall, .variableReassignment hname hsign hvaluePhrase⟩
  · exact ⟨tokens, hpasses, .call hphrase⟩

end Sound

/-! ### Statements -/

end Parse

/-- The word that a statement starts with. -/
def StatementForm.word : StatementForm → TokenKind
  | variableDeclaration => .kwLet
  | functionDefinition => .kwDefine
  | predictiveLoop => .kwFor
  | comparison => .kwCompare
  | print => .kwPrint
  | returnValue => .kwReturn
  | yieldValue => .kwYield

namespace Grammar

theorem word_of_statement {kind : TokenKind} {form : StatementForm}
    (h : standard.statement kind = some form) : kind = form.word := by
  cases kind <;> cases h <;> rfl

theorem statement_word (form : StatementForm) : standard.statement form.word = some form := by
  cases form <;> rfl

end Grammar

namespace Parse

theorem statementForm_sound {depth : Nat} {inner : Parse Node}
    (hinner : ReadsStatements depth inner) {cursor last : Cursor} {node : Node}
    {form : StatementForm}
    (hform : cursor.current.kind = form.word)
    (h : statementForm .standard inner form cursor = .ok node last) :
    ∃ tokens, cursor.Passes tokens last ∧ Phrase.Statement last.current tokens node := by
  cases form with
  | variableDeclaration => exact variableDeclaration_sound hform h
  | functionDefinition => exact functionDefinition_sound hinner hform h
  | predictiveLoop => exact predictiveLoop_sound hinner hform h
  | comparison => exact comparison_sound hform h
  | print | returnValue | yieldValue =>
    refine wordAndExpression_sound ?_ h
    rw [hform]
    rfl

/-- A statement with a word of its own is read in the form of that word. -/
theorem statementWithin_of_word {depth : Nat} {cursor : Cursor} (form : StatementForm)
    (h : cursor.current.kind = form.word) :
    statementWithin .standard (depth + 1) cursor =
      statementForm .standard (statementWithin .standard depth) form cursor := by
  refine statementWithin_of_form ?_
  rw [h]
  exact Grammar.statement_word form

theorem statementForm_of_wordStatement? {kind : TokenKind} {build : Span → Node → Node}
    (h : Phrase.wordStatement? kind = some build) :
    ∃ form : StatementForm, kind = form.word ∧
      ∀ inner, statementForm .standard inner form = wordAndExpression .standard build := by
  cases kind with
  | kwPrint =>
    cases h
    exact ⟨.print, rfl, fun _ ↦ rfl⟩
  | kwReturn =>
    cases h
    exact ⟨.returnValue, rfl, fun _ ↦ rfl⟩
  | kwYield =>
    cases h
    exact ⟨.yieldValue, rfl, fun _ ↦ rfl⟩
  | _ => cases h

theorem statementWithin_complete {depth : Nat}
    (hinner : ReadsStatements depth (statementWithin .standard depth)) {cursor last : Cursor}
    {tokens : List Token} {node : Node}
    (h : Phrase.Statement last.current tokens node) (hdepth : tokens.length ≤ depth + 1)
    (hpasses : cursor.Passes tokens last) (hstops : Grammar.tightness last = 0) :
    statementWithin .standard (depth + 1) cursor = .ok node last := by
  cases h with
  | variableDeclaration hword hname hsign hvalue =>
    obtain ⟨hwordHead, hnameHead, hsignHead, hvaluePasses⟩ := id hpasses
    obtain rfl := Cursor.current_of_head? hwordHead
    obtain rfl := Cursor.current_of_head? hnameHead
    obtain rfl := Cursor.current_of_head? hsignHead
    rw [statementWithin_of_word .variableDeclaration hword]
    have hread := expression_complete hvalue hvaluePasses hstops
    refine variableDeclaration_eq_ok_iff.mpr ⟨hname, hsign, _, hread, ?_⟩
    rw [hpasses.spanFrom_eq (List.cons_ne_nil _ _)]
    rfl
  | variableReassignment hname hsign hvalue =>
    obtain ⟨hnameHead, hsignHead, hvaluePasses⟩ := id hpasses
    obtain rfl := Cursor.current_of_head? hnameHead
    obtain rfl := Cursor.current_of_head? hsignHead
    rw [statementWithin_of_none (by rw [hname]; rfl)]
    have hnameRead := expression_complete (.identifier hname) ⟨hnameHead, rfl⟩
      (Grammar.tightness_eq_zero hsign rfl)
    have hread := expression_complete hvalue hvaluePasses hstops
    refine simpleStatement_eq_ok_iff.mpr
      ⟨hname, _, cursor.next, hnameRead, Or.inl ⟨rfl, hsign, _, hread, ?_⟩⟩
    rw [hpasses.spanFrom_eq (List.cons_ne_nil _ _)]
    rfl
  | call hcall =>
    -- The reader tells a call from a reassignment by the expression it has read.
    have hread := expression_complete hcall hpasses hstops
    have hkind : cursor.current.kind = .identifier := by
      cases hcall with
      | call hcallee =>
        rw [hpasses.current_eq]
        exact hcallee
    rw [statementWithin_of_none (by rw [hkind]; rfl)]
    exact simpleStatement_eq_ok_iff.mpr
      ⟨hkind, _, last, hread, Or.inr ⟨⟨_, _, _, rfl⟩, rfl, rfl⟩⟩
  | wordStatement hword hvalue =>
    obtain ⟨hwordHead, hvaluePasses⟩ := id hpasses
    obtain rfl := Cursor.current_of_head? hwordHead
    obtain ⟨form, hform, hreader⟩ := statementForm_of_wordStatement? hword
    rw [statementWithin_of_word form hform, hreader]
    refine wordAndExpression_eq_ok_iff.mpr ⟨_, expression_complete hvalue hvaluePasses hstops, ?_⟩
    rw [hpasses.spanFrom_eq (List.cons_ne_nil _ _)]
    rfl
  | comparison hword hleft hto hright =>
    obtain ⟨hwordHead, hrest⟩ := id hpasses
    obtain ⟨place, hleftPasses, htoHead, hrightPasses⟩ := Cursor.passes_append.mp hrest
    obtain rfl := Cursor.current_of_head? hwordHead
    obtain rfl := Cursor.current_of_head? htoHead
    rw [statementWithin_of_word .comparison hword]
    have hleftRead := expression_complete hleft hleftPasses (Grammar.tightness_eq_zero hto rfl)
    have hrightRead := expression_complete hright hrightPasses hstops
    refine comparison_eq_ok_iff.mpr ⟨_, place, hleftRead, hto, _, hrightRead, ?_⟩
    rw [hpasses.spanFrom_eq (List.cons_ne_nil _ _)]
    rfl
  | functionDefinition hdefine hname hopening hparameters hclosing hthen hbody hnonempty hinside
      hnext =>
    obtain ⟨hdefineHead, hnameHead, hopeningHead, hrest⟩ := id hpasses
    -- The parameters are read with the parenthesis that closes them.
    rw [List.append_cons] at hrest
    obtain ⟨place, hplace, hthenHead, hbodyPasses⟩ := Cursor.passes_append.mp hrest
    obtain rfl := Cursor.current_of_head? hdefineHead
    obtain rfl := Cursor.current_of_head? hnameHead
    obtain rfl := Cursor.current_of_head? hopeningHead
    obtain rfl := Cursor.current_of_head? hthenHead
    simp only [List.length_cons, List.length_append] at hdepth
    have hparametersRead := parameters_complete hparameters hclosing hplace
    have hbodyRead := functionBody_complete hinner hbody hinside hnext (by omega)
      hbodyPasses hstops
    rw [statementWithin_of_word .functionDefinition hdefine]
    refine functionDefinition_eq_ok_iff.mpr
      ⟨hname, hopening, _, place, hparametersRead, hthen, _, hbodyRead, hnonempty, ?_⟩
    rw [hpasses.spanFrom_eq (List.cons_ne_nil _ _)]
    rfl
  | predictiveLoop hfor hname hin hrange hopening hlow hfirst hhigh hsecond hpattern hclosing
      hopeningCurly hbody hclosingCurly =>
    obtain ⟨hforHead, hnameHead, hinHead, hrangeHead, hopeningHead, hrest⟩ := id hpasses
    obtain ⟨first, hlowPasses, hfirstHead, hrest⟩ := Cursor.passes_append.mp hrest
    obtain ⟨second, hhighPasses, hsecondHead, hpatternHead, hclosingHead, hcurlyHead, hrest⟩ :=
      Cursor.passes_append.mp hrest
    obtain ⟨place, hbodyPasses, hendHead, rfl⟩ := Cursor.passes_append.mp hrest
    obtain rfl := Cursor.current_of_head? hforHead
    obtain rfl := Cursor.current_of_head? hnameHead
    obtain rfl := Cursor.current_of_head? hinHead
    obtain rfl := Cursor.current_of_head? hrangeHead
    obtain rfl := Cursor.current_of_head? hopeningHead
    obtain rfl := Cursor.current_of_head? hfirstHead
    obtain rfl := Cursor.current_of_head? hsecondHead
    obtain rfl := Cursor.current_of_head? hpatternHead
    obtain rfl := Cursor.current_of_head? hclosingHead
    obtain rfl := Cursor.current_of_head? hcurlyHead
    obtain rfl := Cursor.current_of_head? hendHead
    simp only [List.length_cons, List.length_append] at hdepth
    have hlowRead := expression_complete hlow hlowPasses (Grammar.tightness_eq_zero hfirst rfl)
    have hhighRead := expression_complete hhigh hhighPasses (Grammar.tightness_eq_zero hsecond rfl)
    have hbodyRead := loopBody_complete hinner hbody hclosingCurly (by omega)
      hbodyPasses
    rw [statementWithin_of_word .predictiveLoop hfor]
    refine predictiveLoop_eq_ok_iff.mpr
      ⟨hname, hin, hrange, hopening, _, first, hlowRead, hfirst, _, second, hhighRead, hsecond,
        hpattern, hclosing, hopeningCurly, _, place, hbodyRead, hclosingCurly, ?_, rfl⟩
    rw [hpasses.spanFrom_eq (List.cons_ne_nil _ _)]
    rfl

/-- The reader of statements reads the statements of the grammar. -/
theorem readsStatements_statementWithin (depth : Nat) :
    ReadsStatements depth (statementWithin .standard depth) := by
  induction depth with
  | zero =>
    refine ⟨fun h ↦ (unexpected_ne_ok h).elim, fun hstatement hdepth ↦ ?_⟩
    obtain ⟨token, rest, rfl, -⟩ := hstatement.start
    exact (Nat.not_succ_le_zero rest.length hdepth).elim
  | succ depth ih =>
    refine ⟨fun {cursor last node} h ↦ ?_, statementWithin_complete ih⟩
    cases hform : Grammar.standard.statement cursor.current.kind with
    | none =>
      rw [statementWithin_of_none hform] at h
      exact simpleStatement_sound h
    | some form =>
      rw [statementWithin_of_form hform] at h
      exact statementForm_sound ih (Grammar.word_of_statement hform) h

theorem readsStatements_statement (depth : Nat) : ReadsStatements depth (statement .standard) := by
  constructor
  · intro cursor last node h
    exact (readsStatements_statementWithin cursor.budget).sound h
  · intro cursor last tokens node hstatement _ hpasses hstops
    exact (readsStatements_statementWithin cursor.budget).complete hstatement
      (Nat.le_succ_of_le hpasses.length_le) hpasses hstops

/-- The statements up to the end of the stream are those that its tokens spell. -/
theorem statements_eq_ok_iff (cursor : Cursor) (nodes : List Node) :
    (∃ last, statements .standard cursor = .ok nodes last) ↔
      Phrase.Statements cursor.eof cursor.ahead nodes := by
  constructor
  · rintro ⟨last, h⟩
    obtain ⟨tokens, hpasses, hstatements, hstops⟩ :=
      repeatWhile_sound (readsStatements_statement 0) h
    obtain ⟨hahead, hcurrent⟩ := hpasses.to_end hstops
    rw [hcurrent] at hstatements
    rw [hahead]
    exact hstatements
  · intro h
    obtain ⟨last, hpasses, hstops⟩ := cursor.exists_passes
    obtain ⟨-, hcurrent⟩ := hpasses.to_end hstops
    have hkind : last.current.kind = .eof := by
      rw [hcurrent]
      exact cursor.eof_kind
    rw [← hcurrent] at h
    refine ⟨last, whileAtMost_complete (readsStatements_statement cursor.ahead.length) h
      (Nat.le_refl _) (Nat.lt_succ_self _) hpasses (Grammar.tightness_eq_zero hkind rfl) ?_ hstops⟩
    intro place hstarts _
    exact Cursor.hasTokens_iff.mpr (Phrase.kind_ne_of_startsStatement hstarts rfl)

end Parse

/-- A stream is read as the program that its tokens spell. -/
theorem Node.ofTokens_eq_ok_iff (stream : TokenStream) (tree : Node) :
    ofTokens stream = .ok tree ↔ Phrase.Program stream tree := by
  unfold ofTokens
  constructor
  · intro h
    cases hread : Parse.statements .standard (Cursor.start stream) with
    | error diagnostic last =>
      rw [hread] at h
      cases h
    | ok nodes last =>
      rw [hread] at h
      cases h
      exact .statements ((Parse.statements_eq_ok_iff _ nodes).mp ⟨last, hread⟩)
  · rintro ⟨hnodes⟩
    obtain ⟨last, hread⟩ := (Parse.statements_eq_ok_iff (Cursor.start stream) _).mpr hnodes
    rw [hread]

/-- A stream is read as a tree exactly when its tokens spell the tree, and they spell at most one. A
number in digits is an expression of the grammar when its value is less than two to the power of
63. -/
theorem ofTokens_reads_programs (stream : TokenStream) :
    (∀ tree, Node.ofTokens stream = .ok tree ↔ Phrase.Program stream tree) ∧
      (∀ first second, Phrase.Program stream first → Phrase.Program stream second →
        first = second) ∧
      ∀ token : Token, token.kind = .number → token.value ≠ "" →
        (∀ digit ∈ token.value.toList, digit.isDigit = true) →
        ((∃ node, Phrase.Expression 0 [token] node) ↔
          Nat.ofDigitChars 10 token.value.toList 0 ≤ 2 ^ 63 - 1) := by
  have hreads := Node.ofTokens_eq_ok_iff stream
  refine ⟨hreads, ?_, fun _ ↦ Phrase.exists_expression_iff_of_digits⟩
  intro first second hfirst hsecond
  have hboth := ((hreads first).mpr hfirst).symm.trans ((hreads second).mpr hsecond)
  exact Except.ok.inj hboth

/-- The theorem at a function whose body ends where the indentation does. -/
theorem ofTokens_reads_programs_indented :
    ∃ stream tree,
      TokenStream.ofSource (Source.ofText ""
        "define f(a, b = 2,) then\n  return a - 1 - b * 2\nprint f(3)") = .ok stream ∧
      Phrase.Program stream tree ∧ ∀ other, Phrase.Program stream other → other = tree := by
  have hread : ∃ tree,
      (TokenStream.ofSource (Source.ofText ""
        "define f(a, b = 2,) then\n  return a - 1 - b * 2\nprint f(3)") >>= Node.ofTokens) =
          .ok tree :=
    exists_of_isOk (by decide +kernel)
  obtain ⟨tree, htree⟩ := hread
  obtain ⟨stream, hstream, htree⟩ := exists_of_bind_eq_ok htree
  obtain ⟨hreads, hunique, -⟩ := ofTokens_reads_programs stream
  have hprogram := (hreads tree).mp htree
  exact ⟨stream, tree, hstream, hprogram, fun other hother ↦
    hunique other tree hother hprogram⟩

end Presage
