import Presage.Proofs.Reanalysis

/-!
Texts one after the other. `Source.join` puts a source on the lines behind another one. A line feed
ends every lexeme that is not blank, so the tokens of the first text are followed by those of the
second, moved (`TokenStream.Tiling.scan_join`, `TokenStream.Tiling.scan_past`). A function at the
end of the first text goes on only while tokens stand on its line or to the right of its first one,
so that a token in the first column ends it (`Phrase.Statements.before`), and the trees too are one
after the other. Analysis then does the one and goes on with the other: `join_composes`.

The joined text has to be smaller than a word can count. Then the words of all its tokens are what
they should be; those of its end alone may not be, in a text that is all line feeds.
-/

set_option autoImplicit false
set_option relaxedAutoImplicit false

namespace Presage

/-- The first source with the second one on the lines behind it. -/
def Source.join (first second : Source) : Source :=
  .ofChars first.name (first.chars ++ '\n' :: second.chars)

/-- Where a text is moved by putting it on the lines behind a source. -/
def Shift.past (source : Source) : Shift := ⟨source.size + 1, source.lineCount⟩

/-! ### Positions -/

theorem Source.byteSize_past (first : Source) (before : List Char) :
    Text.byteSize (first.chars ++ '\n' :: before) = Text.byteSize before + (first.size + 1) := by
  rw [Text.byteSize_append, Text.byteSize, show '\n'.utf8Size = 1 from rfl]
  unfold size
  omega

theorem Source.size_join (first second : Source) :
    (first.join second).size = second.size + (first.size + 1) :=
  first.byteSize_past second.chars

/-- What stands behind a source and a line feed stands where the source moves it, as long as the
words hold its place. -/
theorem Position.behind_past (first : Source) {before : List Char}
    (hbytes : first.size + 1 + Text.byteSize before < UInt32.size)
    (hlines : first.chars.count '\n' + before.count '\n' + 2 < UInt32.size) :
    behind (first.chars ++ '\n' :: before) = (Shift.past first).position (behind before) := by
  have hcolumn := Text.count_add_length_lastLine_le before
  have hlength := Text.length_le_byteSize before
  have hline : 1 + (first.chars ++ '\n' :: before).count '\n' =
      1 + before.count '\n' + first.lineCount := by
    rw [List.count_append, List.count_cons_self, first.lineCount_eq]
    omega
  unfold behind Shift.position Shift.past
  rw [Text.lastLine_append_feed, first.byteSize_past, hline, first.lineCount_eq]
  simp only [toWord_eq_self (show Text.byteSize before < UInt32.size by omega),
    toWord_eq_self (show 1 + before.count '\n' < UInt32.size by omega),
    toWord_eq_self (show Text.byteSize before + (first.size + 1) < UInt32.size by omega),
    toWord_eq_self
      (show 1 + before.count '\n' + (1 + first.chars.count '\n') < UInt32.size by omega)]

/-! ### Tokens -/

/-- Before a line feed every lexeme stays what it is, or is blank. -/
theorem Lexeme.Spelled.before_newline {after piece : List Char} {kind? : Option TokenKind}
    (h : Spelled after kind? piece) (rest : List Char) :
    Spelled (after ++ '\n' :: rest) kind? piece ∨
      kind? = none ∧ ∀ d ∈ piece, Text.isBlank d = true := by
  have hhead : ∀ d ∈ (after ++ '\n' :: rest).head?, d ∈ after.head? ∨ d = '\n' := by
    intro d hd
    cases after with
    | nil => exact Or.inr (Option.some.inj hd).symm
    | cons c others => exact Or.inl hd
  cases h with
  | word hstart hparts hlongest hkind =>
    refine Or.inl (.word hstart hparts (fun d hd ↦ ?_) hkind)
    rcases hhead d hd with hafter | rfl
    · exact hlongest d hafter
    · decide
  | number hne hdigits hlongest =>
    refine Or.inl (.number hne hdigits fun d hd ↦ ?_)
    rcases hhead d hd with hafter | rfl
    · exact hlongest d hafter
    · decide
  | string hinside => exact Or.inl (.string hinside)
  | symbol hsymbol hcomment =>
    refine Or.inl (.symbol hsymbol fun hslash hnext ↦ ?_)
    rcases hhead '/' hnext with hafter | hnewline
    · exact hcomment hslash hafter
    · cases hnewline
  | blanks _ hblanks _ => exact Or.inr ⟨rfl, hblanks⟩
  | comment hbody hend =>
    refine Or.inl (.comment hbody fun d hd ↦ ?_)
    rcases hhead d hd with hafter | rfl
    · exact hend d hafter
    · rfl

/-- A token has a character that is no line feed. -/
theorem Lexeme.Spelled.count_lt_length {after piece : List Char} {kind : TokenKind}
    (h : Spelled after (some kind) piece) : piece.count '\n' < piece.length := by
  have hother : ∃ c ∈ piece, '\n' ≠ c := by
    cases h with
    | @word c rest _ hstart =>
      exact ⟨c, List.mem_cons_self, by rintro rfl; cases hstart⟩
    | number hne hdigits =>
      obtain ⟨c, hc⟩ := List.exists_mem_of_ne_nil piece hne
      exact ⟨c, hc, by rintro rfl; cases hdigits _ hc⟩
    | string => exact ⟨'\"', List.mem_cons_self, nofun⟩
    | @symbol c _ hsymbol => exact ⟨c, List.mem_cons_self, by rintro rfl; cases hsymbol⟩
  obtain ⟨c, hc, hne⟩ := hother
  refine Nat.lt_of_le_of_ne List.count_le_length fun hall ↦ ?_
  exact hne (List.count_eq_length.mp hall c hc)

namespace TokenStream

open Lexeme (Spelled)

/-- The tokens of one stream before those of another. -/
def append (first second : TokenStream) : TokenStream :=
  ⟨first.tokens ++ second.tokens, second.eof,
    List.forall_mem_append.mpr ⟨first.tokens_ne_eof, second.tokens_ne_eof⟩, second.eof_kind⟩

theorem scan_skipped {source : Source} {offset : Nat} {piece after : List Char}
    (h : Spelled after none piece) :
    scan source offset (piece ++ after) = scan source (offset + Text.byteSize piece) after := by
  rw [scan_of_spelled source offset h]
  cases scan source (offset + Text.byteSize piece) after <;> rfl

/-- Blanks are passed over, though more of them follow. -/
theorem scan_blanks {source : Source} {offset : Nat} {blanks : List Char} (rest : List Char)
    (h : ∀ d ∈ blanks, Text.isBlank d = true) :
    scan source offset (blanks ++ rest) = scan source (offset + Text.byteSize blanks) rest := by
  have hrun : ∀ (offset : Nat) (run after : List Char),
      (∀ d ∈ run, Text.isBlank d = true) → (∀ d ∈ after.head?, Text.isBlank d = false) →
        scan source offset (run ++ after) = scan source (offset + Text.byteSize run) after := by
    intro offset run after hblanks hend
    by_cases hne : run = []
    · rw [hne]
      rfl
    · exact scan_skipped (.blanks hne hblanks hend)
  have hmore := Lexeme.mem_takeWhile Text.isBlank rest
  have hend := Lexeme.head?_dropWhile Text.isBlank rest
  -- All blanks together are one lexeme, and those of the rest are one, or there are none.
  rw [← List.takeWhile_append_dropWhile (p := Text.isBlank) (l := rest), ← List.append_assoc,
    hrun offset _ _ (List.forall_mem_append.mpr ⟨h, hmore⟩) hend, Text.byteSize_append,
    ← Nat.add_assoc, hrun _ _ _ hmore hend]

/-- The tokens of a text are found again before a line feed. -/
theorem Tiling.scan_join {target : Source} {before first second : List Char}
    {stream others : TokenStream} (h : Tiling before first stream)
    (htarget : target.chars = before ++ (first ++ '\n' :: second))
    (hothers : scan target (Text.byteSize (before ++ (first ++ ['\n']))) second = .ok others) :
    scan target (Text.byteSize before) (first ++ '\n' :: second) =
      .ok (stream.append others) := by
  induction h with
  | @done before =>
    have hnewline : ∀ d ∈ ['\n'], Text.isBlank d = true :=
      List.forall_mem_singleton.mpr (by decide)
    rw [Text.byteSize_append] at hothers
    exact (scan_blanks second hnewline).trans hothers
  | @skip before piece after stream hpiece _ ih =>
    simp only [List.append_assoc] at ih htarget hothers ⊢
    have hrest := ih htarget hothers
    rw [Text.byteSize_append] at hrest
    rcases hpiece.before_newline second with hspelled | ⟨-, hblanks⟩
    · rw [scan_skipped hspelled, hrest]
    · rw [scan_blanks _ hblanks, hrest]
  | @token before kind piece after stream hpiece _ ih =>
    simp only [List.append_assoc] at ih htarget hothers ⊢
    have hrest := ih htarget hothers
    have hstop : target.chars = (before ++ piece) ++ (after ++ '\n' :: second) := by
      rw [htarget, List.append_assoc]
    rcases hpiece.before_newline second with hspelled | ⟨hnone, -⟩
    · rw [scan_of_spelled target _ hspelled, ← Text.byteSize_append, hrest,
        Source.position_byteSize htarget, Source.position_byteSize hstop]
      rfl
    · cases hnone

/-- Behind a source and a line feed the tokens of a text are its tokens moved. -/
theorem Tiling.scan_past {target first : Source} {before text : List Char} {stream : TokenStream}
    (h : Tiling before text stream) (hsize : target.size < UInt32.size)
    (htarget : target.chars = (first.chars ++ '\n' :: before) ++ text) :
    ∃ moved, scan target (Text.byteSize (first.chars ++ '\n' :: before)) text = .ok moved ∧
      moved.tokens = stream.tokens.map (Shift.past first).token := by
  induction h with
  | done => exact ⟨_, by rw [scan], rfl⟩
  | @skip before piece after stream hpiece _ ih =>
    have hrest : target.chars = (first.chars ++ '\n' :: (before ++ piece)) ++ after := by
      simp [htarget]
    obtain ⟨moved, hmoved, htokens⟩ := ih hrest
    refine ⟨moved, ?_, htokens⟩
    rw [scan_skipped hpiece, ← hmoved, ← Text.byteSize_append, List.append_assoc, List.cons_append]
  | @token before kind piece after stream hpiece _ ih =>
    have hrest : target.chars = (first.chars ++ '\n' :: (before ++ piece)) ++ after := by
      simp [htarget]
    obtain ⟨moved, hmoved, htokens⟩ := ih hrest
    have hsizes : target.size =
        Text.byteSize (before ++ piece) + (first.size + 1) + Text.byteSize after := by
      unfold Source.size
      rw [hrest, Text.byteSize_append, first.byteSize_past]
      rfl
    have hpieces := Text.byteSize_append before piece
    have hpieceSize := Text.byteSize_pos hpiece.ne_nil
    have hfirstFeeds : first.chars.count '\n' ≤ first.size := Text.count_le_byteSize _
    have hbeforeFeeds := Text.count_le_byteSize before
    -- The piece is not all line feeds, so that its end too is on a line that fits in a word.
    have hpieceFeeds := hpiece.count_lt_length
    have hpieceLength := Text.length_le_byteSize piece
    have hstart : Position.behind (first.chars ++ '\n' :: before) = _ :=
      Position.behind_past first (by omega) (by omega)
    have hstop : Position.behind (first.chars ++ '\n' :: (before ++ piece)) = _ :=
      Position.behind_past first (by omega) (by rw [List.count_append]; omega)
    refine ⟨moved.cons ⟨kind, (Lexeme.mk (some kind) piece after).value,
      (Shift.past first).span ⟨.behind before, .behind (before ++ piece)⟩⟩ hpiece.ne_eof, ?_, ?_⟩
    · rw [scan_of_spelled target _ hpiece, Source.position_byteSize htarget, hstart,
        ← Text.byteSize_append, List.append_assoc, List.cons_append, hmoved,
        Source.position_byteSize hrest, hstop]
      rfl
    · show _ :: moved.tokens = _
      rw [htokens]
      rfl

end TokenStream

/-! ### Phrases -/

namespace Phrase

/-- The token ends every function whose tokens come before it: it is the end of the text, or stands
on another line and not further to the right than any of them. -/
def Ends (next : Token) (tokens : List Token) : Prop :=
  next.kind = .eof ∨ ∀ token ∈ tokens, next.span.start.line ≠ token.span.start.line ∧
    next.span.start.column ≤ token.span.start.column

theorem Ends.subset {next : Token} {tokens piece : List Token} (h : Ends next tokens)
    (hpiece : piece ⊆ tokens) : Ends next piece :=
  h.imp_right fun hall token htoken ↦ hall token (hpiece htoken)

mutual

/-- A statement stays what it is before any token that ends its functions. -/
theorem Statement.before {next other : Token} {tokens : List Token} {node : Node} :
    Statement next tokens node → Ends other tokens → Statement other tokens node
  | .variableDeclaration hword hname hsign hvalue, _ =>
    .variableDeclaration hword hname hsign hvalue
  | .variableReassignment hname hsign hvalue, _ => .variableReassignment hname hsign hvalue
  | .call hcall, _ => .call hcall
  | @Statement.wordStatement _ _ _ _ _ hword hvalue, _ => .wordStatement hword hvalue
  | .comparison hword hleft hto hright, _ => .comparison hword hleft hto hright
  | @Statement.functionDefinition _ defineToken _ _ _ thenToken _ _ _ _ hdefine hname hopening
      hparameters hclosing hthen hbody hnonempty hinside _, hends => by
    refine .functionDefinition hdefine hname hopening hparameters hclosing hthen
      (hbody.before (hends.subset fun token htoken ↦ by simp [htoken])) hnonempty hinside ?_
    refine hends.imp_right fun hall ↦ Or.inr ?_
    rintro (hline | hcolumn)
    · exact (hall thenToken (by simp)).1 hline
    · exact Nat.not_lt_of_le (hall defineToken List.mem_cons_self).2 hcolumn
  | .predictiveLoop hfor hname hin hrange hopening hlow hfirst hhigh hsecond hpattern hclosing
      hopeningCurly hbody hclosingCurly, _ =>
    .predictiveLoop hfor hname hin hrange hopening hlow hfirst hhigh hsecond hpattern hclosing
      hopeningCurly hbody hclosingCurly

theorem Statements.before {next other : Token} {tokens : List Token} {nodes : List Node} :
    Statements next tokens nodes → Ends other tokens → Statements other tokens nodes
  | .nil, _ => .nil
  | @Statements.cons _ tokens rest _ _ hfirst hrest, hends => by
    refine .cons ?_ (hrest.before (hends.subset (List.subset_append_right _ _)))
    cases rest with
    | nil => exact hfirst.before (hends.subset (List.subset_append_left _ _))
    | cons token others => exact hfirst

end

theorem Statements.append {next : Token} {tokens : List Token} {nodes : List Node}
    (h : Statements next tokens nodes) : {firstTokens : List Token} → {firstNodes : List Node} →
      Statements (tokens.head?.getD next) firstTokens firstNodes →
        Statements next (firstTokens ++ tokens) (firstNodes ++ nodes)
  | _, _, .nil => h
  | _, _, @Statements.cons _ first rest _ _ hfirst hrest => by
    rw [List.append_assoc]
    refine .cons ?_ (h.append hrest)
    cases rest <;> exact hfirst

/-- A token of the moved text ends the functions of the source it is moved past, if it stands in
the first column. -/
theorem ends_past {first second : Source} {stream others : TokenStream}
    (hsize : (first.join second).size < UInt32.size)
    (htiling : TokenStream.Tiling [] first.chars stream)
    (hothers : TokenStream.Tiling [] second.chars others)
    (hcolumn : ∀ token ∈ others.tokens.head?, token.span.start.column = 1) {eof : Token}
    (heof : eof.kind = .eof) :
    Ends ((others.tokens.map (Shift.past first).token).head?.getD eof) stream.tokens := by
  rw [Source.size_join] at hsize
  cases htokens : others.tokens with
  | nil => exact Or.inl heof
  | cons next rest =>
    rw [htokens] at hcolumn
    have hnext : next.span.start.column = 1 := hcolumn next rfl
    have hmem : next ∈ others.tokens := by
      rw [htokens]
      exact List.mem_cons_self
    refine Or.inr fun token htoken ↦ ?_
    obtain ⟨_, _, hnextPlaced, hnextSpelled, -⟩ := hothers.placed next hmem
    obtain ⟨_, _, hplaced, hspelled, -⟩ := htiling.placed token htoken
    obtain ⟨nextBefore, -, hnextStart⟩ := hnextPlaced.start_eq
      (show second.size < UInt32.size by omega) hnextSpelled.ne_nil
    obtain ⟨before, htext, hstart⟩ := hplaced.start_eq
      (show first.size < UInt32.size by omega) hspelled.ne_nil
    rw [hstart]
    constructor
    · -- The token is on a line of the source, and the next one behind all of these.
      have hfeeds : before.count '\n' ≤ first.chars.count '\n' :=
        (List.sublist_append_left before _).count_le '\n' |>.trans_eq (congrArg _ htext.symm)
      show next.span.start.line + first.lineCount ≠ 1 + before.count '\n'
      rw [hnextStart, first.lineCount_eq]
      show 1 + nextBefore.count '\n' + (1 + first.chars.count '\n') ≠ 1 + before.count '\n'
      omega
    · show next.span.start.column ≤ 1 + (Text.lastLine before).length
      rw [hnext]
      exact Nat.le_add_right _ _

end Phrase

/-- The tree of a source with another behind it has the statements of both. -/
theorem Source.tree_join {first second : Source} {firstTree secondTree : Node}
    (hsize : (first.join second).size < UInt32.size)
    (hfirst : first.tree = .ok firstTree) (hsecond : second.tree = .ok secondTree)
    (hcolumn : ∀ stream, TokenStream.ofSource second = .ok stream →
      ∀ token ∈ stream.tokens.head?, token.span.start.column = 1) :
    ∃ span, (first.join second).tree = .ok (.program span
      (firstTree.children ++ secondTree.children.map (Shift.past first).node)) := by
  obtain ⟨stream, hstream, ⟨hstatements⟩⟩ := Source.tree_eq_ok_iff.mp hfirst
  obtain ⟨others, hothers, ⟨hothersStatements⟩⟩ := Source.tree_eq_ok_iff.mp hsecond
  have htiling := TokenStream.tiling_of_ofSource hstream
  have hothersTiling := TokenStream.tiling_of_ofSource hothers
  have hchars : (first.join second).chars = (first.chars ++ ['\n']) ++ second.chars :=
    (List.append_assoc first.chars ['\n'] second.chars).symm
  obtain ⟨moved, hmoved, htokens⟩ := hothersTiling.scan_past hsize hchars
  have hscan : TokenStream.ofSource (first.join second) = .ok (stream.append moved) :=
    htiling.scan_join rfl hmoved
  have hends := Phrase.ends_past hsize htiling hothersTiling (hcolumn others hothers) moved.eof_kind
  -- Only the kind of the token behind the last one matters, and that is the end in both texts.
  have hshifted := (hothersStatements.shifted (Shift.past first)).before
    (Or.inl moved.eof_kind : Phrase.Ends moved.eof _)
  have hjoined := hshifted.append (hstatements.before hends)
  rw [Shift.nodes_eq_map, ← htokens] at hjoined
  exact ⟨_, Source.tree_eq_ok_iff.mpr ⟨_, hscan, .statements hjoined⟩⟩

/-! ### Texts -/

namespace Source

/-- A node of the tree is a piece of the text. -/
theorem placed_of_tree {source : Source} {tree : Node} (hsize : source.size < UInt32.size)
    (h : source.tree = .ok tree) {node : Node} (hnode : node ∈ tree.children) {inner : Node}
    (hinner : inner ∈ node.nodes) :
    ∃ piece after, Placed source.chars inner.span piece after := by
  obtain ⟨stream, hstream, hprogram⟩ := tree_eq_ok_iff.mp h
  obtain ⟨tokens, htokens, htogether⟩ :=
    hprogram.exists_of_mem (List.mem_flatMap.mpr ⟨node, hnode, hinner⟩)
  exact htokens.placed htogether hsize (TokenStream.tiles_of_ofSource hsize hstream)

variable {first second : Source}

theorem sameTexts_first {firstTree : Node} (hsize : (first.join second).size < UInt32.size)
    (h : first.tree = .ok firstTree) : ∀ node ∈ firstTree.children,
      SameTexts first (first.join second) .zero node := by
  intro node hnode inner hinner
  have hfirst : first.size < UInt32.size := by
    rw [size_join] at hsize
    omega
  obtain ⟨piece, after, hplaced⟩ := placed_of_tree hfirst h hnode hinner
  have hread := hplaced.read_eq hfirst
  obtain ⟨before, htext, hspan⟩ := hplaced
  have hjoined : Placed (first.join second).chars inner.span piece
      (after ++ '\n' :: second.chars) := by
    refine ⟨before, ?_, hspan⟩
    show first.chars ++ '\n' :: second.chars = _
    rw [htext]
    simp only [List.append_assoc]
  rw [Shift.zero_node]
  exact (hjoined.read_eq hsize).trans hread.symm

theorem sameTexts_second {secondTree : Node} (hsize : (first.join second).size < UInt32.size)
    (h : second.tree = .ok secondTree) : ∀ node ∈ secondTree.children,
      SameTexts second (first.join second) (.past first) node := by
  intro node hnode inner hinner
  have hsizes := size_join first second
  have hsecond : second.size < UInt32.size := by omega
  obtain ⟨piece, after, hplaced⟩ := placed_of_tree hsecond h hnode hinner
  have hread := hplaced.read_eq hsecond
  obtain ⟨before, htext, hspan⟩ := hplaced
  -- The text is read by the offsets alone, and these are moved by what is put before it.
  have hjoined : (first.join second).chars =
      (first.chars ++ '\n' :: before) ++ (piece ++ after) := by
    show first.chars ++ '\n' :: second.chars = _
    rw [htext]
    simp only [List.append_assoc, List.cons_append]
  have hstopSize : Text.byteSize (before ++ piece) < UInt32.size :=
    Text.byteSize_lt_of_append (htext.trans (List.append_assoc _ _ _).symm) hsecond
  have hstart : ((Shift.past first).span inner.span).start.offset =
      Text.byteSize (first.chars ++ '\n' :: before) := by
    rw [hspan, first.byteSize_past]
    exact congrArg (· + _) (Position.offset_behind (Text.byteSize_lt_of_append rfl hstopSize))
  have hstop : ((Shift.past first).span inner.span).stop.offset =
      Text.byteSize ((first.chars ++ '\n' :: before) ++ piece) := by
    rw [hspan, List.append_assoc, List.cons_append, first.byteSize_past]
    exact congrArg (· + _) (Position.offset_behind hstopSize)
  unfold Node.text
  rw [Shift.span_node, hread]
  apply read_eq
  rw [hstart, hstop, slice?_byteSize hjoined]

end Source

/-! ### Programs -/

/-- The analysis of a tree that was read from a source goes through its statements. -/
theorem Analysis.program_of_tree {source : Source} {tree : Node} (h : source.tree = .ok tree)
    (target : Source) (analyzer : Analyzer) :
    program target analyzer tree =
      (statements target analyzer tree.children).map fun result ↦ (⟨result.1⟩, result.2) := by
  obtain ⟨stream, -, ⟨hstatements⟩⟩ := Source.tree_eq_ok_iff.mp h
  rw [program, Node.children]
  cases statements target analyzer _ <;> rfl

/-- The statements of the first source are followed by those of the second, in states and with
results that do not know of one another's places. -/
theorem Analysis.statements_join {first second : Source} {firstTree secondTree : Node}
    (hsize : (first.join second).size < UInt32.size) (hfirst : first.tree = .ok firstTree)
    (hsecond : second.tree = .ok secondTree) (analyzer : Analyzer) :
    statements (first.join second) analyzer
        (firstTree.children ++ secondTree.children.map (Shift.past first).node) = do
      let before ← statements first analyzer firstTree.children
      let after ← (Shift.past first).answer (statements second before.2 secondTree.children)
      return (before.1 ++ after.1, after.2) := by
  have hbefore := statements_shift analyzer _ (Source.sameTexts_first hsize hfirst)
  have hafter := fun middle ↦ statements_shift middle _ (Source.sameTexts_second hsize hsecond)
  rw [Shift.zero_nodes fun node _ ↦ Shift.zero_node node, Shift.answer_zero] at hbefore
  rw [statements_append, hbefore, ← Shift.nodes_eq_map]
  simp only [hafter]

/-- A source put on the lines behind another is read as if it stood alone, and analysed as if it
were analysed next, if the size of both together fits in a word. The joined tree has the statements
of both, with the outlines and texts that they have in their own sources, those of the second moved
down by the lines of the first. Its analysis is that of the first tree and then, in the state left
by it, that of the second; what is reported in the second is reported at the place moved to. -/
theorem join_composes {first second : Source} {firstTree secondTree : Node}
    (hsize : (first.join second).size < UInt32.size)
    (hfirst : first.tree = .ok firstTree) (hsecond : second.tree = .ok secondTree)
    (hcolumn : ∀ stream, TokenStream.ofSource second = .ok stream →
      ∀ token ∈ stream.tokens.head?, token.span.start.column = 1) :
    ∃ tree, (first.join second).tree = .ok tree ∧
      tree.children = firstTree.children ++ secondTree.children.map (Shift.past first).node ∧
      (∀ node ∈ firstTree.children,
        node.outline (first.join second) = node.outline first ∧
          ∀ inner ∈ node.nodes, inner.text (first.join second) = inner.text first) ∧
      (∀ node ∈ secondTree.children,
        ((Shift.past first).node node).outline (first.join second) = node.outline second ∧
          ∀ inner ∈ node.nodes,
            ((Shift.past first).node inner).text (first.join second) = inner.text second) ∧
      ∀ analyzer, Analysis.program (first.join second) analyzer tree = do
        let before ← Analysis.program first analyzer firstTree
        let after ← (Shift.past first).answer (Analysis.program second before.2 secondTree)
        return (⟨before.1.statements ++ after.1.statements⟩, after.2) := by
  obtain ⟨span, htree⟩ := Source.tree_join hsize hfirst hsecond hcolumn
  refine ⟨_, htree, rfl, fun node hnode ↦ ?_, fun node hnode ↦ ?_, fun analyzer ↦ ?_⟩
  · have hsame := Source.sameTexts_first hsize hfirst node hnode
    have houtline := hsame.outline
    rw [Shift.zero_node] at houtline
    refine ⟨houtline, fun inner hinner ↦ ?_⟩
    have htext := hsame inner hinner
    rw [Shift.zero_node] at htext
    exact htext
  · have hsame := Source.sameTexts_second hsize hsecond node hnode
    exact ⟨hsame.outline, hsame⟩
  · rw [Analysis.program_of_tree htree, Analysis.program_of_tree hfirst, Node.children,
      Analysis.statements_join hsize hfirst hsecond]
    cases Analysis.statements first analyzer firstTree.children with
    | error diagnostic => rfl
    | ok before =>
      show Except.map _ ((Shift.past first).answer _ >>= _) =
        (Shift.past first).answer (Analysis.program second before.2 secondTree) >>= _
      rw [Analysis.program_of_tree hsecond]
      cases Analysis.statements second before.2 secondTree.children <;> rfl

/-- The theorem at a source that ends in a function, with another behind it that calls it. -/
theorem join_composes_function :
    ∃ first second, first = Source.ofText "" "let a = 1\ndefine f(b) then\n  return a" ∧
      second = Source.ofText "" "print f(2)\nlet a = c" ∧
      (first.join second).size < UInt32.size ∧
      ∃ firstTree secondTree, first.tree = .ok firstTree ∧ second.tree = .ok secondTree ∧
        ∃ tree, (first.join second).tree = .ok tree ∧
          tree.children = firstTree.children ++ secondTree.children.map (Shift.past first).node ∧
          (∀ node ∈ firstTree.children,
            node.outline (first.join second) = node.outline first ∧
              ∀ inner ∈ node.nodes, inner.text (first.join second) = inner.text first) ∧
          (∀ node ∈ secondTree.children,
            ((Shift.past first).node node).outline (first.join second) = node.outline second ∧
              ∀ inner ∈ node.nodes,
                ((Shift.past first).node inner).text (first.join second) = inner.text second) ∧
          ∀ analyzer, Analysis.program (first.join second) analyzer tree = do
            let before ← Analysis.program first analyzer firstTree
            let after ← (Shift.past first).answer (Analysis.program second before.2 secondTree)
            return (⟨before.1.statements ++ after.1.statements⟩, after.2) := by
  have hsize : ((Source.ofText "" "let a = 1\ndefine f(b) then\n  return a").join
      (Source.ofText "" "print f(2)\nlet a = c")).size < UInt32.size := by decide +kernel
  have hfirst : ∃ tree,
      (Source.ofText "" "let a = 1\ndefine f(b) then\n  return a").tree = .ok tree :=
    exists_of_isOk (by decide +kernel)
  have hsecond : ∃ tree, (Source.ofText "" "print f(2)\nlet a = c").tree = .ok tree :=
    exists_of_isOk (by decide +kernel)
  have hcolumn : ∃ stream,
      TokenStream.ofSource (Source.ofText "" "print f(2)\nlet a = c") = .ok stream ∧
        ∀ token ∈ stream.tokens.head?, token.span.start.column = 1 :=
    exists_of_any (by decide +kernel)
  obtain ⟨firstTree, hfirst⟩ := hfirst
  obtain ⟨secondTree, hsecond⟩ := hsecond
  obtain ⟨stream, hstream, hcolumn⟩ := hcolumn
  refine ⟨_, _, rfl, rfl, hsize, firstTree, secondTree, hfirst, hsecond, ?_⟩
  refine join_composes hsize hfirst hsecond fun found hfound ↦ ?_
  obtain rfl := Except.ok.inj (hstream.symm.trans hfound)
  exact hcolumn

end Presage
