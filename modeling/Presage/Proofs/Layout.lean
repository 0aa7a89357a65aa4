import Mathlib.Data.Option.Basic
import Presage.Compile
import Presage.Proofs.ReadingInStep
import Presage.Proofs.Tiling

/-!
What layout is for. The places of tokens decide how a stream is read through the offside rule alone:
`ofTokens_depends_on_offside` takes two streams with the same tokens in which the tokens behind a
`then` are on its line in both or in neither, and those behind a `define` are to the right of it in
both or in neither, and shows that they are read alike. In a text without `define` the rule says
nothing, and the blanks and comments between its tokens can be any others.

The streams are read in step (`Parse.together_statements`); it remains to see that the conditions
give `TokenStream.SameOffside`, and that the pieces of a text that are tokens say what the tokens
are (`TokenStream.Tiling.map_content?_tokenPieces`).
-/

set_option autoImplicit false
set_option relaxedAutoImplicit false

namespace Presage

/-! ### Tokens and where they stand -/

namespace Token

/-- What a token is, apart from where it stands. -/
def content (token : Token) : TokenKind × String := (token.kind, token.value)

/-- The tokens start on one line. -/
def OnLineOf (token other : Token) : Prop := token.span.start.line = other.span.start.line

/-- The token starts in a column right of the other. -/
def RightOf (token other : Token) : Prop := other.span.start.column < token.span.start.column

instance (token other : Token) : Decidable (token.OnLineOf other) :=
  inferInstanceAs (Decidable (_ = _))

instance (token other : Token) : Decidable (token.RightOf other) :=
  inferInstanceAs (Decidable (_ < _))

end Token

namespace TokenStream

variable {first second : TokenStream}

/-- The streams have the same kinds and values at every index. -/
def SameContents (first second : TokenStream) : Prop :=
  first.toList.map Token.content = second.toList.map Token.content

instance (first second : TokenStream) : Decidable (first.SameContents second) :=
  inferInstanceAs (Decidable (_ = _))

/-- The streams agree, for every `then` and every token behind it, on whether the two are on one
line, and for every `define` and every token behind it, on whether that one is to the right. -/
def SameLayout (first second : TokenStream) : Prop :=
  (first.toList.zip second.toList).Pairwise fun earlier later ↦
    (earlier.1.kind = .kwThen → (later.1.OnLineOf earlier.1 ↔ later.2.OnLineOf earlier.2)) ∧
    (earlier.1.kind = .kwDefine → (later.1.RightOf earlier.1 ↔ later.2.RightOf earlier.2))

instance (first second : TokenStream) : Decidable (first.SameLayout second) :=
  inferInstanceAs (Decidable (List.Pairwise _ _))

/-- How two streams are read alike: to trees that are, or to failures with one cause that is found
at the same token. -/
inductive ReadAlike (first second : TokenStream) :
    Except Diagnostic Node → Except Diagnostic Node → Prop
  | tree {tree tree' : Node} (halike : Node.Alike first second tree tree') :
      ReadAlike first second (.ok tree) (.ok tree')
  | failure {index : Nat} {token token' : Token} {cause : Cause}
      (htoken : first.toList[index]? = some token) (htoken' : second.toList[index]? = some token') :
      ReadAlike first second (.error ⟨cause, token.span.start⟩) (.error ⟨cause, token'.span.start⟩)

/-! ### From the conditions to the offside rule -/

theorem content_current (stream : TokenStream) (index : Nat) :
    (stream.place index).current.content =
      (stream.tokens.map Token.content)[index]?.getD stream.eof.content := by
  rw [current_place, List.getElem?_map, Option.getD_map]

namespace SameContents

variable (h : first.SameContents second)

include h

theorem tokens_eq :
    first.tokens.map Token.content = second.tokens.map Token.content ∧
      first.eof.content = second.eof.content := by
  unfold SameContents toList at h
  rw [List.map_append, List.map_append, List.map_singleton, List.map_singleton] at h
  exact List.append_singleton_inj.mp h

theorem length_eq : first.tokens.length = second.tokens.length := by
  have hlength := congrArg List.length h.tokens_eq.1
  rw [List.length_map, List.length_map] at hlength
  exact hlength

theorem current_eq (index : Nat) :
    (first.place index).current.content = (second.place index).current.content := by
  rw [content_current, content_current, h.tokens_eq.1, h.tokens_eq.2]

/-- Where no function is defined, the offside rule is not asked. -/
theorem sameOffside_of_forall_ne (hdefine : ∀ token ∈ first.tokens, token.kind ≠ .kwDefine) :
    first.SameOffside second where
  length := h.length_eq
  kind index := congrArg Prod.fst (h.current_eq index)
  value index := congrArg Prod.snd (h.current_eq index)
  inside {opening word index} hopening hword hindex hkind _ := by
    have hmem := first.tokens_getElem? (Nat.lt_trans hopening (Nat.lt_trans hword hindex))
    exact absurd hkind (hdefine _ (List.mem_of_getElem? hmem))

/-- The tokens at two indices are among the pairs that the layouts are compared on. -/
theorem of_sameLayout (hlayout : first.SameLayout second) {earlier later : Nat}
    (hlt : earlier < later) (hlater : later < first.tokens.length) :
    ((first.place earlier).current.kind = .kwThen →
      ((first.place later).current.OnLineOf (first.place earlier).current ↔
        (second.place later).current.OnLineOf (second.place earlier).current)) ∧
    ((first.place earlier).current.kind = .kwDefine →
      ((first.place later).current.RightOf (first.place earlier).current ↔
        (second.place later).current.RightOf (second.place earlier).current)) := by
  have hpair : ∀ index ≤ first.tokens.length, (first.toList.zip second.toList)[index]? =
      some ((first.place index).current, (second.place index).current) := by
    intro index hindex
    rw [List.getElem?_zip_eq_some]
    exact ⟨first.toList_getElem? hindex, second.toList_getElem? (h.length_eq ▸ hindex)⟩
  obtain ⟨hearlierLt, hearlier⟩ := List.getElem?_eq_some_iff.mp
    (hpair earlier (Nat.le_of_lt (Nat.lt_trans hlt hlater)))
  obtain ⟨hlaterLt, hlater⟩ := List.getElem?_eq_some_iff.mp (hpair later (Nat.le_of_lt hlater))
  have hrelated := List.pairwise_iff_getElem.mp hlayout earlier later hearlierLt hlaterLt hlt
  rw [hearlier, hlater] at hrelated
  exact hrelated

theorem sameOffside (hlayout : first.SameLayout second) : first.SameOffside second where
  length := h.length_eq
  kind index := congrArg Prod.fst (h.current_eq index)
  value index := congrArg Prod.snd (h.current_eq index)
  inside {opening word index} hopening hword hindex hdefine hthen := by
    have hline := (h.of_sameLayout hlayout hword hindex).1 hthen
    have hcolumn := (h.of_sameLayout hlayout (Nat.lt_trans hopening hword) hindex).2 hdefine
    exact or_congr hline hcolumn

end SameContents

/-! ### Reading alike -/

theorem readAlike_of_sameOffside (h : first.SameOffside second) :
    ReadAlike first second (Node.ofTokens first) (Node.ofTokens second) := by
  have hread := Parse.together_statements h
  unfold Parse.Together at hread
  unfold Node.ofTokens
  rw [start_eq_place, start_eq_place]
  generalize Parse.statements .standard (first.place 0) = run at hread
  generalize Parse.statements .standard (second.place 0) = run' at hread
  cases hread with
  | ok _ _ halike => exact .tree (.program halike)
  | error _ hlast =>
    exact .failure (first.toList_getElem? hlast) (second.toList_getElem? (h.length ▸ hlast))

end TokenStream

/-! ### Texts of tokens -/

namespace Lexeme

/-- The pieces of a text that are tokens, from its head on as far as it is cut into lexemes. -/
def tokenPieces : List Char → List (List Char)
  | [] => []
  | c :: rest =>
    match h : next? (c :: rest) with
    | none => []
    | some lexeme =>
      have := length_rest_lt h
      if lexeme.kind?.isSome then lexeme.text :: tokenPieces lexeme.rest
      else tokenPieces lexeme.rest
termination_by text => text.length
decreasing_by all_goals exact this

theorem tokenPieces_of_spelled {after piece : List Char} {kind? : Option TokenKind}
    (h : Spelled after kind? piece) :
    tokenPieces (piece ++ after) =
      if kind?.isSome then piece :: tokenPieces after else tokenPieces after := by
  have hnext := next?_of_spelled h
  obtain ⟨c, rest, hcons⟩ : ∃ c rest, piece ++ after = c :: rest :=
    List.exists_cons_of_ne_nil (List.append_ne_nil_of_left_ne_nil h.ne_nil after)
  rw [hcons] at hnext ⊢
  rw [tokenPieces]
  split
  · next hnone =>
    rw [hnext] at hnone
    cases hnone
  · next lexeme hsome =>
    rw [hnext] at hsome
    cases hsome
    rfl

/-- What a text is as a token, if it starts with one. -/
def content? (text : List Char) : Option (TokenKind × String) := do
  let lexeme ← next? text
  return (← lexeme.kind?, lexeme.value)

/-- A token is spelled in the same way where nothing follows. -/
theorem Spelled.alone {after piece : List Char} {kind : TokenKind}
    (h : Spelled after (some kind) piece) : Spelled [] (some kind) piece := by
  cases h with
  | word hstart hparts _ hkind => exact .word hstart hparts (by simp) hkind
  | number hne hdigits _ => exact .number hne hdigits (by simp)
  | string hinside => exact .string hinside
  | symbol hsymbol _ => exact .symbol hsymbol (by simp)

theorem Spelled.content?_eq {after piece : List Char} {kind : TokenKind}
    (h : Spelled after (some kind) piece) :
    content? piece = some (kind, (Lexeme.mk (some kind) piece after).value) := by
  have hnext := next?_of_spelled h.alone
  rw [List.append_nil] at hnext
  unfold content?
  rw [hnext]
  rfl

end Lexeme

namespace TokenStream

/-- The pieces of a text say what its tokens are. -/
theorem Tiling.map_content?_tokenPieces {before text : List Char} {stream : TokenStream}
    (h : Tiling before text stream) :
    (Lexeme.tokenPieces text).map Lexeme.content? =
      (stream.tokens.map Token.content).map some := by
  induction h with
  | done =>
    rw [Lexeme.tokenPieces]
    rfl
  | skip hpiece _ ih =>
    rw [Lexeme.tokenPieces_of_spelled hpiece]
    exact ih
  | token hpiece _ ih =>
    rw [Lexeme.tokenPieces_of_spelled hpiece, if_pos Option.isSome_some, List.map_cons, ih,
      hpiece.content?_eq]
    rfl

/-- Tokens with the same pieces are the same, apart from where they stand. -/
theorem Tiling.sameContents {before before' text text' : List Char} {first second : TokenStream}
    (h : Tiling before text first) (h' : Tiling before' text' second)
    (hpieces : Lexeme.tokenPieces text = Lexeme.tokenPieces text') :
    first.SameContents second := by
  have htokens : first.tokens.map Token.content = second.tokens.map Token.content := by
    apply List.map_injective_iff.mpr (Option.some_injective _)
    rw [← h.map_content?_tokenPieces, ← h'.map_content?_tokenPieces, hpieces]
  unfold SameContents toList
  rw [List.map_append, List.map_append, htokens, h.eof_eq, h'.eof_eq]
  rfl

end TokenStream

/-! ### The result -/

theorem Source.tree_eq_ofTokens {source : Source} {stream : TokenStream}
    (h : TokenStream.ofSource source = .ok stream) : source.tree = Node.ofTokens stream := by
  unfold tree
  rw [h]
  rfl

/-- Layout matters through the offside rule alone. In texts without `define` it does not matter what
stands between the pieces that are tokens. -/
theorem ofTokens_depends_on_offside :
    (∀ first second : TokenStream, first.SameContents second → first.SameLayout second →
      first.ReadAlike second (Node.ofTokens first) (Node.ofTokens second)) ∧
    ∀ (source source' : Source) (first second : TokenStream),
      TokenStream.ofSource source = .ok first → TokenStream.ofSource source' = .ok second →
      Lexeme.tokenPieces source.chars = Lexeme.tokenPieces source'.chars →
      (∀ token ∈ first.tokens, token.kind ≠ .kwDefine) →
      first.ReadAlike second source.tree source'.tree := by
  constructor
  · intro first second hcontents hlayout
    exact TokenStream.readAlike_of_sameOffside (hcontents.sameOffside hlayout)
  · intro source source' first second h h' hpieces hdefine
    have hcontents := (TokenStream.tiling_of_ofSource h).sameContents
      (TokenStream.tiling_of_ofSource h') hpieces
    rw [Source.tree_eq_ofTokens h, Source.tree_eq_ofTokens h']
    exact TokenStream.readAlike_of_sameOffside (hcontents.sameOffside_of_forall_ne hdefine)

/-- A function whose body is indented further, with comments, and a call after it on two lines; and
declarations on one line and on many. -/
theorem ofTokens_depends_on_offside_indented :
    (∃ first second,
      TokenStream.ofSource (.ofText "" "define f(a) then\n print a\nf(1)") = .ok first ∧
      TokenStream.ofSource (.ofText "" "define f(a)\n  then // body\n    print  a\n\nf\n (1 )") =
        .ok second ∧
      first.SameContents second ∧ first.SameLayout second ∧
      first.ReadAlike second (Node.ofTokens first) (Node.ofTokens second)) ∧
    ∃ first second, ∃ source source',
      source = Source.ofText "" "let a=1 print a" ∧
      source' = Source.ofText "" "// one\nlet a\n= 1\nprint//\na " ∧
      TokenStream.ofSource source = .ok first ∧ TokenStream.ofSource source' = .ok second ∧
      Lexeme.tokenPieces source.chars = Lexeme.tokenPieces source'.chars ∧
      (∀ token ∈ first.tokens, token.kind ≠ .kwDefine) ∧
      first.ReadAlike second source.tree source'.tree := by
  constructor
  · obtain ⟨⟨first, second⟩, hstreams, hcontents, hlayout⟩ : ∃ streams,
        (do
          let first ← TokenStream.ofSource (.ofText "" "define f(a) then\n print a\nf(1)")
          let second ← TokenStream.ofSource
            (.ofText "" "define f(a)\n  then // body\n    print  a\n\nf\n (1 )")
          return (first, second)) = .ok streams ∧
        streams.1.SameContents streams.2 ∧ streams.1.SameLayout streams.2 :=
      exists_of_any (by decide +kernel)
    obtain ⟨_, hfirst, hstreams⟩ := exists_of_bind_eq_ok hstreams
    obtain ⟨_, hsecond, hstreams⟩ := exists_of_bind_eq_ok hstreams
    cases hstreams
    exact ⟨first, second, hfirst, hsecond, hcontents, hlayout,
      ofTokens_depends_on_offside.1 first second hcontents hlayout⟩
  · obtain ⟨first, hfirst, hdefine⟩ : ∃ first,
        TokenStream.ofSource (.ofText "" "let a=1 print a") = .ok first ∧
        ∀ token ∈ first.tokens, token.kind ≠ .kwDefine := exists_of_any (by decide +kernel)
    obtain ⟨second, hsecond⟩ : ∃ second,
        TokenStream.ofSource (.ofText "" "// one\nlet a\n= 1\nprint//\na ") = .ok second :=
      exists_of_isOk (by decide +kernel)
    have hpieces : Lexeme.tokenPieces (Source.ofText "" "let a=1 print a").chars =
        Lexeme.tokenPieces (Source.ofText "" "// one\nlet a\n= 1\nprint//\na ").chars := by
      decide +kernel
    exact ⟨first, second, _, _, rfl, rfl, hfirst, hsecond, hpieces, hdefine,
      ofTokens_depends_on_offside.2 _ _ first second hfirst hsecond hpieces hdefine⟩

end Presage
