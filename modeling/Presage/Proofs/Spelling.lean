import Presage.Token.Lexeme

/-!
How lexemes are spelled, without the order in which their patterns are tried. `Lexeme.Spelled` says
of a piece of text and of what follows it that the piece is one lexeme: a word, a number or blanks
as long as they go on, a string up to the next quote, a comment up to the end of its line, or a
symbol. `Lexeme.Stuck` says that no lexeme starts at a character.

The two describe the lexeme at the head of a text completely: `next?_of_spelled` and
`spelled_of_next?` for the pieces, `next?_eq_none_iff` for the characters without one. The patterns
exclude one another by their first characters, up to the comment and the slash.
-/

set_option autoImplicit false
set_option relaxedAutoImplicit false

namespace Presage

/-! ### Reserved words -/

/-- The kind of a word: that of the reserved word it is, or that of a name. -/
def TokenKind.IsOfWord (kind : TokenKind) (word : String) : Prop :=
  (word, kind) ∈ reserved ∨ kind = identifier ∧ ∀ other, (word, other) ∉ reserved

theorem TokenKind.ofWord_eq_iff {word : String} {kind : TokenKind} :
    ofWord word = kind ↔ kind.IsOfWord word := by
  have hreserved : ∀ entry ∈ reserved, ofWord entry.1 = entry.2 := by decide
  constructor
  · rintro rfl
    unfold ofWord
    cases hlookup : reserved.lookup word with
    | none =>
      refine Or.inr ⟨rfl, fun other hother ↦ ?_⟩
      exact bne_iff_ne.mp (List.lookup_eq_none_iff.mp hlookup _ hother) rfl
    | some kind =>
      obtain ⟨before, after, hsplit, -⟩ := List.lookup_eq_some_iff.mp hlookup
      refine Or.inl ?_
      rw [hsplit]
      exact List.mem_append_right before List.mem_cons_self
  · rintro (hmem | ⟨rfl, hnone⟩)
    · exact hreserved _ hmem
    · unfold ofWord
      rw [List.lookup_eq_none_iff.mpr]
      · rfl
      · rintro ⟨other, kind⟩ hmem
        refine bne_iff_ne.mpr ?_
        rintro rfl
        exact hnone kind hmem

namespace Lexeme

/-! ### Spelling -/

/-- The piece before `after` is a lexeme of the given kind. -/
inductive Spelled (after : List Char) : Option TokenKind → List Char → Prop
  | word {c : Char} {rest : List Char} {kind : TokenKind} (hstart : isWordStart c = true)
      (hparts : ∀ d ∈ rest, isWordPart d = true)
      (hlongest : ∀ d ∈ after.head?, isWordPart d = false)
      (hkind : kind.IsOfWord (String.ofList (c :: rest))) :
      Spelled after (some kind) (c :: rest)
  | number {digits : List Char} (hne : digits ≠ []) (hdigits : ∀ d ∈ digits, d.isDigit = true)
      (hlongest : ∀ d ∈ after.head?, d.isDigit = false) : Spelled after (some .number) digits
  | string {inside : List Char} (hinside : '\"' ∉ inside) :
      Spelled after (some .string) ('\"' :: (inside ++ ['\"']))
  | symbol {c : Char} {kind : TokenKind} (hsymbol : TokenKind.ofSymbol? c = some kind)
      (hcomment : c = '/' → after.head? ≠ some '/') : Spelled after (some kind) [c]
  | blanks {blanks : List Char} (hne : blanks ≠ []) (hblanks : ∀ d ∈ blanks, Text.isBlank d = true)
      (hlongest : ∀ d ∈ after.head?, Text.isBlank d = false) : Spelled after none blanks
  | comment {body : List Char} (hbody : '\n' ∉ body) (hend : ∀ d ∈ after.head?, d = '\n') :
      Spelled after none ('/' :: '/' :: body)

/-- No lexeme starts with the character before `after`: it starts nothing, or it is a quote
without a later one. -/
def Stuck (c : Char) (after : List Char) : Prop :=
  isWordStart c = false ∧ c.isDigit = false ∧ Text.isBlank c = false ∧
      TokenKind.ofSymbol? c = none ∧ c ≠ '\"' ∨
    c = '\"' ∧ '\"' ∉ after

theorem Spelled.ne_nil {after piece : List Char} {kind? : Option TokenKind}
    (h : Spelled after kind? piece) : piece ≠ [] := by
  cases h with
  | word | string | symbol | comment => exact List.cons_ne_nil _ _
  | number hne | blanks hne => exact hne

/-! ### Classes of characters -/

theorem toNat_of_isWordStart {c : Char} (h : isWordStart c = true) :
    65 ≤ c.toNat ∧ c.toNat ≤ 122 := by
  rcases Bool.or_eq_true_iff.mp h with hletter | hunderscore
  · rcases Bool.or_eq_true_iff.mp hletter with hupper | hlower
    · have hbetween : c.val ≥ 'A'.val ∧ c.val ≤ 'Z'.val := of_decide_eq_true hupper
      have hcodes : 65 ≤ c.toNat ∧ c.toNat ≤ 90 := hbetween
      omega
    · obtain ⟨hlow, hhigh⟩ := Bool.and_eq_true_iff.mp hlower
      have hlow : 97 ≤ c.toNat := of_decide_eq_true hlow
      have hhigh : c.toNat ≤ 122 := of_decide_eq_true hhigh
      omega
  · rw [eq_of_beq hunderscore]
    decide

theorem toNat_of_isDigit {c : Char} (h : c.isDigit = true) : 48 ≤ c.toNat ∧ c.toNat ≤ 57 := by
  simp only [Char.isDigit, Bool.and_eq_true, decide_eq_true_eq, ge_iff_le,
    UInt32.le_iff_toNat_le] at h
  exact h

theorem toNat_of_isBlank {c : Char} (h : Text.isBlank c = true) :
    c.toNat ≤ 32 ∨ 133 ≤ c.toNat := by
  simp only [Text.isBlank, Text.blankRanges, List.any_cons, List.any_nil, Bool.or_eq_true,
    Bool.and_eq_true, decide_eq_true_eq, Bool.false_eq_true, or_false] at h
  omega

theorem isWordStart_of_isDigit {c : Char} (h : c.isDigit = true) : isWordStart c = false := by
  refine Bool.eq_false_iff.mpr fun hword ↦ ?_
  have hdigit := toNat_of_isDigit h
  have hstart := toNat_of_isWordStart hword
  omega

theorem isWordStart_of_isBlank {c : Char} (h : Text.isBlank c = true) : isWordStart c = false := by
  refine Bool.eq_false_iff.mpr fun hword ↦ ?_
  have hblank := toNat_of_isBlank h
  have hstart := toNat_of_isWordStart hword
  omega

theorem isDigit_of_isBlank {c : Char} (h : Text.isBlank c = true) : c.isDigit = false := by
  refine Bool.eq_false_iff.mpr fun hdigit ↦ ?_
  have hblank := toNat_of_isBlank h
  have hvalue := toNat_of_isDigit hdigit
  omega

theorem isWordPart_of_isWordStart {c : Char} (h : isWordStart c = true) : isWordPart c = true := by
  simp only [isWordStart, isWordPart, Char.isAlphanum, Bool.or_eq_true] at h ⊢
  exact h.imp_left Or.inl

/-! ### Runs -/

/-- A run ends where the class does. -/
theorem run_append {class? : Char → Bool} {kindOf : List Char → Option TokenKind}
    {piece after : List Char} (hpiece : ∀ c ∈ piece, class? c = true)
    (hafter : ∀ c ∈ after.head?, class? c = false) :
    run class? kindOf (piece ++ after) = ⟨kindOf piece, piece, after⟩ := by
  have hend : after.takeWhile class? = [] ∧ after.dropWhile class? = after := by
    cases after with
    | nil => exact ⟨rfl, rfl⟩
    | cons c rest =>
      have hc := Bool.eq_false_iff.mp (hafter c rfl)
      exact ⟨List.takeWhile_cons_of_neg hc, List.dropWhile_cons_of_neg hc⟩
  unfold run
  rw [List.takeWhile_append_of_pos hpiece, List.dropWhile_append_of_pos hpiece, hend.1, hend.2,
    List.append_nil]

theorem mem_takeWhile (class? : Char → Bool) (text : List Char) :
    ∀ c ∈ text.takeWhile class?, class? c = true :=
  List.all_eq_true.mp List.all_takeWhile

theorem head?_dropWhile (class? : Char → Bool) (text : List Char) :
    ∀ c ∈ (text.dropWhile class?).head?, class? c = false := by
  intro c hc
  have hhead := List.head?_dropWhile_not class? text
  rw [Option.mem_def.mp hc] at hhead
  exact hhead

theorem bne_of_not_mem {c : Char} {text : List Char} (h : c ∉ text) :
    ∀ d ∈ text, (d != c) = true := by
  intro d hd
  refine bne_iff_ne.mpr ?_
  rintro rfl
  exact h hd

theorem not_mem_takeWhile_bne (c : Char) (text : List Char) : c ∉ text.takeWhile (· != c) := by
  intro hmem
  exact bne_iff_ne.mp (mem_takeWhile (· != c) text c hmem) rfl

theorem head?_dropWhile_bne (c : Char) (text : List Char) :
    ∀ d ∈ (text.dropWhile (· != c)).head?, d = c := by
  intro d hd
  exact bne_eq_false_iff_eq.mp (head?_dropWhile (· != c) text d hd)

/-! ### The lexeme at the head of a text -/

theorem next?_of_spelled {after piece : List Char} {kind? : Option TokenKind}
    (h : Spelled after kind? piece) : next? (piece ++ after) = some ⟨kind?, piece, after⟩ := by
  cases h with
  | @word c rest kind hstart hparts hlongest hkind =>
    have hpiece : ∀ d ∈ c :: rest, isWordPart d = true :=
      List.forall_mem_cons.mpr ⟨isWordPart_of_isWordStart hstart, hparts⟩
    rw [List.cons_append, next?, if_pos hstart, ← List.cons_append, run_append hpiece hlongest,
      TokenKind.ofWord_eq_iff.mpr hkind]
  | number hne hdigits hlongest =>
    obtain ⟨c, rest, rfl⟩ := List.exists_cons_of_ne_nil hne
    have hc := hdigits c List.mem_cons_self
    rw [List.cons_append, next?, if_neg (Bool.eq_false_iff.mp (isWordStart_of_isDigit hc)),
      if_pos hc, ← List.cons_append, run_append hdigits hlongest]
  | @string inside hinside =>
    have hrest := bne_of_not_mem hinside
    rw [List.cons_append, next?, if_neg (by decide), if_neg (by decide), if_neg (by decide),
      if_pos rfl, List.append_assoc, List.dropWhile_append_of_pos hrest]
    show some (Lexeme.mk _ ('\"' :: ((inside ++ (['\"'] ++ after)).takeWhile _ ++ ['\"'])) after) =
      _
    rw [List.takeWhile_append_of_pos hrest]
    show some (Lexeme.mk _ ('\"' :: (inside ++ [] ++ ['\"'])) after) = _
    rw [List.append_nil]
  | @symbol c kind hsymbol hcomment =>
    -- A slash is the only symbol that starts another lexeme too.
    by_cases hslash : c = '/'
    · subst hslash
      have hnext : ¬ ('/' = '/' ∧ after.head? = some '/') := fun hboth ↦ hcomment rfl hboth.2
      rw [List.cons_append, List.nil_append, next?, if_neg (by decide), if_neg (by decide),
        if_neg (by decide), if_neg (by decide), if_neg hnext, hsymbol]
      rfl
    · unfold TokenKind.ofSymbol? at hsymbol
      split at hsymbol
      case h_9 => exact (hslash rfl).elim
      all_goals cases hsymbol
      all_goals rfl
  | blanks hne hblanks hlongest =>
    obtain ⟨c, rest, rfl⟩ := List.exists_cons_of_ne_nil hne
    have hc := hblanks c List.mem_cons_self
    rw [List.cons_append, next?, if_neg (Bool.eq_false_iff.mp (isWordStart_of_isBlank hc)),
      if_neg (Bool.eq_false_iff.mp (isDigit_of_isBlank hc)), if_pos hc, ← List.cons_append,
      run_append hblanks hlongest]
  | @comment body hbody hend =>
    have hpiece : ∀ d ∈ '/' :: '/' :: body, (d != '\n') = true :=
      List.forall_mem_cons.mpr ⟨rfl, List.forall_mem_cons.mpr ⟨rfl, bne_of_not_mem hbody⟩⟩
    have hafter : ∀ d ∈ after.head?, (d != '\n') = false := by
      intro d hd
      rw [hend d hd]
      rfl
    rw [List.cons_append, next?, if_neg (by decide), if_neg (by decide), if_neg (by decide),
      if_neg (by decide), if_pos ⟨rfl, rfl⟩, ← List.cons_append, run_append hpiece hafter]

theorem spelled_of_next? {text : List Char} {lexeme : Lexeme} (h : next? text = some lexeme) :
    Spelled lexeme.rest lexeme.kind? lexeme.text := by
  cases text with
  | nil => cases h
  | cons c rest =>
    rw [next?] at h
    split at h
    · next hword =>
      cases h
      have hpart := isWordPart_of_isWordStart hword
      unfold run
      rw [List.takeWhile_cons_of_pos hpart, List.dropWhile_cons_of_pos hpart]
      exact .word hword (mem_takeWhile _ _) (head?_dropWhile _ _) (TokenKind.ofWord_eq_iff.mp rfl)
    split at h
    · next hdigit =>
      cases h
      refine .number ?_ (mem_takeWhile _ _) (head?_dropWhile _ _)
      unfold run
      rw [List.takeWhile_cons_of_pos hdigit]
      exact List.cons_ne_nil _ _
    split at h
    · next hblank =>
      cases h
      refine .blanks ?_ (mem_takeWhile _ _) (head?_dropWhile _ _)
      unfold run
      rw [List.takeWhile_cons_of_pos hblank]
      exact List.cons_ne_nil _ _
    split at h
    · next hquote =>
      subst hquote
      split at h
      · cases h
      · next closing after hafter =>
        cases h
        obtain rfl : closing = '\"' := by
          refine head?_dropWhile_bne _ rest closing ?_
          rw [hafter]
          rfl
        exact .string (not_mem_takeWhile_bne _ rest)
    split at h
    · next hcomment =>
      obtain ⟨rfl, hslash⟩ := hcomment
      obtain ⟨body, rfl⟩ := List.head?_eq_some_iff.mp hslash
      cases h
      unfold run
      rw [List.takeWhile_cons_of_pos rfl, List.takeWhile_cons_of_pos rfl,
        List.dropWhile_cons_of_pos rfl, List.dropWhile_cons_of_pos rfl]
      exact .comment (not_mem_takeWhile_bne _ body) (head?_dropWhile_bne _ body)
    · next hcomment =>
      obtain ⟨kind, hkind, rfl⟩ := Option.map_eq_some_iff.mp h
      exact .symbol hkind fun hslash hnext ↦ hcomment ⟨hslash, hnext⟩

/-- A text has no lexeme at its head when its first character starts none. -/
theorem next?_eq_none_iff {c : Char} {rest : List Char} :
    next? (c :: rest) = none ↔ Stuck c rest := by
  rw [next?]
  constructor
  · intro h
    split at h
    · cases h
    next hword =>
    split at h
    · cases h
    next hdigit =>
    split at h
    · cases h
    next hblank =>
    split at h
    · next hquote =>
      refine Or.inr ⟨hquote, ?_⟩
      split at h
      · next hdrop =>
        have hall := List.takeWhile_append_dropWhile (p := (· != '\"')) (l := rest)
        rw [hdrop, List.append_nil] at hall
        rw [← hall]
        exact not_mem_takeWhile_bne _ rest
      · cases h
    next hquote =>
    split at h
    · cases h
    · have hsymbol := Option.map_eq_none_iff.mp h
      exact Or.inl ⟨Bool.eq_false_iff.mpr hword, Bool.eq_false_iff.mpr hdigit,
        Bool.eq_false_iff.mpr hblank, hsymbol, hquote⟩
  · rintro (⟨hword, hdigit, hblank, hsymbol, hquote⟩ | ⟨rfl, hrest⟩)
    · have hcomment : ¬ (c = '/' ∧ rest.head? = some '/') := by
        rintro ⟨rfl, -⟩
        cases hsymbol
      rw [if_neg (Bool.eq_false_iff.mp hword), if_neg (Bool.eq_false_iff.mp hdigit),
        if_neg (Bool.eq_false_iff.mp hblank), if_neg hquote, if_neg hcomment, hsymbol]
      rfl
    · have hdrop : rest.dropWhile (· != '\"') = [] := by
        rw [← List.append_nil rest, List.dropWhile_append_of_pos (bne_of_not_mem hrest)]
        rfl
      rw [if_neg (by decide), if_neg (by decide), if_neg (by decide), if_pos rfl, hdrop]

end Lexeme

end Presage
