import Mathlib.Data.List.Forall2
import Presage.Proofs.Places
import Presage.Proofs.StatementReading

/-!
Two readings in step. `TokenStream.SameOffside` relates two streams with tokens of the same kinds
and values in which the same tokens belong to the bodies of functions. `Parse.Together` relates two
readers, of which one reads the first stream and the other the second: started at one index they
stop at one index, both with a result or both with the same cause. Results are related too: trees
have the same shape, and are built from the tokens at the same indices (`Node.Alike`).

For every reader one lemma puts it together from its parts. The repetitions and the levels of
expressions and statements are unfolded to bounds that may differ in the two readings, with anything
at all below: as every item and every operand passes a token, what is below is not reached. The
result is `Parse.together_statements`.
-/

set_option autoImplicit false
set_option relaxedAutoImplicit false

namespace Presage

/-! ### Trees of one shape -/

namespace TokenStream

/-- The span from the start of one token to the end of another, which may be the same. -/
def span? (stream : TokenStream) (start stop : Nat) : Option Span := do
  return ⟨(← stream.tokens[start]?).span.start, (← stream.tokens[stop]?).span.stop⟩

/-- Each of the spans goes from one token of its stream to another, and the indices are the same. -/
def SameSpan (first second : TokenStream) (span span' : Span) : Prop :=
  ∃ start stop, start ≤ stop ∧ first.span? start stop = some span ∧
    second.span? start stop = some span'

/-- The spans are those of two tokens at the same index. -/
def SameToken (first second : TokenStream) (span span' : Span) : Prop :=
  ∃ (index : Nat) (token token' : Token), first.tokens[index]? = some token ∧
    second.tokens[index]? = some token' ∧ token.span = span ∧ token'.span = span'

end TokenStream

open TokenStream (SameSpan SameToken)

/-- The trees have the same shape and are built, the first from the tokens of the first stream and
the second from those of the second, from the tokens at the same indices. -/
inductive Node.Alike (first second : TokenStream) : Node → Node → Prop
  | leaf {kind : LeafKind} {span span' : Span} (hspan : SameToken first second span span') :
      Alike first second (.leaf kind span) (.leaf kind span')
  | parenthesized {span span' : Span} {expression expression' : Node}
      (hspan : SameSpan first second span span')
      (hexpression : Alike first second expression expression') :
      Alike first second (.parenthesized span expression) (.parenthesized span' expression')
  | binary {span span' : Span} {left left' operator operator' right right' : Node}
      (hspan : SameSpan first second span span') (hleft : Alike first second left left')
      (hoperator : Alike first second operator operator')
      (hright : Alike first second right right') :
      Alike first second (.binary span left operator right) (.binary span' left' operator' right')
  | call {span span' : Span} {callee callee' : Node} {arguments arguments' : List Node}
      (hspan : SameSpan first second span span') (hcallee : Alike first second callee callee')
      (harguments : List.Forall₂ (Alike first second) arguments arguments') :
      Alike first second (.call span callee arguments) (.call span' callee' arguments')
  | keywordArgument {span span' : Span} {name name' value value' : Node}
      (hspan : SameSpan first second span span') (hname : Alike first second name name')
      (hvalue : Alike first second value value') :
      Alike first second (.keywordArgument span name value) (.keywordArgument span' name' value')
  | required {span span' : Span} {name name' : Node} (hspan : SameSpan first second span span')
      (hname : Alike first second name name') :
      Alike first second (.parameter span name none) (.parameter span' name' none)
  | optional {span span' : Span} {name name' default default' : Node}
      (hspan : SameSpan first second span span') (hname : Alike first second name name')
      (hdefault : Alike first second default default') :
      Alike first second (.parameter span name (some default))
        (.parameter span' name' (some default'))
  | variableDeclaration {span span' : Span} {name name' initializer initializer' : Node}
      (hspan : SameSpan first second span span') (hname : Alike first second name name')
      (hinitializer : Alike first second initializer initializer') :
      Alike first second (.variableDeclaration span name initializer)
        (.variableDeclaration span' name' initializer')
  | variableReassignment {span span' : Span} {name name' value value' : Node}
      (hspan : SameSpan first second span span') (hname : Alike first second name name')
      (hvalue : Alike first second value value') :
      Alike first second (.variableReassignment span name value)
        (.variableReassignment span' name' value')
  | comparison {span span' : Span} {left left' right right' : Node}
      (hspan : SameSpan first second span span') (hleft : Alike first second left left')
      (hright : Alike first second right right') :
      Alike first second (.comparisonStatement span left right)
        (.comparisonStatement span' left' right')
  | print {span span' : Span} {value value' : Node} (hspan : SameSpan first second span span')
      (hvalue : Alike first second value value') :
      Alike first second (.printStatement span value) (.printStatement span' value')
  | returnValue {span span' : Span} {value value' : Node}
      (hspan : SameSpan first second span span') (hvalue : Alike first second value value') :
      Alike first second (.returnStatement span value) (.returnStatement span' value')
  | yieldValue {span span' : Span} {value value' : Node}
      (hspan : SameSpan first second span span') (hvalue : Alike first second value value') :
      Alike first second (.yieldStatement span value) (.yieldStatement span' value')
  | functionDefinition {span span' : Span} {name name' : Node}
      {parameters parameters' body body' : List Node} (hspan : SameSpan first second span span')
      (hname : Alike first second name name')
      (hparameters : List.Forall₂ (Alike first second) parameters parameters')
      (hbody : List.Forall₂ (Alike first second) body body') :
      Alike first second (.functionDefinition span name parameters body)
        (.functionDefinition span' name' parameters' body')
  | predictiveLoop {span span' : Span}
      {iterator iterator' low low' high high' pattern pattern' : Node} {body body' : List Node}
      (hspan : SameSpan first second span span') (hiterator : Alike first second iterator iterator')
      (hlow : Alike first second low low') (hhigh : Alike first second high high')
      (hpattern : Alike first second pattern pattern')
      (hbody : List.Forall₂ (Alike first second) body body') :
      Alike first second (.predictiveLoop span iterator low high pattern body)
        (.predictiveLoop span' iterator' low' high' pattern' body')
  | program {statements statements' : List Node}
      (hstatements : List.Forall₂ (Alike first second) statements statements') :
      Alike first second (.program ⟨Position.start, first.eof.span.stop⟩ statements)
        (.program ⟨Position.start, second.eof.span.stop⟩ statements')

theorem Node.Alike.isIdentifier {first second : TokenStream} {node node' : Node}
    (h : Alike first second node node') : node.isIdentifier = node'.isIdentifier := by
  cases h with
  | @leaf kind _ _ _ => cases kind <;> rfl
  | _ => rfl

/-! ### Streams with the same offside rule -/

/-- The streams have tokens of the same kinds and values, and what follows a `then` is inside the
body of an earlier `define` in both streams or in neither. -/
structure TokenStream.SameOffside (first second : TokenStream) : Prop where
  length : first.tokens.length = second.tokens.length
  kind : ∀ index, (first.place index).current.kind = (second.place index).current.kind
  value : ∀ index, (first.place index).current.value = (second.place index).current.value
  inside : ∀ {opening word index : Nat}, opening < word → word < index →
    index < first.tokens.length → (first.place opening).current.kind = .kwDefine →
    (first.place word).current.kind = .kwThen →
    (Phrase.Inside (first.place opening).current (first.place word).current
        (first.place index).position ↔
      Phrase.Inside (second.place opening).current (second.place word).current
        (second.place index).position)

namespace TokenStream

/-- The span of the tokens from the place `start` up to the place `stop`. -/
def between (stream : TokenStream) (start stop : Nat) : Span :=
  (stream.place stop).spanFrom (stream.place start).position

theorem span?_eq_between {stream : TokenStream} {start stop : Nat} (hlt : start < stop)
    (hstop : stop ≤ stream.tokens.length) :
    stream.span? start (stop - 1) = some (stream.between start stop) := by
  obtain ⟨last, rfl⟩ : ∃ last, stop = last + 1 :=
    Nat.exists_eq_succ_of_ne_zero (Nat.ne_zero_of_lt hlt)
  unfold span? between Cursor.spanFrom Cursor.position
  rw [Nat.add_sub_cancel, stream.tokens_getElem? (Nat.lt_of_lt_of_le hlt hstop),
    stream.tokens_getElem? hstop, stream.passedEnd_place hstop]
  rfl

theorem between_succ (stream : TokenStream) {index : Nat} (h : index < stream.tokens.length) :
    stream.between index (index + 1) = (stream.place index).current.span := by
  unfold between Cursor.spanFrom
  rw [stream.passedEnd_place h]
  rfl

namespace SameOffside

variable {first second : TokenStream} (h : first.SameOffside second)

include h

theorem sameSpan {start stop : Nat} (hlt : start < stop) (hstop : stop ≤ first.tokens.length) :
    SameSpan first second (first.between start stop) (second.between start stop) :=
  ⟨start, stop - 1, Nat.le_sub_one_of_lt hlt, span?_eq_between hlt hstop,
    span?_eq_between hlt (h.length ▸ hstop)⟩

theorem sameToken {index : Nat} (hlt : index < first.tokens.length) :
    SameToken first second (first.place index).current.span (second.place index).current.span :=
  ⟨index, _, _, first.tokens_getElem? hlt, second.tokens_getElem? (h.length ▸ hlt), rfl, rfl⟩

theorem budget (index : Nat) : (first.place index).budget = (second.place index).budget := by
  rw [budget_place, budget_place, h.length]

end SameOffside

end TokenStream

open TokenStream (SameOffside)

/-! ### Readers in step -/

namespace Parse

variable {α β γ δ : Type}

/-- How two runs end that were started at the place `index`: at one place, not before `index`, both
with results that are related for this place, or both with one cause, at the token they stop at. -/
inductive InStep (first second : TokenStream) (related : Nat → α → β → Prop) (index : Nat) :
    EStateM.Result Diagnostic Cursor α → EStateM.Result Diagnostic Cursor β → Prop
  | ok {last : Nat} {value : α} {value' : β} (hle : index ≤ last)
      (hlast : last ≤ first.tokens.length) (hvalue : related last value value') :
      InStep first second related index (.ok value (first.place last))
        (.ok value' (second.place last))
  | error {last : Nat} {cause : Cause} (hle : index ≤ last) (hlast : last ≤ first.tokens.length) :
      InStep first second related index
        (.error ⟨cause, (first.place last).position⟩ (first.place last))
        (.error ⟨cause, (second.place last).position⟩ (second.place last))

/-- The readers are in step when the first is started at the place `index` of the first stream and
the second at that of the second stream. -/
def Together (first second : TokenStream) (related : Nat → α → β → Prop) (index : Nat)
    (reader : Parse α) (reader' : Parse β) : Prop :=
  InStep first second related index (reader (first.place index)) (reader' (second.place index))

/-- The trees were read from the place `index` up to the place `last`. -/
structure Read (first second : TokenStream) (index last : Nat) (node node' : Node) : Prop where
  lt : index < last
  alike : Node.Alike first second node node'
  span : node.span = first.between index last
  span' : node'.span = second.between index last

/-- The readers are in step from the place `start` on, and read trees. -/
def TogetherFrom (first second : TokenStream) (start : Nat) (reader reader' : Parse Node) : Prop :=
  ∀ index, start ≤ index → index ≤ first.tokens.length →
    Together first second (Read first second index) index reader reader'

/-- The trees in the two lists are alike. -/
def AllAlike (first second : TokenStream) (_ : Nat) (nodes nodes' : List Node) : Prop :=
  List.Forall₂ (Node.Alike first second) nodes nodes'

variable {first second : TokenStream} {index : Nat} {related : Nat → α → β → Prop}
  {result : Nat → γ → δ → Prop}

theorem InStep.mono {start : Nat} (hle : start ≤ index) {run : EStateM.Result Diagnostic Cursor α}
    {run' : EStateM.Result Diagnostic Cursor β} (h : InStep first second related index run run') :
    InStep first second related start run run' := by
  cases h with
  | ok hindex hlast hvalue => exact .ok (Nat.le_trans hle hindex) hlast hvalue
  | error hindex hlast => exact .error (Nat.le_trans hle hindex) hlast

namespace Together

theorem bind {reader : Parse α} {reader' : Parse β} {next : α → Parse γ} {next' : β → Parse δ}
    (h : Together first second related index reader reader')
    (hnext : ∀ {last : Nat} {value : α} {value' : β}, index ≤ last → last ≤ first.tokens.length →
      related last value value' → Together first second result last (next value) (next' value')) :
    Together first second result index (reader >>= next) (reader' >>= next') := by
  unfold Together at h ⊢
  show InStep first second result index (EStateM.bind reader next (first.place index))
    (EStateM.bind reader' next' (second.place index))
  unfold EStateM.bind
  generalize reader (first.place index) = run at h
  generalize reader' (second.place index) = run' at h
  cases h with
  | ok hle hlast hvalue => exact (hnext hle hlast hvalue).mono hle
  | error hle hlast => exact .error hle hlast

theorem pure {value : α} {value' : β} (hindex : index ≤ first.tokens.length)
    (hvalue : related index value value') :
    Together first second related index (Pure.pure value) (Pure.pure value') :=
  .ok (Nat.le_refl index) hindex hvalue

theorem mono {start : Nat} (hle : start ≤ index) {reader : Parse α} {reader' : Parse β}
    (h : Together first second related index reader reader') :
    InStep first second related start (reader (first.place index)) (reader' (second.place index)) :=
  InStep.mono hle h

section SameOffside

variable (hsame : first.SameOffside second)

include hsame

theorem unexpected (hindex : index ≤ first.tokens.length) :
    Together first second related index Parse.unexpected Parse.unexpected := by
  unfold Together Parse.unexpected
  rw [hsame.value index]
  exact .error (Nat.le_refl index) hindex

theorem unexpectedBecause (hindex : index ≤ first.tokens.length) (message : String) :
    Together first second related index (Parse.unexpectedBecause message)
      (Parse.unexpectedBecause message) := by
  unfold Together Parse.unexpectedBecause
  rw [hsame.value index]
  exact .error (Nat.le_refl index) hindex

/-- What would come after a failure is not read. -/
theorem unexpectedBecause_bind (hindex : index ≤ first.tokens.length) (message : String)
    {next : γ → Parse α} {next' : δ → Parse β} :
    Together first second related index (Parse.unexpectedBecause message >>= next)
      (Parse.unexpectedBecause message >>= next') := by
  have hstop : Together first second (fun _ _ _ ↦ False) index
      (Parse.unexpectedBecause message : Parse γ) (Parse.unexpectedBecause message : Parse δ) :=
    unexpectedBecause hsame hindex message
  exact bind hstop fun _ _ hfalse ↦ hfalse.elim

theorem kind {next : TokenKind → Parse α} {next' : TokenKind → Parse β}
    (h : Together first second related index (next (first.place index).current.kind)
      (next' (first.place index).current.kind)) :
    Together first second related index (Parse.kind >>= next) (Parse.kind >>= next') := by
  show InStep first second related index (next (first.place index).current.kind (first.place index))
    (next' (second.place index).current.kind (second.place index))
  rw [← hsame.kind index]
  exact h

theorem advance {next : Token → Parse α} {next' : Token → Parse β}
    (hindex : index < first.tokens.length)
    (h : Together first second related (index + 1) (next (first.place index).current)
      (next' (second.place index).current)) :
    Together first second related index (Parse.advance >>= next) (Parse.advance >>= next') := by
  show InStep first second related index
    (next (first.place index).current (first.place index).next)
    (next' (second.place index).current (second.place index).next)
  rw [first.next_place hindex, second.next_place (hsame.length ▸ hindex)]
  exact h.mono (Nat.le_succ index)

theorem expectOr {otherwise otherwise' : Parse Token} {expected : TokenKind} (hne : expected ≠ .eof)
    {next : Token → Parse α} {next' : Token → Parse β} (hindex : index ≤ first.tokens.length)
    (hotherwise : Together first second (fun _ _ _ ↦ False) index otherwise otherwise')
    (h : (first.place index).current.kind = expected → index < first.tokens.length →
      Together first second related (index + 1) (next (first.place index).current)
        (next' (second.place index).current)) :
    Together first second related index (Parse.expectOr otherwise expected >>= next)
      (Parse.expectOr otherwise' expected >>= next') := by
  unfold Parse.expectOr
  rw [bind_assoc, bind_assoc]
  refine kind hsame ?_
  by_cases hkind : (first.place index).current.kind = expected
  · rw [if_pos hkind, if_pos hkind]
    have hlt := first.lt_of_kind hindex hkind hne
    exact advance hsame hlt (h hkind hlt)
  · rw [if_neg hkind, if_neg hkind]
    exact bind hotherwise fun _ _ hfalse ↦ hfalse.elim

theorem expect {expected : TokenKind} (hne : expected ≠ .eof) {next : Token → Parse α}
    {next' : Token → Parse β} (hindex : index ≤ first.tokens.length)
    (h : (first.place index).current.kind = expected → index < first.tokens.length →
      Together first second related (index + 1) (next (first.place index).current)
        (next' (second.place index).current)) :
    Together first second related index (Parse.expect expected >>= next)
      (Parse.expect expected >>= next') :=
  expectOr hsame hne hindex (unexpected hsame hindex) h

theorem expectIdentifier {message : String} {next : Node → Parse α} {next' : Node → Parse β}
    (hindex : index ≤ first.tokens.length)
    (h : index < first.tokens.length →
      Together first second related (index + 1)
        (next (.leaf .identifier (first.place index).current.span))
        (next' (.leaf .identifier (second.place index).current.span))) :
    Together first second related index (Parse.expectIdentifier message >>= next)
      (Parse.expectIdentifier message >>= next') := by
  unfold Parse.expectIdentifier
  rw [bind_assoc, bind_assoc]
  refine expectOr hsame (by decide) hindex (unexpectedBecause hsame hindex message) fun _ hlt ↦ ?_
  rw [pure_bind, pure_bind]
  exact h hlt

end SameOffside

theorem current {next : Token → Parse α} {next' : Token → Parse β}
    (h : Together first second related index (next (first.place index).current)
      (next' (second.place index).current)) :
    Together first second related index (Parse.current >>= next) (Parse.current >>= next') :=
  h

theorem get {next : Cursor → Parse α} {next' : Cursor → Parse β}
    (h : Together first second related index (next (first.place index))
      (next' (second.place index))) :
    Together first second related index (MonadState.get >>= next) (MonadState.get >>= next') :=
  h

/-- The span up to here from a place before. -/
theorem spanFrom (start : Nat) {next : Span → Parse α} {next' : Span → Parse β}
    (h : Together first second related index (next (first.between start index))
      (next' (second.between start index))) :
    Together first second related index
      (Parse.spanFrom (first.place start).position >>= next)
      (Parse.spanFrom (second.place start).position >>= next') :=
  h

end Together

theorem TogetherFrom.mono {start start' : Nat} {reader reader' : Parse Node}
    (h : TogetherFrom first second start reader reader') (hle : start ≤ start') :
    TogetherFrom first second start' reader reader' :=
  fun place hplace ↦ h place (Nat.le_trans hle hplace)

/-! ### Repetitions -/

/-- What a round hands on from the later places to its own holds of the round unfolded in itself,
however often and over whatever, if that is more often than there are places left. -/
theorem iterate_of_round {round : α → α} {round' : β → β} {bottom : α} {bottom' : β} {bound : Nat}
    {motive : Nat → α → β → Prop}
    (hround : ∀ {index : Nat} {again : α} {again' : β}, index ≤ bound →
      (∀ place, index < place → place ≤ bound → motive place again again') →
        motive index (round again) (round' again'))
    {steps steps' : Nat} (hindex : index ≤ bound) (hsteps : bound - index < steps)
    (hsteps' : bound - index < steps') :
    motive index (round^[steps] bottom) (round'^[steps'] bottom') := by
  induction steps generalizing index steps' with
  | zero => omega
  | succ steps ih =>
    obtain ⟨steps', rfl⟩ : ∃ rounds, steps' = rounds + 1 :=
      Nat.exists_eq_succ_of_ne_zero (Nat.ne_zero_of_lt hsteps')
    rw [Function.iterate_succ_apply', Function.iterate_succ_apply']
    exact hround hindex fun place hplace hend ↦ ih hend (by omega) (by omega)

theorem together_whileRound {continues continues' : Cursor → Bool} {item item' : Parse Node}
    {again again' : Parse (List Node)}
    (hitem : Together first second (Read first second index) index item item')
    (hcontinues : continues (first.place index) = continues' (second.place index))
    (hagain : ∀ place, index < place → place ≤ first.tokens.length →
      Together first second (AllAlike first second) place again again')
    (hindex : index ≤ first.tokens.length) :
    Together first second (AllAlike first second) index (whileRound continues item again)
      (whileRound continues' item' again') := by
  refine Together.get ?_
  rw [← hcontinues]
  by_cases hmore : continues (first.place index) = true
  · rw [if_pos hmore, if_pos hmore]
    refine Together.bind hitem fun hle hlast hfirst ↦ ?_
    refine Together.bind (hagain _ hfirst.lt hlast) fun _ hend hrest ↦ ?_
    exact .pure hend (.cons hfirst.alike hrest)
  · rw [if_neg hmore, if_neg hmore]
    exact Together.pure hindex .nil

/-- Repetitions of items that pass a token are in step, whatever they read beyond a bound of more
rounds than there are tokens. -/
theorem together_whileRounds {continues continues' : Cursor → Bool} {item item' : Parse Node}
    {bottom bottom' : Parse (List Node)} {start steps steps' : Nat}
    (hitem : TogetherFrom first second start item item')
    (hcontinues : ∀ place, start ≤ place → place ≤ first.tokens.length →
      continues (first.place place) = continues' (second.place place))
    (hstart : start ≤ index) (hindex : index ≤ first.tokens.length)
    (hsteps : first.tokens.length - index < steps)
    (hsteps' : first.tokens.length - index < steps') :
    Together first second (AllAlike first second) index
      ((whileRound continues item)^[steps] bottom)
      ((whileRound continues' item')^[steps'] bottom') := by
  refine iterate_of_round
    (motive := fun place again again' ↦
      start ≤ place → Together first second (AllAlike first second) place again again')
    (fun {place _ _} hplace hagain hstart ↦ ?_) hindex hsteps hsteps' hstart
  exact together_whileRound (hitem place hstart hplace) (hcontinues place hstart hplace)
    (fun later hlater hend ↦ hagain later hlater hend (by omega)) hplace

variable (hsame : first.SameOffside second)

include hsame

theorem together_itemsRound {item item' : Parse Node} {again again' : Parse (List Node)}
    (hitem : Together first second (Read first second index) index item item')
    (hagain : ∀ place, index < place → place ≤ first.tokens.length →
      Together first second (AllAlike first second) place again again')
    (hindex : index ≤ first.tokens.length) :
    Together first second (AllAlike first second) index (itemsRound item again)
      (itemsRound item' again') := by
  refine Together.kind hsame ?_
  by_cases hclosing : (first.place index).current.kind = .closeParen
  · rw [if_pos hclosing, if_pos hclosing]
    exact Together.pure hindex .nil
  · rw [if_neg hclosing, if_neg hclosing]
    refine Together.bind hitem fun {last _ _} hle hlast hfirst ↦ ?_
    refine Together.kind hsame ?_
    by_cases hcomma : (first.place last).current.kind = .comma
    · rw [if_pos hcomma, if_pos hcomma]
      have hend := first.lt_of_kind hlast hcomma (by decide)
      refine Together.advance hsame hend ?_
      refine Together.bind (hagain _ (by omega) hend) fun _ hstop hrest ↦ ?_
      exact .pure hstop (.cons hfirst.alike hrest)
    · rw [if_neg hcomma, if_neg hcomma]
      exact Together.pure hlast (.cons hfirst.alike .nil)

/-- Lists of items are in step, in the same way. -/
theorem together_itemsRounds {item item' : Parse Node} {bottom bottom' : Parse (List Node)}
    {start steps steps' : Nat} (hitem : TogetherFrom first second start item item')
    (hstart : start ≤ index) (hindex : index ≤ first.tokens.length)
    (hsteps : first.tokens.length - index < steps)
    (hsteps' : first.tokens.length - index < steps') :
    Together first second (AllAlike first second) index ((itemsRound item)^[steps] bottom)
      ((itemsRound item')^[steps'] bottom') := by
  refine iterate_of_round
    (motive := fun place again again' ↦
      start ≤ place → Together first second (AllAlike first second) place again again')
    (fun {place _ _} hplace hagain hstart ↦ ?_) hindex hsteps hsteps' hstart
  exact together_itemsRound hsame (hitem place hstart hplace)
    (fun later hlater hend ↦ hagain later hlater hend (by omega)) hplace

theorem together_closedItems {item item' : Parse Node} {start : Nat}
    (hitem : TogetherFrom first second start item item') (hstart : start ≤ index)
    (hindex : index ≤ first.tokens.length) :
    Together first second (AllAlike first second) index (closedItems item) (closedItems item') := by
  have hitems : Together first second (AllAlike first second) index
      (itemsAtMost item (first.place index).budget)
      (itemsAtMost item' (second.place index).budget) := by
    rw [itemsAtMost_eq_iterate, itemsAtMost_eq_iterate, ← hsame.budget, TokenStream.budget_place]
    exact together_itemsRounds hsame hitem hstart hindex (Nat.lt_succ_self _) (Nat.lt_succ_self _)
  refine Together.get (Together.bind hitems fun _ hlast hnodes ↦ ?_)
  exact Together.expect hsame (by decide) hlast fun _ hlt ↦ .pure hlt hnodes

theorem together_repeatWhile {continues continues' : Cursor → Bool} {item item' : Parse Node}
    (hitem : TogetherFrom first second index item item')
    (hcontinues : ∀ place, index ≤ place → place ≤ first.tokens.length →
      continues (first.place place) = continues' (second.place place))
    (hindex : index ≤ first.tokens.length) :
    Together first second (AllAlike first second) index (repeatWhile continues item)
      (repeatWhile continues' item') := by
  unfold Together
  rw [repeatWhile_place, repeatWhile_place, ← hsame.length]
  exact together_whileRounds hitem hcontinues (Nat.le_refl index) hindex (Nat.lt_succ_self _)
    (Nat.lt_succ_self _)

/-! ### Expressions -/

theorem together_leaf (kind : LeafKind) (hlt : index < first.tokens.length) :
    Together first second (Read first second index) index
      (do return .leaf kind (← advance).span) (do return .leaf kind (← advance).span) := by
  refine Together.advance hsame hlt (.pure hlt ⟨Nat.lt_succ_self index, ?_, ?_, ?_⟩)
  · exact .leaf (hsame.sameToken hlt)
  · exact (first.between_succ hlt).symm
  · exact (second.between_succ (hsame.length ▸ hlt)).symm

theorem together_primary (hindex : index ≤ first.tokens.length) :
    Together first second (Read first second index) index primary primary := by
  refine Together.current ?_
  rw [← hsame.kind index, ← hsame.value index]
  cases hkind : (first.place index).current.kind with
  | number =>
    have hlt := first.lt_of_kind hindex hkind (by decide)
    by_cases hread : (Integer.read? (first.place index).current.value).isNone = true
    · simp only [if_pos hread]
      exact InStep.error (Nat.le_refl index) hindex
    · simp only [if_neg hread]
      exact together_leaf hsame .number hlt
  | string | identifier | kwTrue | kwFalse =>
    exact together_leaf hsame _ (first.lt_of_kind hindex hkind (by decide))
  | _ => exact Together.unexpected hsame hindex

section Forms

variable {inner inner' : BindingPower → Parse Node}

theorem together_grouping
    (hinner : ∀ power, TogetherFrom first second (index + 1) (inner power) (inner' power))
    (hlt : index < first.tokens.length) :
    Together first second (Read first second index) index (grouping inner) (grouping inner') := by
  refine Together.advance hsame hlt ?_
  refine Together.bind (hinner .default _ (Nat.le_refl _) hlt) fun {last _ _} _ hlast hinside ↦ ?_
  refine Together.expect hsame (by decide) hlast fun _ hend ↦ ?_
  have hless : index < last + 1 := Nat.lt_of_succ_lt (Nat.lt_succ_of_lt hinside.lt)
  refine Together.spanFrom index (.pure hend ⟨hless, ?_, rfl, rfl⟩)
  exact .parenthesized (hsame.sameSpan hless hend) hinside.alike

theorem together_argument {start : Nat}
    (hinner : ∀ power, TogetherFrom first second start (inner power) (inner' power)) :
    TogetherFrom first second start (argument inner) (argument inner') := by
  intro index hstart hindex
  refine Together.bind (hinner .default index hstart hindex) fun {last _ _} hle hlast hname ↦ ?_
  refine Together.kind hsame ?_
  rw [← hname.alike.isIdentifier]
  split
  · next hkeyword =>
    simp only [Bool.and_eq_true, decide_eq_true_eq] at hkeyword
    have hlt := first.lt_of_kind hlast hkeyword.2 (by decide)
    refine Together.advance hsame hlt ?_
    refine Together.bind (hinner .default _ (by omega) hlt) fun {stop _ _} _ hstop hvalue ↦ ?_
    have hless : index < stop := Nat.lt_trans hname.lt (Nat.lt_of_succ_lt hvalue.lt)
    rw [hname.span, hname.span']
    refine Together.spanFrom index (.pure hstop ⟨hless, ?_, rfl, rfl⟩)
    exact .keywordArgument (hsame.sameSpan hless hstop) hname.alike hvalue.alike
  · exact Together.pure hlast hname

/-- The trees were read from the place `start` up to the place `last`, which is after `index`. -/
def Extended (first second : TokenStream) (start index last : Nat) (node node' : Node) : Prop :=
  index < last ∧ Read first second start last node node'

section Extensions

variable {start : Nat} {left left' : Node}

theorem together_binary (power : BindingPower)
    (hinner : ∀ power, TogetherFrom first second (index + 1) (inner power) (inner' power))
    (hleft : Read first second start index left left') (hlt : index < first.tokens.length) :
    Together first second (Extended first second start index) index (binary inner power left)
      (binary inner' power left') := by
  refine Together.advance hsame hlt ?_
  refine Together.bind (hinner power _ (Nat.le_refl _) hlt) fun {last _ _} _ hlast hright ↦ ?_
  have hless : index < last := Nat.lt_of_succ_lt hright.lt
  have hstart : start < last := Nat.lt_trans hleft.lt hless
  rw [hleft.span, hleft.span', hright.span, hright.span']
  refine Together.pure hlast ⟨hless, hstart, ?_, rfl, rfl⟩
  exact .binary (hsame.sameSpan hstart hlast) hleft.alike (.leaf (hsame.sameToken hlt)) hright.alike

theorem together_call
    (hinner : ∀ power, TogetherFrom first second (index + 1) (inner power) (inner' power))
    (hleft : Read first second start index left left') (hlt : index < first.tokens.length) :
    Together first second (Extended first second start index) index (call inner left)
      (call inner' left') := by
  unfold call
  rw [← hleft.alike.isIdentifier]
  by_cases hcallee : (!left.isIdentifier) = true
  · simp only [if_pos hcallee]
    exact Together.unexpectedBecause_bind hsame (Nat.le_of_lt hlt) _
  · simp only [if_neg hcallee]
    refine Together.advance hsame hlt ?_
    have hitems := together_closedItems hsame (together_argument hsame hinner) (Nat.le_refl _) hlt
    refine Together.bind hitems fun {last _ _} hle hlast harguments ↦ ?_
    have hstart : start < last := Nat.lt_trans hleft.lt hle
    rw [hleft.span, hleft.span']
    refine Together.spanFrom start (.pure hlast ⟨hle, hstart, ?_, rfl, rfl⟩)
    exact .call (hsame.sameSpan hstart hlast) hleft.alike harguments

theorem together_extension {power : BindingPower} {form : ExtensionForm}
    (hform : Grammar.standard.extension (first.place index).current.kind = some (power, form))
    (hinner : ∀ power, TogetherFrom first second (index + 1) (inner power) (inner' power))
    (hleft : Read first second start index left left') (hindex : index ≤ first.tokens.length) :
    Together first second (Extended first second start index) index
      (extension inner power left form) (extension inner' power left' form) := by
  have hlt := first.lt_of_form rfl hindex hform
  cases form with
  | binary => exact together_binary hsame power hinner hleft hlt
  | call => exact together_call hsame hinner hleft hlt

theorem together_extendRound {least : BindingPower} {again again' : Node → Parse Node}
    (hinner : ∀ power, TogetherFrom first second (index + 1) (inner power) (inner' power))
    (hleft : Read first second start index left left')
    (hagain : ∀ place, index < place → place ≤ first.tokens.length → ∀ {longer longer' : Node},
      Read first second start place longer longer' →
        Together first second (Read first second start) place (again longer) (again' longer'))
    (hindex : index ≤ first.tokens.length) :
    Together first second (Read first second start) index
      (extendRound .standard inner least again left)
      (extendRound .standard inner' least again' left') := by
  refine Together.kind hsame ?_
  cases hform : Grammar.standard.extension (first.place index).current.kind with
  | none => exact Together.pure hindex hleft
  | some extended =>
    obtain ⟨power, form⟩ := extended
    by_cases htighter : least.rank < power.rank
    · simp only [if_pos htighter]
      refine Together.bind (together_extension hsame hform hinner hleft hindex)
        fun _ hlast hlonger ↦ ?_
      exact hagain _ hlonger.1 hlast hlonger.2
    · simp only [if_neg htighter]
      exact Together.pure hindex hleft

/-- Extensions are in step when the expressions inside them are. -/
theorem together_extendRounds {least : BindingPower} {bottom bottom' : Node → Parse Node}
    {steps steps' : Nat}
    (hinner : ∀ power, TogetherFrom first second (start + 1) (inner power) (inner' power))
    (hleft : Read first second start index left left') (hindex : index ≤ first.tokens.length)
    (hsteps : first.tokens.length - index < steps)
    (hsteps' : first.tokens.length - index < steps') :
    Together first second (Read first second start) index
      ((extendRound .standard inner least)^[steps] bottom left)
      ((extendRound .standard inner' least)^[steps'] bottom' left') := by
  refine iterate_of_round
    (motive := fun place (again again' : Node → Parse Node) ↦
      ∀ left left', Read first second start place left left' →
        Together first second (Read first second start) place (again left) (again' left'))
    (fun {place _ _} hplace hagain _ _ hleft ↦ ?_) hindex hsteps hsteps' left left' hleft
  have hlater : ∀ power, TogetherFrom first second (place + 1) (inner power) (inner' power) :=
    fun power ↦ (hinner power).mono (Nat.succ_le_succ (Nat.le_of_lt hleft.lt))
  exact together_extendRound hsame hlater hleft
    (fun later hless hend _ _ ↦ hagain later hless hend _ _) hplace

end Extensions

theorem together_operand {form : OperandForm}
    (hform : Grammar.standard.operand (first.place index).current.kind = some form)
    (hinner : ∀ power, TogetherFrom first second (index + 1) (inner power) (inner' power))
    (hindex : index ≤ first.tokens.length) :
    Together first second (Read first second index) index (operand inner form)
      (operand inner' form) := by
  cases form with
  | primary => exact together_primary hsame hindex
  | grouping =>
    have hkind := Grammar.openParen_of_operand hform
    exact together_grouping hsame hinner (first.lt_of_kind hindex hkind (by decide))

theorem together_expressionLevel {least : BindingPower}
    (hinner : ∀ power, TogetherFrom first second (index + 1) (inner power) (inner' power))
    (hindex : index ≤ first.tokens.length) :
    Together first second (Read first second index) index (expressionLevel .standard inner least)
      (expressionLevel .standard inner' least) := by
  refine Together.kind hsame ?_
  cases hform : Grammar.standard.operand (first.place index).current.kind with
  | none => exact Together.unexpected hsame hindex
  | some form =>
    refine Together.bind (together_operand hsame hform hinner hindex)
      fun {last _ _} _ hlast hleft ↦ Together.get ?_
    rw [extendAtMost_eq_iterate, extendAtMost_eq_iterate, ← hsame.budget, TokenStream.budget_place]
    exact together_extendRounds hsame hinner hleft hlast (Nat.lt_succ_self _) (Nat.lt_succ_self _)

end Forms

/-- Expressions are in step at every place from which fewer tokens are left than there are levels:
an expression inside another starts behind a token of it. -/
theorem together_expressionLevels {bottom bottom' : BindingPower → Parse Node} {depth depth' : Nat}
    (least : BindingPower) (hindex : index ≤ first.tokens.length)
    (hdepth : first.tokens.length - index < depth)
    (hdepth' : first.tokens.length - index < depth') :
    Together first second (Read first second index) index
      ((expressionLevel .standard)^[depth] bottom least)
      ((expressionLevel .standard)^[depth'] bottom' least) := by
  refine iterate_of_round
    (motive := fun place (inner inner' : BindingPower → Parse Node) ↦ ∀ least,
      Together first second (Read first second place) place (inner least) (inner' least))
    (fun {place _ _} hplace hinner least ↦ ?_) hindex hdepth hdepth' least
  exact together_expressionLevel hsame
    (fun power later hlater hend ↦ hinner later hlater hend power) hplace

theorem together_expression (least : BindingPower) :
    TogetherFrom first second 0 (expression .standard least) (expression .standard least) := by
  intro index _ hindex
  unfold Together
  rw [expression_place, expression_place, ← hsame.length]
  exact together_expressionLevels hsame least hindex (Nat.lt_succ_self _) (Nat.lt_succ_self _)

/-! ### Statements -/

theorem together_variableDeclaration (hlt : index < first.tokens.length) :
    Together first second (Read first second index) index (variableDeclaration .standard)
      (variableDeclaration .standard) := by
  refine Together.advance hsame hlt ?_
  refine Together.expectIdentifier hsame hlt fun hname ↦ ?_
  refine Together.expect hsame (by decide) hname fun _ hsign ↦ ?_
  refine Together.bind (together_expression hsame .default _ (Nat.zero_le _) hsign)
    fun {last _ _} hle hlast hinitializer ↦ ?_
  have hless : index < last := by omega
  refine Together.spanFrom index (.pure hlast ⟨hless, ?_, rfl, rfl⟩)
  exact .variableDeclaration (hsame.sameSpan hless hlast) (.leaf (hsame.sameToken hname))
    hinitializer.alike

theorem together_parameter :
    TogetherFrom first second 0 (parameter .standard) (parameter .standard) := by
  intro index _ hindex
  refine Together.expectIdentifier hsame hindex fun hname ↦ ?_
  refine Together.kind hsame ?_
  by_cases hsign : (first.place (index + 1)).current.kind = .assignment
  · rw [if_pos hsign, if_pos hsign]
    have hlt := first.lt_of_kind hname hsign (by decide)
    refine Together.advance hsame hlt ?_
    refine Together.bind (together_expression hsame .default _ (Nat.zero_le _) hlt)
      fun {last _ _} hle hlast hdefault ↦ ?_
    have hless : index < last := by omega
    refine Together.spanFrom index (.pure hlast ⟨hless, ?_, rfl, rfl⟩)
    exact .optional (hsame.sameSpan hless hlast) (.leaf (hsame.sameToken hname)) hdefault.alike
  · rw [if_neg hsign, if_neg hsign]
    refine Together.spanFrom index (.pure hname ⟨Nat.lt_succ_self index, ?_, rfl, rfl⟩)
    exact .required (hsame.sameSpan (Nat.lt_succ_self index) hname) (.leaf (hsame.sameToken hname))

omit hsame in
/-- The current token belongs to the body of a function when the offside rule says so, unless it
ends the stream or closes a block. -/
theorem inBody_eq_true_iff {defineToken thenToken : Token} {cursor : Cursor} :
    inBody defineToken thenToken cursor = true ↔
      cursor.hasTokens = true ∧ cursor.current.kind ≠ .closeCurly ∧
        Phrase.Inside defineToken thenToken cursor.position := by
  unfold inBody Phrase.Inside
  rw [Bool.and_eq_true, Bool.and_eq_true, Bool.or_eq_true, bne_iff_ne, beq_iff_eq,
    decide_eq_true_eq, and_assoc]

/-- The same tokens belong to the body of a function in both streams. -/
theorem inBody_place {opening word place : Nat} (hopening : opening < word) (hword : word < place)
    (hdefine : (first.place opening).current.kind = .kwDefine)
    (hthen : (first.place word).current.kind = .kwThen) :
    inBody (first.place opening).current (first.place word).current (first.place place) =
      inBody (second.place opening).current (second.place word).current (second.place place) := by
  rw [Bool.eq_iff_iff, inBody_eq_true_iff, inBody_eq_true_iff, TokenStream.hasTokens_place,
    TokenStream.hasTokens_place, ← hsame.kind place, ← hsame.length]
  refine and_congr_right fun hplace ↦ and_congr_right fun _ ↦ ?_
  exact hsame.inside hopening hword hplace hdefine hthen

theorem together_functionDefinition {inner inner' : Parse Node}
    (hinner : TogetherFrom first second (index + 1) inner inner')
    (hdefine : (first.place index).current.kind = .kwDefine) (hlt : index < first.tokens.length) :
    Together first second (Read first second index) index (functionDefinition .standard inner)
      (functionDefinition .standard inner') := by
  refine Together.advance hsame hlt ?_
  refine Together.expectIdentifier hsame hlt fun hname ↦ ?_
  refine Together.expect hsame (by decide) hname fun _ hopen ↦ ?_
  refine Together.bind (together_closedItems hsame (together_parameter hsame) (Nat.zero_le _) hopen)
    fun {word _ _} hword hend hparameters ↦ ?_
  refine Together.expect hsame (by decide) hend fun hthen hbody ↦ ?_
  have hstatements := together_repeatWhile hsame
    (fun place hplace ↦ hinner place (by omega)) (fun place hplace _ ↦
      inBody_place hsame (by omega) hplace hdefine hthen) hbody
  refine Together.bind hstatements fun {last body body'} hle hlast halike ↦ ?_
  have hempty : body.isEmpty = body'.isEmpty := by cases halike <;> rfl
  rw [← hempty]
  by_cases hnone : body.isEmpty = true
  · simp only [if_pos hnone]
    exact Together.unexpectedBecause_bind hsame hlast _
  · simp only [if_neg hnone]
    have hless : index < last := by omega
    refine Together.spanFrom index (.pure hlast ⟨hless, ?_, rfl, rfl⟩)
    exact .functionDefinition (hsame.sameSpan hless hlast) (.leaf (hsame.sameToken hname))
      hparameters halike

theorem together_predictiveLoop {inner inner' : Parse Node}
    (hinner : TogetherFrom first second (index + 1) inner inner')
    (hlt : index < first.tokens.length) :
    Together first second (Read first second index) index (predictiveLoop .standard inner)
      (predictiveLoop .standard inner') := by
  refine Together.advance hsame hlt ?_
  refine Together.expectIdentifier hsame hlt fun hiterator ↦ ?_
  refine Together.expect hsame (by decide) hiterator fun _ hin ↦ ?_
  refine Together.expect hsame (by decide) hin fun _ hrange ↦ ?_
  refine Together.expect hsame (by decide) hrange fun _ hopen ↦ ?_
  refine Together.bind (together_expression hsame .default _ (Nat.zero_le _) hopen)
    fun hlowLe hlowEnd hlow ↦ ?_
  refine Together.expect hsame (by decide) hlowEnd fun _ hcomma ↦ ?_
  refine Together.bind (together_expression hsame .default _ (Nat.zero_le _) hcomma)
    fun hhighLe hhighEnd hhigh ↦ ?_
  refine Together.expect hsame (by decide) hhighEnd fun _ hcomma' ↦ ?_
  refine Together.expectIdentifier hsame hcomma' fun hpattern ↦ ?_
  refine Together.expect hsame (by decide) hpattern fun _ hclose ↦ ?_
  refine Together.expect hsame (by decide) hclose fun _ hcurly ↦ ?_
  refine Together.bind (together_repeatWhile hsame (fun place hplace ↦ hinner place (by omega))
    (fun place _ _ ↦ by rw [hsame.kind place]) hcurly) fun {last _ _} hbodyLe hbodyEnd hbody ↦ ?_
  refine Together.expect hsame (by decide) hbodyEnd fun _ hend ↦ ?_
  have hless : index < last + 1 := by omega
  refine Together.spanFrom index (.pure hend ⟨hless, ?_, rfl, rfl⟩)
  exact .predictiveLoop (hsame.sameSpan hless hend) (.leaf (hsame.sameToken hiterator)) hlow.alike
    hhigh.alike (.leaf (hsame.sameToken hpattern)) hbody

theorem together_comparison (hlt : index < first.tokens.length) :
    Together first second (Read first second index) index (comparison .standard)
      (comparison .standard) := by
  refine Together.advance hsame hlt ?_
  refine Together.bind (together_expression hsame .default _ (Nat.zero_le _) hlt)
    fun hleftLe hleftEnd hleft ↦ ?_
  refine Together.expect hsame (by decide) hleftEnd fun _ hword ↦ ?_
  refine Together.bind (together_expression hsame .default _ (Nat.zero_le _) hword)
    fun {last _ _} hle hlast hright ↦ ?_
  have hless : index < last := by omega
  refine Together.spanFrom index (.pure hlast ⟨hless, ?_, rfl, rfl⟩)
  exact .comparison (hsame.sameSpan hless hlast) hleft.alike hright.alike

theorem together_wordAndExpression {build : Span → Node → Node}
    (hspan : ∀ span value, (build span value).span = span)
    (hbuild : ∀ {span span' : Span} {value value' : Node}, SameSpan first second span span' →
      Node.Alike first second value value' →
      Node.Alike first second (build span value) (build span' value'))
    (hlt : index < first.tokens.length) :
    Together first second (Read first second index) index (wordAndExpression .standard build)
      (wordAndExpression .standard build) := by
  refine Together.advance hsame hlt ?_
  refine Together.bind (together_expression hsame .default _ (Nat.zero_le _) hlt)
    fun {last _ _} hle hlast hvalue ↦ ?_
  have hless : index < last := by omega
  refine Together.spanFrom index (.pure hlast ⟨hless, ?_, hspan _ _, hspan _ _⟩)
  exact hbuild (hsame.sameSpan hless hlast) hvalue.alike

theorem together_statementForm {form : StatementForm} {inner inner' : Parse Node}
    (hform : Grammar.standard.statement (first.place index).current.kind = some form)
    (hinner : TogetherFrom first second (index + 1) inner inner')
    (hindex : index ≤ first.tokens.length) :
    Together first second (Read first second index) index (statementForm .standard inner form)
      (statementForm .standard inner' form) := by
  have hlt := first.lt_of_form rfl hindex hform
  cases form with
  | variableDeclaration => exact together_variableDeclaration hsame hlt
  | functionDefinition =>
    exact together_functionDefinition hsame hinner (Grammar.word_of_statement hform) hlt
  | predictiveLoop => exact together_predictiveLoop hsame hinner hlt
  | comparison => exact together_comparison hsame hlt
  | print => exact together_wordAndExpression hsame (fun _ _ ↦ rfl) .print hlt
  | returnValue => exact together_wordAndExpression hsame (fun _ _ ↦ rfl) .returnValue hlt
  | yieldValue => exact together_wordAndExpression hsame (fun _ _ ↦ rfl) .yieldValue hlt

theorem together_simpleStatement (hindex : index ≤ first.tokens.length) :
    Together first second (Read first second index) index (simpleStatement .standard)
      (simpleStatement .standard) := by
  refine Together.kind hsame ?_
  by_cases hkind : (first.place index).current.kind ≠ .identifier
  · simp only [if_pos hkind]
    exact Together.unexpectedBecause_bind hsame hindex _
  simp only [if_neg hkind]
  refine Together.bind (together_expression hsame .default _ (Nat.zero_le _) hindex)
    fun {last node node'} hle hlast hread ↦ ?_
  obtain ⟨hless, halike, hspan, hspan'⟩ := hread
  cases halike with
  | call hcall hcallee harguments =>
    exact Together.pure hlast ⟨hless, .call hcall hcallee harguments, hspan, hspan'⟩
  | @leaf leafKind span span' hleaf =>
    cases leafKind with
    | identifier =>
      refine Together.kind hsame ?_
      by_cases hsign : (first.place last).current.kind = .assignment
      · rw [if_pos hsign, if_pos hsign]
        have hlt := first.lt_of_kind hlast hsign (by decide)
        refine Together.advance hsame hlt ?_
        refine Together.bind (together_expression hsame .default _ (Nat.zero_le _) hlt)
          fun {stop _ _} _ hstop hvalue ↦ ?_
        have hwhole : index < stop := by omega
        rw [hspan, hspan']
        refine Together.spanFrom index (.pure hstop ⟨hwhole, ?_, rfl, rfl⟩)
        exact .variableReassignment (hsame.sameSpan hwhole hstop) (.leaf hleaf) hvalue.alike
      · rw [if_neg hsign, if_neg hsign]
        exact Together.unexpectedBecause hsame hlast _
    | _ => exact Together.unexpectedBecause hsame hlast _
  | _ => exact Together.unexpectedBecause hsame hlast _

theorem together_statementLevel {inner inner' : Parse Node}
    (hinner : TogetherFrom first second (index + 1) inner inner')
    (hindex : index ≤ first.tokens.length) :
    Together first second (Read first second index) index (statementLevel .standard inner)
      (statementLevel .standard inner') := by
  refine Together.kind hsame ?_
  cases hform : Grammar.standard.statement (first.place index).current.kind with
  | none => exact together_simpleStatement hsame hindex
  | some form => exact together_statementForm hsame hform hinner hindex

/-- Statements are in step, as expressions are: a statement inside another starts behind a token of
it. -/
theorem together_statementLevels {bottom bottom' : Parse Node} {depth depth' : Nat}
    (hindex : index ≤ first.tokens.length) (hdepth : first.tokens.length - index < depth)
    (hdepth' : first.tokens.length - index < depth') :
    Together first second (Read first second index) index
      ((statementLevel .standard)^[depth] bottom)
      ((statementLevel .standard)^[depth'] bottom') := by
  refine iterate_of_round
    (motive := fun place inner inner' ↦
      Together first second (Read first second place) place inner inner')
    (fun {place _ _} hplace hinner ↦ ?_) hindex hdepth hdepth'
  exact together_statementLevel hsame hinner hplace

theorem together_statement :
    TogetherFrom first second 0 (statement .standard) (statement .standard) := by
  intro index _ hindex
  unfold Together
  rw [statement_place, statement_place, ← hsame.length]
  exact together_statementLevels hsame hindex (Nat.lt_succ_self _) (Nat.lt_succ_self _)

/-- Whole programs are read in step. -/
theorem together_statements :
    Together first second (AllAlike first second) 0 (statements .standard)
      (statements .standard) := by
  refine together_repeatWhile hsame (together_statement hsame) (fun place _ _ ↦ ?_) (Nat.zero_le _)
  rw [Bool.eq_iff_iff, TokenStream.hasTokens_place, TokenStream.hasTokens_place, hsame.length]

end Parse

end Presage
