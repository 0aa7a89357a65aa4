import Mathlib
import Presage.Proofs.Legibility

/-!
The text of an expression has one reading. A term is written without precedences: operations are in
parentheses, arguments have commas between them, and a string can hold anything that looks like the
rest. `Script.readTerm?` reads a term back from the head of a text, by the first character that is
no part of a word: an operation starts with a parenthesis and a string with a quote, and a word is a
leaf or, before a parenthesis, what is called.

A legible term is read back whatever follows it (`Term.Legible.reads`), so no two of them are
written alike. The operators of a script are those of the program in other words, so what is written
for an expression also gives the expression back, up to its types and its names
(`Emitter.erase_eq_mapOperators`). Both hold of the expressions of accepted programs, in every state
that an emitter gets to (`Emitter.Arises.legible`).
-/

set_option autoImplicit false
set_option relaxedAutoImplicit false

namespace Presage

namespace Script

/-! ### Reading terms -/

/-- The term that is written as a word or a number. -/
def readLeaf (text : List Char) : Term :=
  if text = "true".toList then .boolean true
  else if text = "false".toList then .boolean false
  else if text.head? = some '-' then .number (-(Nat.ofDigitChars 10 text.tail 0 : Nat))
  else if text.all Char.isDigit then .number (Nat.ofDigitChars 10 text 0)
  else .name (String.ofList text)

/-- Reads an operator between two spaces. -/
def readOperator? : List Char → Option (String × List Char)
  | ' ' :: text =>
    match text.dropWhile (· != ' ') with
    | [] => none
    | _ :: rest => some (String.ofList (text.takeWhile (· != ' ')), rest)
  | _ => none

mutual

/-- Reads a term and gives it with what follows it. -/
def readTerm? : Nat → List Char → Option (Term × List Char)
  | 0, _ => none
  | fuel + 1, '(' :: text => do
    let (left, afterLeft) ← readTerm? fuel text
    let (operator, afterOperator) ← readOperator? afterLeft
    let (right, afterRight) ← readTerm? fuel afterOperator
    if afterRight.head? = some ')' then return (.binary operator left right, afterRight.tail)
    else none
  | _ + 1, '\"' :: text => do
    let (inside, rest) ← readInside? text
    return (.string (String.ofList inside), rest)
  | fuel + 1, text => readWord? fuel (text.takeWhile isLeafPart) (text.dropWhile isLeafPart)

/-- The term that a word starts: a call, if a parenthesis follows. -/
def readWord? : Nat → List Char → List Char → Option (Term × List Char)
  | 0, _, _ => none
  | fuel + 1, word, '(' :: inside => do
    let (arguments, rest) ← readArguments? fuel inside
    return (.call (String.ofList word) arguments, rest)
  | _ + 1, word, rest => some (readLeaf word, rest)

/-- Reads arguments from behind the opening parenthesis to behind the closing one. -/
def readArguments? : Nat → List Char → Option (List Term × List Char)
  | 0, _ => none
  | _ + 1, ')' :: rest => some ([], rest)
  | fuel + 1, text => do
    let (first, afterFirst) ← readTerm? fuel text
    let (others, rest) ← readFurther? fuel afterFirst
    return (first :: others, rest)

/-- Reads what follows an argument up to behind the closing parenthesis. -/
def readFurther? : Nat → List Char → Option (List Term × List Char)
  | 0, _ => none
  | _ + 1, ')' :: rest => some ([], rest)
  | fuel + 1, ',' :: ' ' :: text => do
    let (next, afterNext) ← readTerm? fuel text
    let (others, rest) ← readFurther? fuel afterNext
    return (next :: others, rest)
  | _ + 1, _ => none

end

/-! ### Terms as characters -/

/-- What is written behind an argument: the further ones, and the closing parenthesis. -/
def further (values : List Term) : List Char :=
  values.flatMap (fun value ↦ ',' :: ' ' :: value.render.toList) ++ [')']

theorem further_cons (value : Term) (rest : List Term) :
    further (value :: rest) = ',' :: ' ' :: (value.render.toList ++ further rest) := by
  simp [further]

theorem toList_intercalate_cons (value : Term) (rest : List Term) :
    (", ".intercalate (Term.renderAll (value :: rest))).toList ++ [')'] =
      value.render.toList ++ further rest := by
  induction rest generalizing value with
  | nil => simp [Term.renderAll, further]
  | cons next rest ih =>
    have hnext := ih next
    simp only [Term.renderAll, String.intercalate_cons_cons] at hnext ⊢
    rw [further_cons, ← hnext]
    simp

theorem toList_render_call_nil (callee : String) :
    (Term.call callee []).render.toList = callee.toList ++ ['(', ')'] := by
  simp [toList_render_call, Term.renderAll]

theorem toList_render_call_cons (callee : String) (value : Term) (rest : List Term) :
    (Term.call callee (value :: rest)).render.toList =
      callee.toList ++ '(' :: (value.render.toList ++ further rest) := by
  rw [toList_render_call, toList_intercalate_cons]

/-! ### Terms are read back -/

/-- What may follow a term: nothing, a space, a comma or a closing parenthesis. -/
def Follows (rest : List Char) : Prop := ∀ c ∈ rest.head?, c = ' ' ∨ c = ',' ∨ c = ')'

theorem follows_further (values : List Term) (rest : List Char) :
    Follows (further values ++ rest) := by
  intro c hc
  cases values with
  | nil => exact Or.inr (Or.inr (Option.some.inj hc).symm)
  | cons value others => exact Or.inr (Or.inl (Option.some.inj hc).symm)

/-- A word is read as far as it goes. -/
theorem readTerm?_word (fuel : Nat) {word rest : List Char} (hne : word ≠ [])
    (hword : ∀ c ∈ word, isLeafPart c = true) (hrest : ∀ c ∈ rest.head?, isLeafPart c = false) :
    readTerm? (fuel + 1) (word ++ rest) = readWord? fuel word rest := by
  have hrun := @Lexeme.run_append isLeafPart (fun _ ↦ none) word rest hword hrest
  have htake : (word ++ rest).takeWhile isLeafPart = word := congrArg Lexeme.text hrun
  have hdrop : (word ++ rest).dropWhile isLeafPart = rest := congrArg Lexeme.rest hrun
  obtain ⟨c, others, rfl⟩ := List.exists_cons_of_ne_nil hne
  have hc := hword c List.mem_cons_self
  rw [readTerm?, htake, hdrop]
  · rintro text h
    rw [(List.cons.inj h).1] at hc
    cases hc
  · rintro text h
    rw [(List.cons.inj h).1] at hc
    cases hc

theorem readTerm?_leaf (fuel : Nat) {word rest : List Char} (hne : word ≠ [])
    (hword : ∀ c ∈ word, isLeafPart c = true) (hrest : Follows rest) :
    readTerm? (fuel + 2) (word ++ rest) = some (readLeaf word, rest) := by
  rw [readTerm?_word (fuel + 1) hne hword, readWord?]
  · rintro inside rfl
    rcases hrest '(' rfl with h | h | h <;> cases h
  · intro c hc
    rcases hrest c hc with rfl | rfl | rfl <;> decide

theorem readTerm?_call (fuel : Nat) {callee : String} {inside rest : List Char}
    {arguments : List Term} (hcallee : IsName callee)
    (harguments : readArguments? fuel inside = some (arguments, rest)) :
    readTerm? (fuel + 2) (callee.toList ++ '(' :: inside) =
      some (.call callee arguments, rest) := by
  rw [readTerm?_word (fuel + 1) hcallee.ne_nil (isLeafPart_of_isName hcallee), readWord?,
    harguments]
  · simp
  · intro c hc
    obtain rfl := Option.some.inj hc
    decide

theorem readOperator?_append {operator : String} (h : ' ' ∉ operator.toList) (rest : List Char) :
    readOperator? (' ' :: (operator.toList ++ ' ' :: rest)) = some (operator, rest) := by
  have hbefore := Lexeme.bne_of_not_mem h
  rw [readOperator?, List.dropWhile_append_of_pos hbefore, List.takeWhile_append_of_pos hbefore]
  simp

/-- The term is read back with any amount of fuel that is large enough, whatever follows it. -/
def Reads (value : Term) : Prop :=
  ∃ least, ∀ fuel, least ≤ fuel → ∀ rest, Follows rest →
    readTerm? fuel (value.render.toList ++ rest) = some (value, rest)

theorem reads_leaf {value : Term} (hne : value.render.toList ≠ [])
    (hparts : ∀ c ∈ value.render.toList, isLeafPart c = true)
    (hleaf : readLeaf value.render.toList = value) : Reads value := by
  refine ⟨2, fun fuel hfuel rest hrest ↦ ?_⟩
  obtain ⟨fuel, rfl⟩ := Nat.exists_eq_add_of_le' hfuel
  rw [readTerm?_leaf fuel hne hparts hrest, hleaf]

theorem reads_string (value : String) : Reads (.string value) := by
  refine ⟨1, fun fuel hfuel rest _ ↦ ?_⟩
  obtain ⟨fuel, rfl⟩ := Nat.exists_eq_add_of_le' hfuel
  rw [Term.render, toList_quote, List.cons_append, List.append_assoc, List.singleton_append,
    readTerm?, readInside?_flatMap_escape]
  simp

theorem reads_binary {operator : String} {left right : Term} (hoperator : operator ∈ operators)
    (hleft : Reads left) (hright : Reads right) : Reads (.binary operator left right) := by
  obtain ⟨leftLeast, hleft⟩ := hleft
  obtain ⟨rightLeast, hright⟩ := hright
  have hspace : ∀ operator ∈ operators, ' ' ∉ operator.toList := by decide
  refine ⟨max leftLeast rightLeast + 1, fun fuel hfuel rest _ ↦ ?_⟩
  obtain ⟨fuel, rfl⟩ := Nat.exists_eq_add_of_le' (Nat.le_of_add_left_le hfuel)
  have hleft := hleft fuel (by omega) (' ' :: (operator.toList ++ ' ' ::
    (right.render.toList ++ ')' :: rest))) (by simp [Follows])
  have hright := hright fuel (by omega) (')' :: rest) (by simp [Follows])
  rw [toList_render_binary]
  simp only [List.cons_append, List.append_assoc, List.nil_append]
  rw [readTerm?, hleft]
  simp only [Option.bind_eq_bind, Option.bind_some, readOperator?_append (hspace _ hoperator),
    hright]
  simp

/-- The arguments behind the first are read back up to the closing parenthesis. -/
theorem reads_further {values : List Term} (hvalues : ∀ value ∈ values, Reads value) :
    ∃ least, ∀ fuel, least ≤ fuel → ∀ rest,
      readFurther? fuel (further values ++ rest) = some (values, rest) := by
  induction values with
  | nil =>
    refine ⟨1, fun fuel hfuel rest ↦ ?_⟩
    obtain ⟨fuel, rfl⟩ := Nat.exists_eq_add_of_le' hfuel
    simp [further, readFurther?]
  | cons value others ih =>
    obtain ⟨⟨valueLeast, hvalue⟩, hothers⟩ := List.forall_mem_cons.mp hvalues
    obtain ⟨othersLeast, hothers⟩ := ih hothers
    refine ⟨max valueLeast othersLeast + 1, fun fuel hfuel rest ↦ ?_⟩
    obtain ⟨fuel, rfl⟩ := Nat.exists_eq_add_of_le' (Nat.le_of_add_left_le hfuel)
    have hvalue := hvalue fuel (by omega) (further others ++ rest) (follows_further others rest)
    have hothers := hothers fuel (by omega) rest
    rw [further_cons]
    simp only [List.cons_append, List.append_assoc]
    rw [readFurther?, hvalue]
    simp [hothers]

theorem readArguments?_cons (fuel : Nat) {value : Term} (hvalue : value.Legible)
    (rest : List Char) :
    readArguments? (fuel + 1) (value.render.toList ++ rest) = do
      let (first, afterFirst) ← readTerm? fuel (value.render.toList ++ rest)
      let (others, after) ← readFurther? fuel afterFirst
      return (first :: others, after) := by
  obtain ⟨c, text, hrender, hne⟩ := hvalue.start_ne (d := ')') rfl (by decide) (by decide)
  rw [hrender, List.cons_append, readArguments?]
  exact fun after h ↦ hne (List.cons.inj h).1

theorem reads_call {callee : String} {arguments : List Term} (hcallee : IsName callee)
    (hlegible : ∀ value ∈ arguments, value.Legible) (hvalues : ∀ value ∈ arguments, Reads value) :
    Reads (.call callee arguments) := by
  cases arguments with
  | nil =>
    refine ⟨3, fun fuel hfuel rest _ ↦ ?_⟩
    obtain ⟨fuel, rfl⟩ := Nat.exists_eq_add_of_le' hfuel
    rw [toList_render_call_nil, List.append_assoc]
    exact readTerm?_call (fuel + 1) hcallee rfl
  | cons value others =>
    obtain ⟨⟨valueLeast, hvalue⟩, hothers⟩ := List.forall_mem_cons.mp hvalues
    obtain ⟨othersLeast, hothers⟩ := reads_further hothers
    refine ⟨max valueLeast othersLeast + 3, fun fuel hfuel rest _ ↦ ?_⟩
    obtain ⟨fuel, rfl⟩ := Nat.exists_eq_add_of_le' (Nat.le_of_add_left_le hfuel)
    have hvalue := hvalue fuel (by omega) (further others ++ rest) (follows_further others rest)
    have hothers := hothers fuel (by omega) rest
    rw [toList_render_call_cons, List.append_assoc, List.cons_append, List.append_assoc]
    refine readTerm?_call (fuel + 1) hcallee ?_
    rw [readArguments?_cons fuel (hlegible value List.mem_cons_self), hvalue]
    simp [hothers]

theorem readLeaf_name {text : String} (h : IsName text) : readLeaf text.toList = .name text := by
  obtain ⟨c, rest, htext, hstart⟩ := h.start
  have hsign : text.toList.head? ≠ some '-' := by
    rw [htext]
    rintro hc
    rw [Option.some.inj hc] at hstart
    cases hstart
  have hdigits : ¬ text.toList.all Char.isDigit = true := by
    intro hall
    have hdigit := List.all_eq_true.mp hall c (by rw [htext]; exact List.mem_cons_self)
    rw [Lexeme.isWordStart_of_isDigit hdigit] at hstart
    cases hstart
  rw [readLeaf, if_neg (mt String.toList_inj.mp h.noLiteral.1),
    if_neg (mt String.toList_inj.mp h.noLiteral.2), if_neg hsign, if_neg hdigits,
    String.ofList_toList]

theorem readLeaf_boolean (value : Bool) :
    readLeaf (Term.boolean value).render.toList = .boolean value := by
  rw [Term.render]
  cases value <;> rfl

theorem readLeaf_toDigits (number : Nat) :
    readLeaf (Nat.toDigits 10 number) = .number number := by
  have hdigits : ∀ c ∈ Nat.toDigits 10 number, c.isDigit = true :=
    fun c hc ↦ isDigit_of_mem_toDigits hc
  have hword {text : List Char} {c : Char} (hc : c ∈ text) (hletter : c.isDigit = false) :
      Nat.toDigits 10 number ≠ text := by
    rintro rfl
    rw [hdigits c hc] at hletter
    cases hletter
  have hsign : (Nat.toDigits 10 number).head? ≠ some '-' :=
    fun hhead ↦ Bool.false_ne_true (hdigits '-' (List.mem_of_head? hhead))
  rw [readLeaf, if_neg (@hword _ 't' (by simp) rfl), if_neg (@hword _ 'f' (by simp) rfl),
    if_neg hsign, if_pos (List.all_eq_true.mpr hdigits), Nat.ofDigitChars_ten_toDigits]

theorem readLeaf_decimal (value : Int) :
    readLeaf (Integer.decimal value).toList = .number value := by
  rcases decimal_cases value with ⟨number, rfl, htext⟩ | ⟨number, rfl, htext⟩
  · rw [htext, readLeaf_toDigits]
  · rw [htext, readLeaf, if_neg (by simp), if_neg (by simp), if_pos List.head?_cons, List.tail_cons,
      Nat.ofDigitChars_ten_toDigits]

/-- A legible term is read back. -/
theorem Term.Legible.reads {value : Term} (h : value.Legible) : Reads value := by
  induction h with
  | name hname => exact reads_leaf hname.ne_nil (isLeafPart_of_isName hname) (readLeaf_name hname)
  | @number value =>
    obtain ⟨hne, hparts⟩ := isLeafPart_decimal value
    exact reads_leaf hne hparts (readLeaf_decimal value)
  | @boolean value =>
    obtain ⟨hne, hparts⟩ := isLeafPart_boolean value
    exact reads_leaf hne hparts (readLeaf_boolean value)
  | string => exact reads_string _
  | binary hoperator _ _ ihleft ihright => exact reads_binary hoperator ihleft ihright
  | call hname harguments ih => exact reads_call hname harguments ih

/-- No two legible terms are written alike. -/
theorem Term.Legible.eq_of_render {first second : Term} (hfirst : first.Legible)
    (hsecond : second.Legible) (h : first.render = second.render) : first = second := by
  obtain ⟨firstLeast, hreads⟩ := hfirst.reads
  obtain ⟨secondLeast, hreadsToo⟩ := hsecond.reads
  have hfirstRead := hreads (max firstLeast secondLeast) (Nat.le_max_left _ _) [] nofun
  have hsecondRead := hreadsToo (max firstLeast secondLeast) (Nat.le_max_right _ _) [] nofun
  rw [h, hsecondRead] at hfirstRead
  exact (Prod.mk.inj (Option.some.inj hfirstRead)).1.symm

/-! ### Operators -/

mutual

/-- The term with other operators. -/
def Term.mapOperators (change : String → String) : Term → Term
  | .binary operator left right =>
    .binary (change operator) (Term.mapOperators change left) (Term.mapOperators change right)
  | .call callee arguments => .call callee (Term.mapAllOperators change arguments)
  | .construct callee arguments => .construct callee (Term.mapAllOperators change arguments)
  | .name text => .name text
  | .number value => .number value
  | .boolean value => .boolean value
  | .string value => .string value

def Term.mapAllOperators (change : String → String) : List Term → List Term
  | [] => []
  | value :: rest => Term.mapOperators change value :: Term.mapAllOperators change rest

end

theorem Term.mapAllOperators_eq_map (change : String → String) (values : List Term) :
    Term.mapAllOperators change values = values.map (Term.mapOperators change) := by
  induction values with
  | nil => rfl
  | cons value rest ih => rw [Term.mapAllOperators, ih, List.map_cons]

end Script

/-! ### Erased expressions -/

namespace Emitter

/-- The operator of a program that is written as the given one. -/
def sourceOperator (operator : String) : String :=
  if operator = "&&" then "and" else if operator = "||" then "or" else operator

mutual

/-- The tree of an expression, with its operators and literals, without the types, and with the
names of variables, functions and callees as they are written. -/
def erase (emitter : Emitter) : Expr → Script.Term
  | .call invocation => eraseCall emitter invocation
  | .binary operator left right _ => .binary operator (erase emitter left) (erase emitter right)
  | .boolean value => .boolean value
  | .number value _ => .number value
  | .string value _ => .string value
  | .reference target => .name (emitter.nameOf target)
  | .functionReference target => .name target.name

def eraseAll (emitter : Emitter) : List Expr → List Script.Term
  | [] => []
  | value :: rest => erase emitter value :: eraseAll emitter rest

def eraseCall (emitter : Emitter) : Call → Script.Term
  | ⟨.function target, arguments, _⟩ => .call target.name (eraseAll emitter arguments)
  | ⟨.struct target, arguments, _⟩ => .construct target.name (eraseAll emitter arguments)

end

mutual

/-- What is written is the erased expression in the operators of scripts. -/
theorem term_eq_mapOperators (emitter : Emitter) : ∀ value : Expr,
    emitter.term value = (emitter.erase value).mapOperators scriptOperator
  | .call invocation => callTerm_eq_mapOperators emitter invocation
  | .binary operator left right _ => by
    rw [term, erase, Script.Term.mapOperators, term_eq_mapOperators emitter left,
      term_eq_mapOperators emitter right]
  | .boolean _ | .number _ _ | .string _ _ | .reference _ | .functionReference _ => rfl

theorem terms_eq_mapAllOperators (emitter : Emitter) : ∀ values : List Expr,
    emitter.terms values = Script.Term.mapAllOperators scriptOperator (emitter.eraseAll values)
  | [] => rfl
  | value :: rest => by
    rw [terms, eraseAll, Script.Term.mapAllOperators, term_eq_mapOperators emitter value,
      terms_eq_mapAllOperators emitter rest]

theorem callTerm_eq_mapOperators (emitter : Emitter) : ∀ invocation : Call,
    emitter.callTerm invocation = (emitter.eraseCall invocation).mapOperators scriptOperator
  | ⟨.function _, arguments, _⟩ | ⟨.struct _, arguments, _⟩ => by
    rw [callTerm, eraseCall, Script.Term.mapOperators, terms_eq_mapAllOperators emitter arguments]

end

theorem eraseAll_eq_map (emitter : Emitter) (values : List Expr) :
    emitter.eraseAll values = values.map emitter.erase := by
  induction values with
  | nil => rfl
  | cons value rest ih => rw [eraseAll, ih, List.map_cons]

/-- The erased expression is what is written in the operators of programs. -/
theorem erase_eq_mapOperators (emitter : Emitter) {value : Expr} (h : value.Legible) :
    emitter.erase value = (emitter.term value).mapOperators sourceOperator := by
  have hoperators : ∀ operator ∈ operators,
      sourceOperator (scriptOperator operator) = operator := by
    decide
  induction h with
  | @call target arguments ty? _ _ ih =>
    rw [erase, eraseCall, term, callTerm, Script.Term.mapOperators,
      Script.Term.mapAllOperators_eq_map, terms_eq_map, eraseAll_eq_map, List.map_map]
    exact congrArg _ (List.map_congr_left ih)
  | binary hoperator _ _ ihleft ihright =>
    rw [erase, term, Script.Term.mapOperators, hoperators _ hoperator, ihleft, ihright]
  | boolean | number | string | reference | functionReference => rfl

/-- Legible expressions are written alike exactly if they are the same when erased. -/
theorem Legible.render_eq_iff {emitter : Emitter} (h : emitter.Legible) {first second : Expr}
    (hfirst : first.Legible) (hsecond : second.Legible) :
    (emitter.term first).render = (emitter.term second).render ↔
      emitter.erase first = emitter.erase second := by
  constructor
  · intro hrender
    have hterm := (h.term hfirst).eq_of_render (h.term hsecond) hrender
    rw [emitter.erase_eq_mapOperators hfirst, emitter.erase_eq_mapOperators hsecond, hterm]
  · intro herase
    rw [term_eq_mapOperators, term_eq_mapOperators, herase]

end Emitter

/-! ### Expressions of accepted programs -/

/-- The expressions that stand in a statement by themselves, without those in its body. -/
def Statement.expressions : Statement → List Expr
  | .functionDeclaration _ _ parameters _ => parameters.filterMap Parameter.default?
  | .variableDeclaration _ value | .variableReassignment _ value | .print value
  | .returnValue value | .yieldValue value => [value]
  | .predictiveLoop _ low high _ _ => [low, high]
  | .comparison left right => [left, right]
  | .call invocation => [.call invocation]

/-- The statement stands in the program of a source whose size fits in a word, folded or not, at any
depth. -/
def Statement.Arises (statement : Statement) : Prop :=
  ∃ source folded program around, Source.size source < UInt32.size ∧
    source.program folded = .ok program ∧ Within program.statements around statement

/-- The expression stands in the program of a source, folded or not, by itself or in another one. -/
def Expr.Arises (value : Expr) : Prop :=
  ∃ statement : Statement, statement.Arises ∧ ∃ whole ∈ statement.expressions, whole.Contains value

/-- The states that an emitter gets to: at the start, after a statement of an accepted program, and
at the start of the body of one. -/
inductive Emitter.Arises : Emitter → Prop
  | initial : Emitter.Arises .initial
  | statement {emitter : Emitter} {statement : Statement} (h : Emitter.Arises emitter)
      (hstatement : statement.Arises) : Emitter.Arises (emitter.statement statement).2
  | body {emitter : Emitter} {statement : Statement} (h : Emitter.Arises emitter)
      (hstatement : statement.Arises) : Emitter.Arises (emitter.enterBody statement)

theorem Statement.Arises.legible {statement : Statement} (h : statement.Arises) :
    statement.Legible := by
  obtain ⟨source, folded, program, around, hsize, hprogram, hwithin⟩ := h
  exact .of_within (Source.legible_of_program hsize hprogram) hwithin

theorem Statement.Legible.expressions {statement : Statement} (h : statement.Legible) :
    ∀ value ∈ statement.expressions, value.Legible := by
  cases h with
  | functionDeclaration _ hparameters _ =>
    intro value hvalue
    obtain ⟨parameter, hparameter, hdefault⟩ := List.mem_filterMap.mp hvalue
    exact (hparameters parameter hparameter).default value hdefault
  | predictiveLoop _ hlow hhigh _ _ =>
    exact List.forall_mem_cons.mpr ⟨hlow, List.forall_mem_singleton.mpr hhigh⟩
  | comparison hleft hright =>
    exact List.forall_mem_cons.mpr ⟨hleft, List.forall_mem_singleton.mpr hright⟩
  | variableDeclaration _ hvalue => exact List.forall_mem_singleton.mpr hvalue
  | variableReassignment _ hvalue => exact List.forall_mem_singleton.mpr hvalue
  | print hvalue => exact List.forall_mem_singleton.mpr hvalue
  | returnValue hvalue => exact List.forall_mem_singleton.mpr hvalue
  | yieldValue hvalue => exact List.forall_mem_singleton.mpr hvalue
  | call hcall => exact List.forall_mem_singleton.mpr hcall

theorem Expr.Arises.legible {value : Expr} (h : value.Arises) : value.Legible := by
  obtain ⟨statement, hstatement, whole, hwhole, hcontains⟩ := h
  exact (hstatement.legible.expressions whole hwhole).of_contains hcontains

theorem Emitter.Arises.legible {emitter : Emitter} (h : emitter.Arises) : emitter.Legible := by
  induction h with
  | initial => exact .initial
  | statement _ hstatement ih => exact (ih.statement _ hstatement.legible).2
  | body _ hstatement ih => exact ih.enterBody hstatement.legible

theorem Emitter.Arises.foldl {emitter : Emitter} (h : emitter.Arises) {statements : List Statement}
    (hstatements : ∀ statement ∈ statements, statement.Arises) :
    (statements.foldl walker.step emitter).Arises := by
  induction statements generalizing emitter with
  | nil => exact h
  | cons first rest ih =>
    obtain ⟨hfirst, hrest⟩ := List.forall_mem_cons.mp hstatements
    exact ih (h.statement hfirst) hrest

/-- What an emitter meets in an accepted program, and the state in which it does, arise. -/
theorem Emitter.arises_of_meets {source : Source} {folded : Bool} {program : Program}
    (hsize : source.size < UInt32.size) (hprogram : source.program folded = .ok program)
    {visits : List (Emitter × Statement)} {met : Emitter × Statement}
    (h : walker.Meets .initial program.statements visits met) :
    met.1.Arises ∧ met.2.Arises := by
  have harises {visits : List (Emitter × Statement)} {met : Emitter × Statement}
      (h : walker.Meets .initial program.statements visits met) : met.2.Arises :=
    ⟨source, folded, program, _, hsize, hprogram, h.within⟩
  refine ⟨?_, harises h⟩
  induction h with
  | @top before after statement hstatements =>
    refine Emitter.Arises.initial.foldl fun other hother ↦ ?_
    have hmem : other ∈ program.statements := hstatements ▸ List.mem_append_left _ hother
    exact ⟨source, folded, program, [], hsize, hprogram, .top hmem⟩
  | @inner around outer before after statement houter hbody ih =>
    refine (ih.body (harises houter)).foldl fun other hother ↦ ?_
    have hmem : other ∈ outer.2.body := hbody ▸ List.mem_append_left _ hother
    exact ⟨source, folded, program, _, hsize, hprogram, .inner houter.within hmem⟩

/-- The text of an expression has one reading. Two expressions of accepted programs, folded or not,
are written alike in a state of an emitter exactly if they are the same tree without their types and
with the names that they are written with. -/
theorem expressions_read_uniquely {emitter : Emitter} {first second : Expr}
    (hemitter : emitter.Arises) (hfirst : first.Arises) (hsecond : second.Arises) :
    (emitter.term first).render = (emitter.term second).render ↔
      emitter.erase first = emitter.erase second :=
  hemitter.legible.render_eq_iff hfirst.legible hsecond.legible

/-- The theorem in a program that gives a variable a value of another type: sums with the variable
before and behind that are written alike and differ in their types only. -/
theorem expressions_read_uniquely_retyped :
    ∃ (emitter : Emitter) (first second : Expr),
      emitter.Arises ∧ first.Arises ∧ second.Arises ∧
      first.ty? = some .int ∧ second.ty? = some .string ∧
      (emitter.term first).render = "(x + 2)" ∧ (emitter.term second).render = "(x + 2)" ∧
      ((emitter.term first).render = (emitter.term second).render ↔
        emitter.erase first = emitter.erase second) := by
  have hprogram : (Source.ofText "" "let x = 1\nprint x + 2\nx = \"s\"\nprint x + 2").program
      false =
      .ok ⟨[.variableDeclaration ⟨0, "x", some .int⟩ (.number 1 .int),
        .print (.binary "+" (.reference ⟨0, "x", some .int⟩) (.number 2 .int) (some .int)),
        .variableReassignment ⟨1, "x", some .string⟩ (.string "s" .string),
        .print (.binary "+" (.reference ⟨1, "x", some .string⟩) (.number 2 .int)
          (some .string))]⟩ := by
    cbv
  have hsize : (Source.ofText "" "let x = 1\nprint x + 2\nx = \"s\"\nprint x + 2").size <
      UInt32.size := by
    decide +kernel
  -- The first sum is met behind one statement, the second behind three.
  obtain ⟨-, hearlier⟩ := Emitter.arises_of_meets hsize hprogram
    (@Walker.Meets.top _ Emitter.walker _ _ [_] [_, _] _ rfl)
  obtain ⟨hemitter, hlater⟩ := Emitter.arises_of_meets hsize hprogram
    (@Walker.Meets.top _ Emitter.walker _ _ [_, _, _] [] _ rfl)
  have hfirst : Expr.Arises _ := ⟨_, hearlier, _, List.mem_singleton_self _, .self⟩
  have hsecond : Expr.Arises _ := ⟨_, hlater, _, List.mem_singleton_self _, .self⟩
  refine ⟨_, _, _, hemitter, hfirst, hsecond, rfl, rfl, ?_, ?_,
    expressions_read_uniquely hemitter hfirst hsecond⟩
  · decide +kernel
  · decide +kernel

end Presage
