import Mathlib.Data.List.Basic
import Presage.Proofs.Legibility

/-!
The lines of a compiled program. `Statement.LaidOut` says which lines belong to a statement at a
depth: one line that ends with a semicolon, or a header, the lines of the body one level deeper and
a closing brace, with the pattern in a comment before the header of a loop. `Script.scan` goes
through lines without the program: it counts a level for a line that ends with an opening brace,
goes a level back at a closing brace, and refuses a line that is not indented by its level.

Names are words and strings are escaped, so no line of a legible script is broken in two
(`Term.Legible.oneLine`), and the lines of a legible statement are laid out
(`Emitter.Legible.laidOut`). Lines that are laid out bring a scan back to the level it started from
(`Statement.LaidOut.isBlock`), and a text is split where its lines were joined
(`Script.splitOn_render`). That the lines of a statement are those a writer takes after it, whose
depth goes up and down on the way, is `Program.toList_chunks`.
-/

set_option autoImplicit false
set_option relaxedAutoImplicit false

namespace Presage

/-! ### Lines -/

namespace Script

def indentation (depth : Nat) : List Char := List.replicate (2 * depth) ' '

theorem toList_indented (depth : Nat) (text : String) :
    (indented depth text).toList = indentation depth ++ text.toList := by
  simp [indented, indentation]

/-- The level after a line that is met at a level, if the line is indented by its own level. -/
def levelAfter? (level : Nat) (line : List Char) : Option Nat :=
  let spaces := (line.takeWhile (· == ' ')).length
  if line.dropWhile (· == ' ') = ['\x7d'] then
    if 0 < level ∧ spaces = 2 * (level - 1) then some (level - 1) else none
  else if spaces = 2 * level then
    some (if line.getLast? = some '\x7b' then level + 1 else level)
  else none

/-- The level after lines that are met from a level on. -/
def scan (level : Nat) (lines : List (List Char)) : Option Nat := lines.foldlM levelAfter? level

/-- What stands behind the indentation of a line: one line, not empty, with no space before it. -/
structure IsContent (content : List Char) : Prop where
  oneLine : '\n' ∉ content
  start : ∃ c ∈ content.head?, c ≠ ' '

theorem isContent_iff {content : List Char} :
    IsContent content ↔ '\n' ∉ content ∧ content.head?.any (· != ' ') = true := by
  rw [Option.any_eq_true]
  constructor
  · rintro ⟨hline, c, hc, hne⟩
    exact ⟨hline, c, hc, bne_iff_ne.mpr hne⟩
  · rintro ⟨hline, c, hc, hne⟩
    exact ⟨hline, c, hc, bne_iff_ne.mp hne⟩

instance (content : List Char) : Decidable (IsContent content) :=
  decidable_of_iff' _ isContent_iff

end Script

mutual

/-- The lines of a statement that starts at a depth. -/
def Statement.LaidOut (depth : Nat) : Statement → List (List Char) → Prop
  | .functionDeclaration _ _ _ body, lines =>
    ∃ header blocks, Script.IsContent header ∧ "function".toList <+: header ∧
      header.getLast? = some '\x7b' ∧ Statement.AllLaidOut (depth + 1) body blocks ∧
      lines = (Script.indentation depth ++ header) ::
        (blocks.flatten ++ [Script.indentation depth ++ ['\x7d']])
  | .predictiveLoop _ _ _ pattern body, lines =>
    ∃ header blocks, IsName pattern ∧ Script.IsContent header ∧ "for (let ".toList <+: header ∧
      header.getLast? = some '\x7b' ∧ Statement.AllLaidOut (depth + 1) body blocks ∧
      lines = (Script.indentation depth ++ ("// predictive pattern: " ++ pattern).toList) ::
        (Script.indentation depth ++ header) ::
          (blocks.flatten ++ [Script.indentation depth ++ ['\x7d']])
  | _, lines =>
    ∃ content, Script.IsContent content ∧ content.getLast? = some ';' ∧
      lines = [Script.indentation depth ++ content]

/-- The lines of statements one after the other, a block for each of them. -/
def Statement.AllLaidOut (depth : Nat) : List Statement → List (List (List Char)) → Prop
  | [], blocks => blocks = []
  | first :: rest, blocks =>
    ∃ block others, Statement.LaidOut depth first block ∧ Statement.AllLaidOut depth rest others ∧
      blocks = block :: others

end

/-! ### Texts on one line -/

namespace Script

def OneLine (text : String) : Prop := '\n' ∉ text.toList

instance (text : String) : Decidable (OneLine text) :=
  inferInstanceAs (Decidable ('\n' ∉ text.toList))

theorem oneLine_append {first second : String} :
    OneLine (first ++ second) ↔ OneLine first ∧ OneLine second := by
  simp [OneLine]

theorem oneLine_intercalate {separator : String} (hseparator : OneLine separator)
    {texts : List String} (h : ∀ text ∈ texts, OneLine text) :
    OneLine (separator.intercalate texts) := by
  induction texts with
  | nil => exact List.not_mem_nil
  | cons text rest ih =>
    obtain ⟨htext, hrest⟩ := List.forall_mem_cons.mp h
    cases rest with
    | nil => simpa using htext
    | cons next rest =>
      rw [String.intercalate_cons_cons, oneLine_append, oneLine_append]
      exact ⟨⟨htext, hseparator⟩, ih hrest⟩

theorem oneLine_of_isLeafPart {text : String} (h : ∀ c ∈ text.toList, isLeafPart c = true) :
    OneLine text :=
  fun hmem ↦ Bool.false_ne_true (h _ hmem)

theorem oneLine_name {text : String} (h : IsName text) : OneLine text :=
  oneLine_of_isLeafPart (isLeafPart_of_isName h)

theorem oneLine_quote (text : String) : OneLine (quote text) := by
  have hliteral := isLiteral_quote text
  unfold OneLine
  rw [hliteral.quoted]
  simpa using hliteral.oneLine.1

/-- The text of a legible term is on one line, whatever its strings hold. -/
theorem Term.Legible.oneLine {value : Term} (h : value.Legible) : OneLine value.render := by
  induction h with
  | name hname => exact oneLine_name hname
  | number => exact oneLine_of_isLeafPart (isLeafPart_decimal _).2
  | boolean => exact oneLine_of_isLeafPart (isLeafPart_boolean _).2
  | string => exact oneLine_quote _
  | @binary operator left right hoperator _ _ ihleft ihright =>
    have hoperators : ∀ operator ∈ operators, '\n' ∉ operator.toList := by decide
    simp only [Term.render, oneLine_append]
    exact ⟨⟨⟨⟨⟨⟨by decide, ihleft⟩, by decide⟩, hoperators _ hoperator⟩, by decide⟩, ihright⟩,
      by decide⟩
  | @call callee arguments hname _ ih =>
    simp only [Term.render, oneLine_append, Term.renderAll_eq_map]
    exact ⟨⟨⟨oneLine_name hname, by decide⟩,
      oneLine_intercalate (by decide) (List.forall_mem_map.mpr ih)⟩, by decide⟩

theorem Parameter.Legible.oneLine {parameter : Parameter} (h : parameter.Legible) :
    OneLine parameter.render := by
  unfold Parameter.render
  cases hdefault : parameter.default? with
  | none => exact oneLine_name h.name
  | some default =>
    simp only [oneLine_append]
    exact ⟨⟨oneLine_name h.name, by decide⟩, (h.default default hdefault).oneLine⟩

theorem IsContent.append {first second : String} (h : IsContent first.toList)
    (hsecond : OneLine second) : IsContent (first ++ second).toList := by
  obtain ⟨c, hc, hne⟩ := h.start
  rw [String.toList_append]
  refine ⟨fun hmem ↦ ?_, c, List.mem_head?_append_of_mem_head? hc, hne⟩
  exact (List.mem_append.mp hmem).elim h.oneLine hsecond

theorem isContent_name {text : String} (h : IsName text) : IsContent text.toList := by
  obtain ⟨c, rest, htext, hstart⟩ := h.start
  refine ⟨oneLine_name h, c, by rw [htext]; rfl, ?_⟩
  rintro rfl
  cases hstart

theorem Term.Legible.isContent {value : Term} (h : value.Legible) :
    IsContent value.render.toList := by
  obtain ⟨c, rest, htext, hne⟩ := h.start_ne (d := ' ') rfl (by decide) (by decide)
  exact ⟨h.oneLine, c, by rw [htext]; rfl, hne⟩

end Script

/-! ### Scanning lines that are laid out -/

namespace Script

theorem cut_indentation (depth : Nat) {content : List Char}
    (h : ∃ c ∈ content.head?, c ≠ ' ') :
    (indentation depth ++ content).takeWhile (· == ' ') = indentation depth ∧
      (indentation depth ++ content).dropWhile (· == ' ') = content := by
  have hspaces : ∀ c ∈ indentation depth, (c == ' ') = true := by
    intro c hc
    rw [List.eq_of_mem_replicate hc]
    rfl
  obtain ⟨c, hc, hne⟩ := h
  have hend : ∀ d ∈ content.head?, (d == ' ') = false := by
    intro d hd
    rw [Option.mem_unique hd hc]
    exact beq_eq_false_iff_ne.mpr hne
  have hrun := @Lexeme.run_append (· == ' ') (fun _ ↦ none) _ content hspaces hend
  exact ⟨congrArg Lexeme.text hrun, congrArg Lexeme.rest hrun⟩

theorem IsContent.ne_nil {content : List Char} (h : IsContent content) : content ≠ [] := by
  obtain ⟨c, hc, -⟩ := h.start
  rintro rfl
  cases hc

theorem levelAfter?_content (depth : Nat) {content : List Char} (h : IsContent content)
    (hclosing : content ≠ ['\x7d']) :
    levelAfter? depth (indentation depth ++ content) =
      some (if content.getLast? = some '\x7b' then depth + 1 else depth) := by
  obtain ⟨htake, hdrop⟩ := cut_indentation depth h.start
  have hlast : (indentation depth ++ content).getLast? = content.getLast? :=
    List.getLast?_append_of_ne_nil _ h.ne_nil
  unfold levelAfter?
  rw [htake, hdrop, if_neg hclosing, hlast, indentation, List.length_replicate, if_pos rfl]

theorem levelAfter?_closing (depth : Nat) :
    levelAfter? (depth + 1) (indentation depth ++ ['\x7d']) = some depth := by
  obtain ⟨htake, hdrop⟩ :=
    @cut_indentation depth ['\x7d'] ⟨'\x7d', rfl, by decide⟩
  unfold levelAfter?
  rw [htake, hdrop, if_pos rfl, indentation, List.length_replicate,
    if_pos ⟨Nat.succ_pos depth, rfl⟩]
  rfl

theorem scan_cons {level next : Nat} {line : List Char} (h : levelAfter? level line = some next)
    (lines : List (List Char)) : scan level (line :: lines) = scan next lines := by
  rw [scan, List.foldlM_cons, h]
  rfl

theorem scan_append {level next : Nat} {lines : List (List Char)} (h : scan level lines = some next)
    (others : List (List Char)) : scan level (lines ++ others) = scan next others := by
  unfold scan at h ⊢
  rw [List.foldlM_append, h]
  rfl

/-- A line that is not blank. -/
structure IsLine (line : List Char) : Prop where
  oneLine : '\n' ∉ line
  nonempty : line ≠ []

theorem IsContent.isLine {content : List Char} (h : IsContent content) (depth : Nat) :
    IsLine (indentation depth ++ content) := by
  refine ⟨fun hmem ↦ ?_, List.append_ne_nil_of_right_ne_nil _ h.ne_nil⟩
  rcases List.mem_append.mp hmem with hspace | hinside
  · cases List.eq_of_mem_replicate hspace
  · exact h.oneLine hinside

/-- Lines through which a scan gets back to the level it came from, none of them blank. -/
structure IsBlock (level : Nat) (lines : List (List Char)) : Prop where
  scan : scan level lines = some level
  isLine : ∀ line ∈ lines, IsLine line

/-- A line that ends with another character than a brace stays on its level. -/
theorem IsContent.isBlock (depth : Nat) {content : List Char} {c : Char} (h : IsContent content)
    (hlast : content.getLast? = some c) (hopening : c ≠ '\x7b') (hclosing : c ≠ '\x7d') :
    IsBlock depth [indentation depth ++ content] := by
  have hcontent : content ≠ ['\x7d'] := by
    rintro rfl
    exact hclosing (Option.some.inj hlast).symm
  have hlevel : levelAfter? depth (indentation depth ++ content) = some depth := by
    rw [levelAfter?_content depth h hcontent, hlast, if_neg (mt Option.some.inj hopening)]
  exact ⟨scan_cons hlevel [], List.forall_mem_singleton.mpr (h.isLine depth)⟩

theorem IsBlock.append {level : Nat} {first second : List (List Char)}
    (hfirst : IsBlock level first) (hsecond : IsBlock level second) :
    IsBlock level (first ++ second) :=
  ⟨(scan_append hfirst.scan second).trans hsecond.scan,
    List.forall_mem_append.mpr ⟨hfirst.isLine, hsecond.isLine⟩⟩

theorem isBlock_flatten {level : Nat} {blocks : List (List (List Char))}
    (h : ∀ block ∈ blocks, IsBlock level block) : IsBlock level blocks.flatten := by
  induction blocks with
  | nil => exact ⟨rfl, List.forall_mem_nil _⟩
  | cons block rest ih =>
    obtain ⟨hblock, hrest⟩ := List.forall_mem_cons.mp h
    exact hblock.append (ih hrest)

/-- A header and a closing brace around lines one level deeper. -/
theorem IsBlock.enclose {depth : Nat} {header : List Char} {lines : List (List Char)}
    (h : IsBlock (depth + 1) lines) (hheader : IsContent header)
    (hlast : header.getLast? = some '\x7b') :
    IsBlock depth
      ((indentation depth ++ header) :: (lines ++ [indentation depth ++ ['\x7d']])) := by
  have hopening : levelAfter? depth (indentation depth ++ header) = some (depth + 1) := by
    rw [levelAfter?_content depth hheader, if_pos hlast]
    rintro rfl
    cases hlast
  have hclosing : IsContent ['\x7d'] := by decide
  constructor
  · rw [scan_cons hopening, scan_append h.scan, scan_cons (levelAfter?_closing depth)]
    rfl
  · exact List.forall_mem_cons.mpr ⟨hheader.isLine depth, List.forall_mem_append.mpr
      ⟨h.isLine, List.forall_mem_singleton.mpr (hclosing.isLine depth)⟩⟩

/-- The comment with the pattern of a loop. -/
theorem isBlock_comment (depth : Nat) {pattern : String} (h : IsName pattern) :
    IsBlock depth [indentation depth ++ ("// predictive pattern: " ++ pattern).toList] := by
  obtain ⟨c, hlast⟩ := Option.ne_none_iff_exists'.mp (mt List.getLast?_eq_none_iff.mp h.ne_nil)
  have hpart := h.parts c (List.mem_of_getLast? hlast)
  have hbrace : c ≠ '\x7b' ∧ c ≠ '\x7d' := by
    constructor <;> rintro rfl <;> cases hpart
  have hwords : IsContent "// predictive pattern: ".toList := by decide
  refine (hwords.append (oneLine_name h)).isBlock depth ?_ hbrace.1 hbrace.2
  rw [String.toList_append, List.getLast?_append_of_ne_nil _ h.ne_nil, hlast]

end Script

mutual

/-- The lines of a statement bring a scan back to the depth of the statement. -/
theorem Statement.LaidOut.isBlock {depth : Nat} : ∀ (statement : Statement)
    {lines : List (List Char)}, statement.LaidOut depth lines → Script.IsBlock depth lines
  | .functionDeclaration _ _ _ body, _, ⟨header, blocks, hheader, _, hlast, hbody, hlines⟩ => by
    have hinside := Script.isBlock_flatten (Statement.AllLaidOut.isBlock body hbody)
    rw [hlines]
    exact hinside.enclose hheader hlast
  | .predictiveLoop _ _ _ pattern body, _,
      ⟨header, blocks, hpattern, hheader, _, hlast, hbody, hlines⟩ => by
    have hinside := Script.isBlock_flatten (Statement.AllLaidOut.isBlock body hbody)
    rw [hlines]
    exact (Script.isBlock_comment depth hpattern).append (hinside.enclose hheader hlast)
  | .variableDeclaration _ _, _, ⟨content, hcontent, hlast, hlines⟩
  | .variableReassignment _ _, _, ⟨content, hcontent, hlast, hlines⟩
  | .comparison _ _, _, ⟨content, hcontent, hlast, hlines⟩
  | .print _, _, ⟨content, hcontent, hlast, hlines⟩
  | .returnValue _, _, ⟨content, hcontent, hlast, hlines⟩
  | .yieldValue _, _, ⟨content, hcontent, hlast, hlines⟩
  | .call _, _, ⟨content, hcontent, hlast, hlines⟩ => by
    rw [hlines]
    exact hcontent.isBlock depth hlast (by decide) (by decide)

theorem Statement.AllLaidOut.isBlock {depth : Nat} : ∀ (statements : List Statement)
    {blocks : List (List (List Char))}, Statement.AllLaidOut depth statements blocks →
      ∀ block ∈ blocks, Script.IsBlock depth block
  | [], _, h => by
    rw [h]
    exact List.forall_mem_nil _
  | first :: rest, _, ⟨block, others, hfirst, hrest, hblocks⟩ => by
    rw [hblocks]
    exact List.forall_mem_cons.mpr
      ⟨Statement.LaidOut.isBlock first hfirst, Statement.AllLaidOut.isBlock rest hrest⟩

end

/-! ### Lines of legible scripts -/

namespace Script

/-- The characters of the lines of a statement. -/
def Stmt.block (depth : Nat) (statement : Stmt) : List (List Char) :=
  (statement.lines depth).map String.toList

theorem Stmt.block_ne_nil (depth : Nat) (statement : Stmt) : statement.block depth ≠ [] := by
  unfold Stmt.block
  cases statement <;> exact List.cons_ne_nil _ _

theorem map_toList_linesAll (depth : Nat) (statements : List Stmt) :
    (Stmt.linesAll depth statements).map String.toList =
      (statements.map (Stmt.block depth)).flatten := by
  induction statements with
  | nil => rfl
  | cons statement rest ih =>
    rw [Stmt.linesAll, List.map_append, ih, List.map_cons, List.flatten_cons, Stmt.block]

theorem getLast?_append {first second : String} {c : Char} (h : second.toList.getLast? = some c) :
    (first ++ second).toList.getLast? = some c := by
  rw [String.toList_append, List.getLast?_append, h]
  rfl

/-- The statement has no body. -/
def Stmt.IsSimple : Stmt → Prop
  | .function .. | .loop .. => False
  | _ => True

/-- A statement without a body is one line up to a semicolon. -/
theorem Stmt.Legible.exists_of_isSimple {statement : Stmt} (h : statement.Legible)
    (hsimple : statement.IsSimple) (depth : Nat) :
    ∃ content, IsContent content ∧ content.getLast? = some ';' ∧
      statement.block depth = [indentation depth ++ content] := by
  have hline {text ending : String} (hcontent : IsContent text.toList) (hending : OneLine ending)
      (hlast : ending.toList.getLast? = some ';') :
      ∃ content, IsContent content ∧ content.getLast? = some ';' ∧
        [indented depth (text ++ ending)].map String.toList = [indentation depth ++ content] :=
    ⟨_, hcontent.append hending, getLast?_append hlast,
      congrArg (fun line ↦ [line]) (toList_indented depth _)⟩
  have hlet : IsContent "let ".toList := by decide
  have hlog : IsContent "console.log(".toList := by decide
  have hreturn : IsContent "return ".toList := by decide
  have hyield : IsContent "yield ".toList := by decide
  cases h with
  | declare hname hvalue =>
    exact hline (((hlet.append (oneLine_name hname)).append (by decide)).append hvalue.oneLine)
      (by decide) rfl
  | assign hname hvalue =>
    exact hline (((isContent_name hname).append (by decide)).append hvalue.oneLine)
      (by decide) rfl
  | log hvalue => exact hline (hlog.append hvalue.oneLine) (by decide) rfl
  | logEqual hleft hright =>
    exact hline (((hlog.append hleft.oneLine).append (by decide)).append hright.oneLine)
      (by decide) rfl
  | returnValue hvalue => exact hline (hreturn.append hvalue.oneLine) (by decide) rfl
  | yieldValue hvalue => exact hline (hyield.append hvalue.oneLine) (by decide) rfl
  | evaluate hvalue => exact hline hvalue.isContent (by decide) rfl
  | function => exact hsimple.elim
  | loop => exact hsimple.elim

theorem Stmt.Legible.exists_of_function {generator : Bool} {name : String}
    {parameters : List Parameter} {body : List Stmt}
    (h : (Stmt.function generator name parameters body).Legible) (depth : Nat) :
    ∃ header, IsContent header ∧ "function".toList <+: header ∧
      header.getLast? = some '\x7b' ∧
      (Stmt.function generator name parameters body).block depth =
        (indentation depth ++ header) :: ((body.map (Stmt.block (depth + 1))).flatten ++
          [indentation depth ++ ['\x7d']]) := by
  cases h with
  | function hname hparameters _ =>
    have hword : IsContent "function".toList := by decide
    have hstar : OneLine (if generator then "*" else "") := by
      cases generator <;> decide
    have hlist : OneLine (", ".intercalate (parameters.map Parameter.render)) :=
      oneLine_intercalate (by decide)
        (List.forall_mem_map.mpr fun parameter hmem ↦ (hparameters parameter hmem).oneLine)
    refine ⟨("function" ++ (if generator then "*" else "") ++ " " ++ name ++ "("
      ++ ", ".intercalate (parameters.map Parameter.render) ++ ") \x7b").toList, ?_, ?_,
      getLast?_append rfl, ?_⟩
    · exact (((((hword.append hstar).append (by decide)).append (oneLine_name hname)).append
        (by decide)).append hlist).append (by decide)
    · simp only [String.toList_append, List.append_assoc]
      exact List.prefix_append _ _
    · simp only [Stmt.block, Stmt.lines, List.cons_append, List.map_cons, List.map_append,
        List.map_nil, map_toList_linesAll, toList_indented]
      rfl

theorem Stmt.Legible.exists_of_loop {pattern iterator : String} {low high : Term}
    {body : List Stmt} (h : (Stmt.loop pattern iterator low high body).Legible) (depth : Nat) :
    ∃ header, IsContent header ∧ "for (let ".toList <+: header ∧
      header.getLast? = some '\x7b' ∧
      (Stmt.loop pattern iterator low high body).block depth =
        (indentation depth ++ ("// predictive pattern: " ++ pattern).toList) ::
          (indentation depth ++ header) :: ((body.map (Stmt.block (depth + 1))).flatten ++
            [indentation depth ++ ['\x7d']]) := by
  cases h with
  | loop _ hname hlow hhigh _ =>
    have hword : IsContent "for (let ".toList := by decide
    have hiterator := oneLine_name hname
    refine ⟨("for (let " ++ iterator ++ " = " ++ low.render ++ "; " ++ iterator ++ " <= "
      ++ high.render ++ "; " ++ iterator ++ "++) \x7b").toList, ?_, ?_, getLast?_append rfl, ?_⟩
    · exact (((((((((hword.append hiterator).append (by decide)).append hlow.oneLine).append
        (by decide)).append hiterator).append (by decide)).append hhigh.oneLine).append
        (by decide)).append hiterator).append (by decide)
    · simp only [String.toList_append, List.append_assoc]
      exact List.prefix_append _ _
    · simp only [Stmt.block, Stmt.lines, List.cons_append, List.map_cons, List.map_append,
        List.map_nil, map_toList_linesAll, toList_indented]
      rfl

end Script

namespace Emitter.Legible

mutual

/-- The lines of a legible statement are laid out, whatever was emitted before. -/
theorem laidOut {emitter : Emitter} (h : emitter.Legible) (depth : Nat) :
    ∀ statement : Statement, statement.Legible →
      statement.LaidOut depth ((emitter.statement statement).1.block depth)
  | .functionDeclaration name function parameters body, hstatement => by
    obtain ⟨header, hcontent, hword, hlast, hblock⟩ :=
      (h.statement _ hstatement).1.exists_of_function depth
    exact ⟨header, _, hcontent, hword, hlast,
      (h.enterBody hstatement).allLaidOut (depth + 1) body hstatement.body, hblock⟩
  | .predictiveLoop iterator low high pattern body, hstatement => by
    obtain ⟨header, hcontent, hword, hlast, hblock⟩ :=
      (h.statement _ hstatement).1.exists_of_loop depth
    have hbody := (h.enterBody hstatement).allLaidOut (depth + 1) body hstatement.body
    cases hstatement with
    | predictiveLoop _ _ _ hpattern _ =>
      exact ⟨header, _, hpattern, hcontent, hword, hlast, hbody, hblock⟩
  | .yieldValue value, hstatement => by
    refine (h.statement _ hstatement).1.exists_of_isSimple ?_ depth
    rw [Emitter.statement]
    cases emitter.inFunction <;> trivial
  | .variableDeclaration _ _, hstatement | .variableReassignment _ _, hstatement
  | .comparison _ _, hstatement | .print _, hstatement | .returnValue _, hstatement
  | .call _, hstatement => (h.statement _ hstatement).1.exists_of_isSimple trivial depth

theorem allLaidOut {emitter : Emitter} (h : emitter.Legible) (depth : Nat) :
    ∀ statements : List Statement, (∀ statement ∈ statements, statement.Legible) →
      Statement.AllLaidOut depth statements
        ((emitter.statements statements).1.map (Script.Stmt.block depth))
  | [], _ => rfl
  | first :: rest, hstatements => by
    obtain ⟨hfirst, hrest⟩ := List.forall_mem_cons.mp hstatements
    exact ⟨_, _, h.laidOut depth first hfirst,
      (h.statement first hfirst).2.allLaidOut depth rest hrest, rfl⟩

end

end Emitter.Legible

/-! ### Splitting the text of a script -/

theorem intercalate_append {α : Type} (separator : List α) {first second : List (List α)}
    (hfirst : first ≠ []) (hsecond : second ≠ []) :
    separator.intercalate (first ++ second) =
      separator.intercalate first ++ separator ++ separator.intercalate second := by
  induction first with
  | nil => exact (hfirst rfl).elim
  | cons line rest ih =>
    have hne : rest ++ second ≠ [] := List.append_ne_nil_of_right_ne_nil rest hsecond
    rw [List.cons_append, List.intercalate_cons_of_ne_nil hne]
    cases rest with
    | nil => rw [List.nil_append, List.intercalate_singleton]
    | cons next rest =>
      rw [ih (List.cons_ne_nil next rest), List.intercalate_cons_cons]
      simp only [List.append_assoc]

namespace Script

/-- The lines of blocks with a blank line between two of them. -/
def spaced (blocks : List (List (List Char))) : List (List Char) := [[]].intercalate blocks

theorem spaced_cons {block : List (List Char)} {blocks : List (List (List Char))}
    (h : blocks ≠ []) : spaced (block :: blocks) = block ++ [] :: spaced blocks := by
  rw [spaced, List.intercalate_cons_of_ne_nil h, List.append_assoc]
  rfl

theorem spaced_ne_nil {blocks : List (List (List Char))} (h : blocks ≠ [])
    (hblocks : ∀ block ∈ blocks, block ≠ []) : spaced blocks ≠ [] := by
  obtain ⟨block, rest, rfl⟩ := List.exists_cons_of_ne_nil h
  have hblock := hblocks block List.mem_cons_self
  by_cases hrest : rest = []
  · rw [hrest, spaced, List.intercalate_singleton]
    exact hblock
  · rw [spaced_cons hrest]
    exact List.append_ne_nil_of_left_ne_nil hblock _

/-- Two line feeds between blocks are a line feed after every line, with blank lines between. -/
theorem intercalate_spaced {blocks : List (List (List Char))} (h : blocks ≠ [])
    (hblocks : ∀ block ∈ blocks, block ≠ []) :
    ['\n'].intercalate (spaced blocks) =
      ['\n', '\n'].intercalate (blocks.map ['\n'].intercalate) := by
  induction blocks with
  | nil => exact (h rfl).elim
  | cons block rest ih =>
    obtain ⟨hblock, hrest⟩ := List.forall_mem_cons.mp hblocks
    by_cases hnil : rest = []
    · rw [hnil, spaced, List.intercalate_singleton, List.map_singleton, List.intercalate_singleton]
    · have hmap : rest.map ['\n'].intercalate ≠ [] := mt List.map_eq_nil_iff.mp hnil
      rw [spaced_cons hnil, intercalate_append _ hblock (List.cons_ne_nil _ _),
        List.intercalate_cons_of_ne_nil (spaced_ne_nil hnil hrest), ih hnil hrest, List.map_cons,
        List.intercalate_cons_of_ne_nil hmap]
      simp only [List.append_assoc, List.nil_append, List.cons_append]

theorem mem_spaced {blocks : List (List (List Char))} {line : List Char}
    (h : line ∈ spaced blocks) : line = [] ∨ line ∈ blocks.flatten := by
  induction blocks with
  | nil => cases h
  | cons block rest ih =>
    rw [List.flatten_cons]
    by_cases hnil : rest = []
    · rw [hnil, spaced, List.intercalate_singleton] at h
      exact Or.inr (List.mem_append_left _ h)
    · rw [spaced_cons hnil] at h
      rcases List.mem_append.mp h with hblock | hmem
      · exact Or.inr (List.mem_append_left _ hblock)
      · rcases List.mem_cons.mp hmem with hblank | hrest
        · exact Or.inl hblank
        · exact (ih hrest).imp_right (List.mem_append_right _)

theorem Stmt.toList_intercalate_lines (depth : Nat) (statement : Stmt) :
    ("\n".intercalate (statement.lines depth)).toList =
      ['\n'].intercalate (statement.block depth) :=
  String.toList_intercalate

theorem toList_render {statements : List Stmt} (h : statements ≠ []) :
    (render statements).toList =
      ['\n', '\n'].intercalate ((statements.map (Stmt.block 0)).map ['\n'].intercalate) ++
        ['\n'] := by
  obtain ⟨first, rest, rfl⟩ := List.exists_cons_of_ne_nil h
  have hblock : (String.toList ∘ fun statement : Stmt ↦ "\n".intercalate (statement.lines 0)) =
      ['\n'].intercalate ∘ Stmt.block 0 :=
    funext (Stmt.toList_intercalate_lines 0)
  rw [render, String.toList_append, String.toList_intercalate, List.map_map, hblock, List.map_map]
  · rfl
  · exact List.cons_ne_nil first rest

/-- The text of a script is split into the lines of its statements, with a blank line between two
statements and nothing behind the last line feed. -/
theorem splitOn_render {statements : List Stmt}
    (hlines : ∀ line ∈ (statements.map (Stmt.block 0)).flatten, '\n' ∉ line) :
    (render statements).toList.splitOn '\n' =
      spaced (statements.map (Stmt.block 0)) ++ [[]] := by
  have htext : (render statements).toList =
      ['\n'].intercalate (spaced (statements.map (Stmt.block 0)) ++ [[]]) := by
    by_cases hnil : statements = []
    · rw [hnil]
      rfl
    · have hmap : statements.map (Stmt.block 0) ≠ [] := mt List.map_eq_nil_iff.mp hnil
      have hblocks : ∀ block ∈ statements.map (Stmt.block 0), block ≠ [] :=
        List.forall_mem_map.mpr fun statement _ ↦ statement.block_ne_nil 0
      rw [toList_render hnil, intercalate_append _ (spaced_ne_nil hmap hblocks)
        (List.cons_ne_nil _ _), intercalate_spaced hmap hblocks, List.intercalate_singleton,
        List.append_nil]
  rw [htext]
  refine List.splitOn_intercalate '\n' ?_ (by simp)
  intro line hline
  rcases List.mem_append.mp hline with hmem | hlast
  · rcases mem_spaced hmem with rfl | hflat
    · exact List.not_mem_nil
    · exact hlines line hflat
  · rw [List.mem_singleton.mp hlast]
    exact List.not_mem_nil

/-- Blank lines at the top do not change the level. -/
theorem scan_spaced {blocks : List (List (List Char))}
    (h : ∀ block ∈ blocks, scan 0 block = some 0) : scan 0 (spaced blocks ++ [[]]) = some 0 := by
  induction blocks with
  | nil => rfl
  | cons block rest ih =>
    obtain ⟨hblock, hrest⟩ := List.forall_mem_cons.mp h
    by_cases hnil : rest = []
    · rw [hnil, spaced, List.intercalate_singleton, scan_append hblock]
      rfl
    · rw [spaced_cons hnil, List.append_assoc, scan_append hblock, List.cons_append,
        scan_cons (by rfl : levelAfter? 0 [] = some 0)]
      exact ih hrest

end Script

/-! ### Compiled sources -/

/-- What a writer takes after the statements at the top are their lines. -/
theorem Program.toList_chunks (program : Program) :
    (Writer.initial.chunks program.statements).map String.toList =
      (program.script.map (Script.Stmt.block 0)).map ['\n'].intercalate := by
  rw [Writer.chunks_eq _ rfl, List.map_map, List.map_map]
  exact List.map_congr_left fun statement _ ↦ statement.toList_intercalate_lines 0

/-- The lines of a compiled source are those of its statements, each taken from the writer when it
is written, with a blank line between two statements at the top and nowhere else, and every line is
indented by its level. The size of the source is one that fits in a word. -/
theorem lines_mirror_program {source : Source} {folded : Bool} {text : String}
    (hsize : source.size < UInt32.size) (h : source.compile folded = .ok text) :
    ∃ program blocks, source.program folded = .ok program ∧
      blocks = program.script.map (Script.Stmt.block 0) ∧
      (Writer.initial.chunks program.statements).map String.toList =
        blocks.map ['\n'].intercalate ∧
      Statement.AllLaidOut 0 program.statements blocks ∧
      text.toList.splitOn '\n' = [[]].intercalate blocks ++ [[]] ∧
      (∀ block ∈ blocks, [] ∉ block) ∧
      Script.scan 0 (text.toList.splitOn '\n') = some 0 := by
  obtain ⟨program, hprogram, rfl⟩ := Source.exists_of_compile h
  have hlaid := Emitter.Legible.initial.allLaidOut 0 program.statements
    (Source.legible_of_program hsize hprogram)
  have hblocks := Statement.AllLaidOut.isBlock program.statements hlaid
  have hlines := (Script.isBlock_flatten hblocks).isLine
  have hsplit := Script.splitOn_render fun line hline ↦ (hlines line hline).oneLine
  refine ⟨program, _, hprogram, rfl, program.toList_chunks, hlaid, hsplit, ?_, ?_⟩
  · intro block hblock hblank
    exact ((hblocks block hblock).isLine [] hblank).nonempty rfl
  · exact (congrArg (Script.scan 0) hsplit).trans
      (Script.scan_spaced fun block hblock ↦ (hblocks block hblock).scan)

/-- The theorem at strings that hold line breaks and braces, one of them as a default two levels
deep. -/
theorem lines_mirror_program_strings :
    ∃ source text,
      source = Source.ofText "" ("let s = \"\x7b\n  \x7d\"\n" ++
        "for i in predictive_range(0, 1, prime) \x7b\n  print s\n" ++
        "  define f(a = \"\x7b\n\") then print a\n\x7d") ∧
      source.size < UInt32.size ∧ source.compile true = .ok text ∧
      text = "let s = \"\x7b\\n  \x7d\";\n\n// predictive pattern: prime\n" ++
        "for (let i = 0; i <= 1; i++) \x7b\n  console.log(s);\n" ++
        "  function f(a = \"\x7b\\n\") \x7b\n    console.log(a);\n  \x7d\n\x7d\n" ∧
      ∃ program blocks, source.program true = .ok program ∧
        blocks = program.script.map (Script.Stmt.block 0) ∧
        (Writer.initial.chunks program.statements).map String.toList =
          blocks.map ['\n'].intercalate ∧
        Statement.AllLaidOut 0 program.statements blocks ∧
        text.toList.splitOn '\n' = [[]].intercalate blocks ++ [[]] ∧
        (∀ block ∈ blocks, [] ∉ block) ∧
        Script.scan 0 (text.toList.splitOn '\n') = some 0 := by
  have hcompile : (Source.ofText "" ("let s = \"\x7b\n  \x7d\"\n" ++
      "for i in predictive_range(0, 1, prime) \x7b\n  print s\n" ++
      "  define f(a = \"\x7b\n\") then print a\n\x7d")).compile true =
      .ok ("let s = \"\x7b\\n  \x7d\";\n\n// predictive pattern: prime\n" ++
        "for (let i = 0; i <= 1; i++) \x7b\n  console.log(s);\n" ++
        "  function f(a = \"\x7b\\n\") \x7b\n    console.log(a);\n  \x7d\n\x7d\n") := by
    decide +kernel
  have hsize : (Source.ofText "" ("let s = \"\x7b\n  \x7d\"\n" ++
      "for i in predictive_range(0, 1, prime) \x7b\n  print s\n" ++
      "  define f(a = \"\x7b\n\") then print a\n\x7d")).size < UInt32.size := by
    decide +kernel
  exact ⟨_, _, rfl, hsize, hcompile, rfl, lines_mirror_program hsize hcompile⟩

end Presage
