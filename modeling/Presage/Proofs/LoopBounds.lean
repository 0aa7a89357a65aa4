import Mathlib.Data.Nat.Basic
import Mathlib.Order.Basic
import Presage.Proofs.Emission
import Presage.Proofs.Typing
import Presage.Proofs.Walks

/-!
The bounds of loops are pure and do not change while a loop runs. Nothing checks this as such; it
follows from two rules that are there for other reasons.

The first is how types come about. A bound has to be an integer, no function has a known result, and
no value is a float, so that arithmetic on integers is all that is left for a bound
(`Analysis.Accepted.integerOnly`). The second is where a reassignment looks for its name: in its own
frame and in no other. So it rebinds what the loop or the function around it has bound itself.
Identities are handed out in turn, and inside of a loop that is something newer than all that is
bound around the loop (`Frame.scopedAt_of_meets`).

`loop_bounds_invariant` puts the two together: what a bound uses is bound around the loop, and
nothing that is bound there is rebound inside.
-/

set_option autoImplicit false
set_option relaxedAutoImplicit false

namespace Presage

/-! ### Expressions of integers -/

/-- The expression is made of integer literals and of variables of the type of integers, by
arithmetic alone. -/
inductive Expr.IntegerOnly : Expr → Prop
  | number {value : Int} : Expr.IntegerOnly (.number value .int)
  | reference {target : Variable} (hty : target.ty? = some .int) :
      Expr.IntegerOnly (.reference target)
  | binary {operator : String} {left right : Expr} {ty? : Option Ty}
      (hoperator : operator ∈ ["+", "-", "*", "/"]) (hleft : Expr.IntegerOnly left)
      (hright : Expr.IntegerOnly right) : Expr.IntegerOnly (.binary operator left right ty?)

/-- An operator gives no type, that of strings or of booleans, or that of integers. The last comes
from arithmetic on numbers alone. -/
theorem OperatorTyped.result {operator : String} {left? right? ty? : Option Ty}
    (h : OperatorTyped operator left? right? ty?) :
    ty? = none ∨ ty? = some .string ∨ ty? = some .boolean ∨
      ty? = some .int ∧ operator ∈ ["+", "-", "*", "/"] ∧
        (left? = some .int ∨ left? = some .float) ∧
        (right? = some .int ∨ right? = some .float) := by
  rcases List.mem_append.mp (show operator ∈ ["+", "-", "*", "/"] ++ ["and", "or"] from h.known)
    with harithmetic | hlogical
  · by_cases hstring : operator = "+" ∧ (left? = some .string ∨ right? = some .string)
    · exact Or.inr (Or.inl (h.concatenation hstring.1 hstring.2))
    · cases left? with
      | none => exact Or.inl (h.unknown harithmetic hstring (Or.inl rfl))
      | some left =>
        cases right? with
        | none => exact Or.inl (h.unknown harithmetic hstring (Or.inr rfl))
        | some right =>
          obtain ⟨hleft, hright, hty⟩ := h.arithmetic harithmetic hstring left rfl right rfl
          exact Or.inr (Or.inr (Or.inr ⟨hty, harithmetic, hleft.imp (congrArg some) (congrArg some),
            hright.imp (congrArg some) (congrArg some)⟩))
  · exact Or.inr (Or.inr (Or.inl (h.logical hlogical).2.2))

/-- What is bound in a program: a variable is no float, and the result of a function is unknown. -/
def Entity.Ordinary : Entity → Prop
  | .var target => target.ty? ≠ some .float
  | .func target => target.returnType? = none
  | .type _ => True

def Frame.Ordinary (frames : List Frame) : Prop :=
  Frame.Each (fun _ entity ↦ entity.Ordinary) frames

namespace Analysis

variable {source : Source} {context : Context}

/-- A call has no type or that of a struct. -/
theorem CallRule.ty?_ne_basic (hordinary : Frame.Ordinary context.frames) {name : Node}
    {arguments : List Node} {invocation : Call}
    (h : CallRule source context name arguments invocation) {basic : Ty}
    (hbasic : basic.isBasic = true) : (Expr.call invocation).ty? ≠ some basic := by
  intro hty
  cases h with
  | @function target _ hname _ _ _ =>
    have hresult : target.returnType? = none := each_lookup? hordinary hname
    rw [Expr.ty?, hresult] at hty
    cases hty
  | construct _ _ =>
    obtain rfl := Option.some.inj hty
    cases hbasic

/-- There are no floats: no literal is one, and neither a call nor an operator gives one. -/
theorem Accepted.ty?_ne_float (hordinary : Frame.Ordinary context.frames) {value : Expr}
    (h : Accepted source context value) : value.ty? ≠ some .float := by
  intro hfloat
  cases h with
  | call hcall _ => exact hcall.ty?_ne_basic hordinary rfl hfloat
  | @binary _ _ _ _ _ ty? _ _ hty =>
    have hbinary : ty? = some .float := hfloat
    subst hbinary
    rcases (operatorTyped_of_binaryTy? hty).result with hnone | hstring | hboolean | ⟨hint, -⟩
    · cases hnone
    · cases hstring
    · cases hboolean
    · cases hint
  | reference hname => exact each_lookup? hordinary hname hfloat
  | @functionReference _ target _ =>
    obtain ⟨id, name, parameters, returnType?⟩ := target
    cases hfloat
  | _ => cases hfloat

/-- An accepted expression of the type of integers is made of integers alone. -/
theorem Accepted.integerOnly (hordinary : Frame.Ordinary context.frames) {value : Expr}
    (h : Accepted source context value) (hint : value.ty? = some .int) : value.IntegerOnly := by
  induction h with
  | call hcall _ _ => exact absurd hint (hcall.ty?_ne_basic hordinary rfl)
  | @binary _ _ _ _ _ ty? hleft hright hty ihleft ihright =>
    have hbinary : ty? = some .int := hint
    subst hbinary
    rcases (operatorTyped_of_binaryTy? hty).result with
      hnone | hstring | hboolean | ⟨-, hoperator, hleftTy, hrightTy⟩
    · cases hnone
    · cases hstring
    · cases hboolean
    -- An operand is an integer or a float, and there are no floats.
    · exact .binary hoperator (ihleft (hleftTy.resolve_right (hleft.ty?_ne_float hordinary)))
        (ihright (hrightTy.resolve_right (hright.ty?_ne_float hordinary)))
  | number => exact .number
  | reference _ => exact .reference hint
  | @functionReference _ target _ =>
    obtain ⟨id, name, parameters, returnType?⟩ := target
    cases hint
  | _ => cases hint

end Analysis

/-! ### Bounds of analysed loops -/

namespace Statement

def bounds : Statement → List Expr
  | predictiveLoop _ low high _ _ => [low, high]
  | _ => []

/-- The bounds of the statement, and of those inside of it, are made of integers alone. -/
inductive IntegerBounds : Statement → Prop
  | intro {statement : Statement} (hbounds : ∀ bound ∈ statement.bounds, bound.IntegerOnly)
      (hbody : ∀ inner ∈ statement.body, IntegerBounds inner) : IntegerBounds statement

theorem integerBounds_of_nil {statement : Statement} (hbounds : statement.bounds = [])
    (hbody : statement.body = []) : statement.IntegerBounds := by
  refine .intro ?_ ?_
  · rw [hbounds]
    exact List.forall_mem_nil _
  · rw [hbody]
    exact List.forall_mem_nil _

theorem integerBounds_of_within {statements around : List Statement} {statement : Statement}
    (hbounds : ∀ statement ∈ statements, statement.IntegerBounds)
    (h : Within statements around statement) : statement.IntegerBounds := by
  induction h with
  | top hmem => exact hbounds _ hmem
  | inner _ hmem ih =>
    cases ih with
    | intro _ hbody => exact hbody _ hmem

end Statement

namespace Analysis

variable {source : Source}

/-- Where everything bound is ordinary, the statement has bounds of integers, and what it binds is
ordinary too. -/
def OrdinaryFrom (before : Analyzer) (_ : Node) (result : Statement) (_ : Analyzer) : Prop :=
  Frame.Ordinary before.context.frames →
    result.IntegerBounds ∧ Frame.Ordinary [Frame.after before.context.current.locals result]

theorem integerBounds_of_sequence {analyzer last : Analyzer} {nodes : List Node}
    {results : List Statement} (h : Sequence source OrdinaryFrom analyzer nodes results last)
    (hordinary : Frame.Ordinary analyzer.context.frames) :
    ∀ result ∈ results, result.IntegerBounds := by
  induction h with
  | nil => exact List.forall_mem_nil _
  | cons hfirst hmotive _ ih =>
    obtain ⟨hbounds, hafter⟩ := hmotive hordinary
    refine List.forall_mem_cons.mpr ⟨hbounds, ih ?_⟩
    rw [context_of_statement hfirst]
    exact Frame.each_cons.mpr ⟨hafter, (Frame.each_cons.mp hordinary).2⟩

/-- Defaults give parameters their types, and are no floats where everything bound is ordinary. -/
theorem ordinary_enterFunction {analyzer : Analyzer} {nodes : List Node}
    {parameters : List Parameter} (name : String)
    (hparameters : nodes.mapM (parameterOf source analyzer.context) = .ok parameters)
    (hordinary : Frame.Ordinary analyzer.context.frames) :
    Frame.Ordinary
      ((analyzer.declareFunction name parameters none).2.enterFunction
        (analyzer.declareFunction name parameters none).1).context.frames := by
  obtain ⟨hframe, houter⟩ := Frame.each_cons.mp hordinary
  refine Frame.each_cons.mpr ⟨?_, ?_⟩
  · rw [Analyzer.locals_enterFunction]
    refine Frame.each_empty.withParameters_of fun parameter hparameter id _ _ ↦ ?_
    obtain ⟨parameterName, default?⟩ := parameter
    cases default? with
    | none =>
      intro hfloat
      cases hfloat
    | some default =>
      exact (accepted_of_parameters hparameters _ hparameter default rfl).ty?_ne_float hordinary
  · rw [Analyzer.outer_enterFunction]
    exact Frame.each_cons.mpr ⟨hframe.insert rfl, houter⟩

/-- Analysed statements have bounds of integers and bind what is ordinary. -/
theorem hereditary_ordinary : Hereditary source OrdinaryFrom := by
  intro analyzer next node result hrule ih hordinary
  have hframe := (Frame.each_cons.mp hordinary).1
  have hbound {node : Node} {value : Expr}
      (hvalue : valueOf source analyzer.context node = .ok value)
      (hty : Ty.equivalent? value.ty? (some .int) = true) : value.IntegerOnly :=
    (accepted_of_valueOf node hvalue).integerOnly hordinary
      ((Ty.equivalent?_iff_of_isBasic rfl).mp hty)
  have hbinds {node : Node} {value : Expr} (name : String)
      (hvalue : valueOf source analyzer.context node = .ok value) :
      Frame.Ordinary
        [analyzer.context.current.locals.insert name (.var ⟨analyzer.nextId, name, value.ty?⟩)] :=
    hframe.insert ((accepted_of_valueOf node hvalue).ty?_ne_float hordinary)
  cases hrule with
  | @functionDefinition _ name _ _ _ _ _ _ hparameters hbody =>
    have hentered := ordinary_enterFunction (name.text source) hparameters hordinary
    exact ⟨.intro (List.forall_mem_nil _) (integerBounds_of_sequence (ih hbody) hentered),
      hframe.insert rfl⟩
  | @predictiveLoop _ name _ _ _ _ _ _ _ _ _ hlow hhigh hlowTy hhighTy hbody =>
    have hiterator :
        (Entity.var ⟨analyzer.nextId, name.text source, some .int⟩).Ordinary := by
      intro hfloat
      cases hfloat
    have hentered : Frame.Ordinary
        (analyzer.enterLoop.declareVariable (name.text source) (some .int)).2.context.frames :=
      Frame.each_cons.mpr ⟨Frame.each_empty.insert hiterator, hordinary⟩
    refine ⟨.intro ?_ (integerBounds_of_sequence (ih hbody) hentered), hframe⟩
    exact List.forall_mem_cons.mpr
      ⟨hbound hlow hlowTy, List.forall_mem_singleton.mpr (hbound hhigh hhighTy)⟩
  | variableDeclaration _ hvalue =>
    exact ⟨Statement.integerBounds_of_nil rfl rfl, hbinds _ hvalue⟩
  | rebinding _ hvalue => exact ⟨Statement.integerBounds_of_nil rfl rfl, hbinds _ hvalue⟩
  | shadowing _ hvalue => exact ⟨Statement.integerBounds_of_nil rfl rfl, hbinds _ hvalue⟩
  | _ => exact ⟨Statement.integerBounds_of_nil rfl rfl, hframe⟩

end Analysis

theorem Source.integerBounds_of_program {source : Source} {program : Program}
    (h : source.program false = .ok program) :
    ∀ statement ∈ program.statements, statement.IntegerBounds := by
  obtain ⟨span, nodes, results, last, -, hresults, hstatements⟩ := Source.exists_of_program h
  rw [hstatements]
  exact Analysis.integerBounds_of_sequence (Analysis.hereditary_ordinary.statements nodes hresults)
    (Frame.each_root fun _ _ ↦ trivial)

/-! ### Frames along a program -/

/-- The identity of a value is from `first` on and below `last`. -/
def Entity.IdWithin (first last : Nat) : Entity → Prop
  | .var target => first ≤ target.id ∧ target.id < last
  | .func target => first ≤ target.id ∧ target.id < last
  | .type _ => True

/-- A value is not among what was bound before its identity was handed out. -/
theorem Entity.ne_of_idWithin {first middle last : Nat} {older newer : Entity}
    (hvalue : newer.IsValue) (hnewer : newer.IdWithin middle last)
    (holder : older.IdWithin first middle) : older ≠ newer := by
  rintro rfl
  cases older with
  | var target => exact Nat.not_lt.mpr hnewer.1 holder.2
  | func target => exact Nat.not_lt.mpr hnewer.1 holder.2
  | type ty => exact hvalue

namespace Frame

/-- The frame that the body of a statement starts with. -/
def ofBody : Statement → Frame
  | .functionDeclaration _ function _ _ =>
    withParameters .empty (function.id + 1) function.parameters
  | .predictiveLoop iterator _ _ _ _ => Bindings.empty.insert iterator.name (.var iterator)
  | _ => .empty

/-- Open frames after a statement that was met in the innermost one. -/
def afterAll : List Frame → Statement → List Frame
  | [], _ => []
  | frame :: outer, statement => frame.after statement :: outer

/-- The open frames are carried along a program: a statement binds in the innermost one, and a body
has one more. -/
def walker : Walker (List Frame) where
  step := afterAll
  enter frames statement := ofBody statement :: afterAll frames statement

theorem foldl_afterAll (statements : List Statement) (frame : Frame) (outer : List Frame) :
    statements.foldl afterAll (frame :: outer) = statements.foldl after frame :: outer := by
  induction statements generalizing frame with
  | nil => rfl
  | cons statement rest ih => exact ih (frame.after statement)

def IdsWithin (first last : Nat) (frames : List Frame) : Prop :=
  Each (fun _ entity ↦ entity.IdWithin first last) frames

theorem IdsWithin.mono {first last later : Nat} {frames : List Frame}
    (h : IdsWithin first last frames) (hle : last ≤ later) : IdsWithin first later frames := by
  intro frame hframe name entity hentity
  have hwithin := h frame hframe name entity hentity
  cases entity with
  | var target => exact ⟨hwithin.1, hwithin.2.trans_le hle⟩
  | func target => exact ⟨hwithin.1, hwithin.2.trans_le hle⟩
  | type ty => trivial

end Frame

namespace Statement

variable {statement : Statement} {frame : Frame} {outer : List Frame} {first next last : Nat}

theorem Scoped.le (h : statement.Scoped frame outer next last) : next ≤ last :=
  (Emitter.names_statement .initial statement h).le

/-- The body of a scoped statement is scoped in the frame that it starts with, and what was bound
up to there has the identities up to there. -/
theorem Scoped.enter (h : statement.Scoped frame outer next last) (hfirst : first ≤ next)
    (hids : Frame.IdsWithin first next [frame]) :
    ∃ entered, next ≤ entered ∧ entered ≤ last ∧
      Frame.IdsWithin first entered [Frame.ofBody statement] ∧
      Frame.IdsWithin first entered [frame.after statement] ∧
      AllScoped (Frame.ofBody statement) (frame.after statement :: outer) entered last
        statement.body := by
  cases statement with
  | functionDeclaration name function parameters body =>
    obtain ⟨-, -, hid, -, -, hbody⟩ := h
    subst hid
    refine ⟨_, by omega, (Emitter.names_statements .initial body hbody).le, ?_, ?_, hbody⟩
    · exact Frame.each_empty.withParameters_of fun parameter _ id hlow hhigh ↦
        ⟨show first ≤ id by omega, hhigh⟩
    · exact (hids.mono (by omega)).insert ⟨hfirst, by omega⟩
  | predictiveLoop iterator low high pattern body =>
    obtain ⟨-, hid, -, -, hbody⟩ := h
    subst hid
    refine ⟨_, Nat.le_succ _, (Emitter.names_statements .initial body hbody).le, ?_, ?_, hbody⟩
    · exact Frame.each_empty.insert ⟨hfirst, Nat.lt_succ_self _⟩
    · exact hids.mono (Nat.le_succ _)
  | variableDeclaration target value | variableReassignment target value =>
    obtain ⟨-, hid, hlast, -⟩ := h
    subst hid hlast
    refine ⟨_, Nat.le_succ _, Nat.le_refl _, Frame.each_empty, ?_, rfl⟩
    exact (hids.mono (Nat.le_succ _)).insert ⟨hfirst, Nat.lt_succ_self _⟩
  | _ => exact ⟨last, h.le, Nat.le_refl last, Frame.each_empty, hids.mono h.le, rfl⟩

/-- A statement among scoped ones is scoped in the frame that those before it leave. -/
theorem AllScoped.reach {before after : List Statement}
    (h : AllScoped frame outer next last (before ++ statement :: after)) (hfirst : first ≤ next)
    (hids : Frame.IdsWithin first next [frame]) :
    ∃ reached final, next ≤ reached ∧
      Frame.IdsWithin first reached [before.foldl Frame.after frame] ∧
      statement.Scoped (before.foldl Frame.after frame) outer reached final := by
  induction before generalizing frame next with
  | nil =>
    obtain ⟨final, hstatement, -⟩ := h
    exact ⟨next, final, Nat.le_refl next, hids, hstatement⟩
  | cons earlier rest ih =>
    obtain ⟨middle, hearlier, hrest⟩ := h
    obtain ⟨entered, hnext, hmiddle, -, hafter, -⟩ := hearlier.enter hfirst hids
    obtain ⟨reached, final, hle, hreached, hstatement⟩ :=
      ih hrest (by omega) (hafter.mono hmiddle)
    exact ⟨reached, final, by omega, hreached, hstatement⟩

end Statement

namespace Frame

variable {first next last : Nat} {start : Frame} {base : List Frame} {statements : List Statement}

/-- The statement was met in the frames `base` with one more frame, and with one for each of `depth`
bodies. It is scoped there, and what the new frames bind has identities from `first` on. -/
def ScopedAt (first : Nat) (base : List Frame) (depth : Nat) (met : List Frame × Statement) :
    Prop :=
  ∃ frame inner next last, met.1 = frame :: (inner ++ base) ∧ inner.length = depth ∧
    first ≤ next ∧ IdsWithin first next (frame :: inner) ∧
    met.2.Scoped frame (inner ++ base) next last

/-- Along scoped statements, the frames that were open at the start stay as they are, and those that
are opened later bind newer identities only. -/
theorem scopedAt_of_meets (hscoped : Statement.AllScoped start base next last statements)
    (hfirst : first ≤ next) (hids : IdsWithin first next [start])
    {visits : List (List Frame × Statement)} {met : List Frame × Statement}
    (h : walker.Meets (start :: base) statements visits met) :
    ScopedAt first base visits.length met := by
  induction h with
  | @top before after statement hstatements =>
    subst hstatements
    obtain ⟨reached, final, hle, hreached, hstatement⟩ := hscoped.reach hfirst hids
    exact ⟨before.foldl Frame.after start, [], reached, final, foldl_afterAll before start base,
      rfl, hfirst.trans hle, hreached, hstatement⟩
  | @inner around outer before after statement _ hbody ih =>
    obtain ⟨frames, surrounding⟩ := outer
    obtain ⟨frame, inner, next, last, hframes, hlength, hnext, hwithin, hsurrounding⟩ := ih
    obtain rfl : frames = frame :: (inner ++ base) := hframes
    obtain ⟨hframe, hinner⟩ := each_cons.mp hwithin
    obtain ⟨entered, hle, -, hstart, hafter, hall⟩ := hsurrounding.enter hnext hframe
    have hsplit : surrounding.body = before ++ statement :: after := hbody
    rw [hsplit] at hall
    obtain ⟨reached, final, hreached, hids, hstatement⟩ := hall.reach (hnext.trans hle) hstart
    refine ⟨before.foldl Frame.after (ofBody surrounding), frame.after surrounding :: inner,
      reached, final, foldl_afterAll before _ _, ?_, by omega, ?_, hstatement⟩
    · rw [List.length_cons, List.length_cons, hlength]
    · exact each_cons.mpr ⟨hids, each_cons.mpr
        ⟨hafter.mono hreached, IdsWithin.mono hinner (hle.trans hreached)⟩⟩

/-- A statement of a program is scoped where it is met, and all that is bound there is older. -/
theorem scoped_of_meets (hscoped : Statement.AllScoped Frame.root [] 0 last statements)
    {visits : List (List Frame × Statement)} {frames : List Frame} {statement : Statement}
    (h : walker.Meets [Frame.root] statements visits (frames, statement)) :
    ∃ frame outer reached final, frames = frame :: outer ∧ IdsWithin 0 reached frames ∧
      statement.Scoped frame outer reached final := by
  have hroot : IdsWithin 0 0 [Frame.root] := each_root fun _ _ ↦ trivial
  obtain ⟨frame, inner, reached, final, hframes, -, -, hids, hstatement⟩ :=
    scopedAt_of_meets hscoped (Nat.le_refl 0) hroot h
  rw [List.append_nil] at hframes hstatement
  obtain rfl : frames = frame :: inner := hframes
  exact ⟨frame, inner, reached, final, rfl, hids, hstatement⟩

/-- In the frames `opened`, which are `frames` with `depth` more and the innermost one, a name is
rebound: the innermost frame binds it to a value, which none of `frames` binds to any name. -/
def RebindsInside (frames opened : List Frame) (depth : Nat) (name : String) (rebound : Entity) :
    Prop :=
  ∃ frame inner, opened = frame :: (inner ++ frames) ∧ inner.length = depth ∧
    frame.get? name = some rebound ∧ rebound.IsValue ∧
    ∀ outer ∈ frames, ∀ other, outer.get? other ≠ some rebound

section Loops

variable {visits inside : List (List Frame × Statement)} {frames opened : List Frame}
  {iterator target : Variable} {low high value : Expr} {pattern : String} {body : List Statement}

/-- A reassignment inside of a loop rebinds what was bound inside of the loop. -/
theorem rebindsInside_of_meets (hscoped : Statement.AllScoped Frame.root [] 0 last statements)
    (h : walker.Meets [Frame.root] statements
      (inside ++ (frames, .predictiveLoop iterator low high pattern body) :: visits)
      (opened, .variableReassignment target value)) :
    ∃ rebound, RebindsInside frames opened inside.length target.name rebound := by
  obtain ⟨houter, hinside⟩ := h.split
  obtain ⟨frame, outer, next, final, rfl, holder, hloop⟩ := scoped_of_meets hscoped houter
  -- The iterator takes the next identity, so the loop starts with what is newer than `frames`.
  obtain ⟨-, hid, -, -, hbody⟩ := hloop
  have hstart : IdsWithin next (next + 1) [Bindings.empty.insert iterator.name (.var iterator)] :=
    each_empty.insert ⟨hid.ge, hid ▸ Nat.lt_succ_self _⟩
  obtain ⟨current, between, reached, rest, hopened, hlength, -, hnewer, hstatement⟩ :=
    scopedAt_of_meets hbody (Nat.le_succ next) hstart hinside
  obtain ⟨⟨rebound, hrebound, hvalue⟩, -⟩ := hstatement
  have hwithin := hnewer current List.mem_cons_self target.name rebound hrebound
  refine ⟨rebound, current, between, hopened, hlength, hrebound, hvalue, ?_⟩
  intro older holderFrame other hbound
  exact Entity.ne_of_idWithin hvalue hwithin (holder older holderFrame other rebound hbound) rfl

/-- What is found in the frames around is not what is rebound inside. -/
theorem RebindsInside.ne_of_foundIn {depth : Nat} {name : String} {rebound : Entity}
    (h : RebindsInside frames opened depth name rebound) {used : Variable}
    (hfound : (Use.reference used).FoundIn frames) : rebound ≠ .var used := by
  obtain ⟨-, -, -, -, -, -, hnew⟩ := h
  obtain ⟨outer, houter, hused⟩ := List.exists_of_findSome?_eq_some hfound
  intro heq
  rw [heq] at hnew
  exact hnew outer houter used.name hused

end Loops

end Frame

/-- The bounds of every loop in the program of a source are pure and stay the same inside of it. A
walk with the open frames comes to every statement. Wherever it comes to a loop, the bounds are made
of integer literals and variables of the type of integers by arithmetic alone, and use what the
frames there bind. Any reassignment that it comes to inside of the loop has a name that the frame of
its own function or loop binds already; and what it is bound to there, and no longer is afterwards,
is bound by no frame around the loop and not used by the bounds. -/
theorem loop_bounds_invariant {source : Source} {program : Program}
    (h : source.program false = .ok program) :
    (∀ around statement, Statement.Within program.statements around statement ↔
        ∃ visits met, Frame.walker.Meets [Frame.root] program.statements visits met ∧
          around = visits.map Prod.snd ∧ statement = met.2) ∧
      ∀ visits frames iterator low high pattern body,
        Frame.walker.Meets [Frame.root] program.statements visits
            (frames, .predictiveLoop iterator low high pattern body) →
          low.IntegerOnly ∧ high.IntegerOnly ∧ low.FoundIn frames ∧ high.FoundIn frames ∧
            ∀ inside opened target value,
              Frame.walker.Meets [Frame.root] program.statements
                  (inside ++ (frames, .predictiveLoop iterator low high pattern body) :: visits)
                  (opened, .variableReassignment target value) →
                ∃ rebound, Frame.RebindsInside frames opened inside.length target.name rebound ∧
                  ∀ used, .reference used ∈ low.uses ++ high.uses → rebound ≠ .var used := by
  obtain ⟨last, hscoped⟩ := Source.scoped_of_program h
  refine ⟨fun _ _ ↦ Walker.within_iff_meets, ?_⟩
  intro visits frames iterator low high pattern body hloop
  have hbounds := Statement.integerBounds_of_within (Source.integerBounds_of_program h) hloop.within
  obtain ⟨frame, outer, next, final, rfl, -, -, -, hlow, hhigh, -⟩ :=
    Frame.scoped_of_meets hscoped hloop
  cases hbounds with
  | intro hbounds _ =>
    obtain ⟨hlowInteger, hrest⟩ := List.forall_mem_cons.mp hbounds
    refine ⟨hlowInteger, List.forall_mem_singleton.mp hrest, hlow, hhigh, ?_⟩
    intro inside opened target value hreassignment
    obtain ⟨rebound, hrebound⟩ := Frame.rebindsInside_of_meets hscoped hreassignment
    refine ⟨rebound, hrebound, fun used hused ↦ hrebound.ne_of_foundIn ?_⟩
    rcases List.mem_append.mp hused with hmem | hmem
    · exact hlow _ hmem
    · exact hhigh _ hmem

/-- The theorem at a loop whose bounds use a variable that is shadowed in its body, and rebound
there and in a function inside of it. -/
theorem loop_bounds_invariant_shadowing :
    ∃ program,
      (Source.ofText "" ("let n = 2\nfor i in predictive_range(0 - n, n * 3, prime) \x7b\n" ++
        "  n = i\n  n = n + 1\n  define f(n) then n = 5\n\x7d")).program false = .ok program ∧
      program.scriptText =
        "let n = 2;\n\n// predictive pattern: prime\n" ++
          "for (let i = (0 - n); i <= (n * 3); i++) \x7b\n  let n_1 = i;\n  n_1 = (n_1 + 1);\n" ++
          "  function f(n) \x7b\n    n = 5;\n  \x7d\n\x7d\n" ∧
      (∀ around statement, Statement.Within program.statements around statement ↔
          ∃ visits met, Frame.walker.Meets [Frame.root] program.statements visits met ∧
            around = visits.map Prod.snd ∧ statement = met.2) ∧
        ∀ visits frames iterator low high pattern body,
          Frame.walker.Meets [Frame.root] program.statements visits
              (frames, .predictiveLoop iterator low high pattern body) →
            low.IntegerOnly ∧ high.IntegerOnly ∧ low.FoundIn frames ∧ high.FoundIn frames ∧
              ∀ inside opened target value,
                Frame.walker.Meets [Frame.root] program.statements
                    (inside ++ (frames, .predictiveLoop iterator low high pattern body) :: visits)
                    (opened, .variableReassignment target value) →
                  ∃ rebound, Frame.RebindsInside frames opened inside.length target.name rebound ∧
                    ∀ used, .reference used ∈ low.uses ++ high.uses → rebound ≠ .var used := by
  refine (exists_of_any ?_).imp fun program hprogram ↦
    ⟨hprogram.1, hprogram.2, loop_bounds_invariant hprogram.1⟩
  decide +kernel

end Presage
