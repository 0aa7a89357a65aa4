import Presage.Proofs.Emission
import Presage.Proofs.Occurrences

/-!
The open blocks of a script beside the open frames of its program. A `Level` holds, for one block,
the frame of the analysis, the names of the emitter, the identities that declared them, the
declarations met so far and those still to come. `Level.Sound` says how they belong together:

* every value that the frame binds was declared in the block, under the name and for the identity
  that stand for it;
* the names met so far are among those that the block binds;
* a name that was chosen for a variable is not bound in any block around, and in its own block only
  a function may be declared under it;
* a name that will be chosen is not bound in the block as it is now, nor in any block around.

The last point is the one that needs the whole block: a declaration is visible before it is met.
`Level.exists_declaration` draws the conclusion. What a name means is declared in an open block
under the written name, and in the blocks out to that one another declaration of the same name is a
function or a parameter, unless the entity itself is a function.
-/

set_option autoImplicit false
set_option relaxedAutoImplicit false

namespace Presage

open Script (Declaration Block)

/-! ### Captured names -/

namespace Script

/-- Functions and parameters are written under their own names, and the names of variables are
chosen. -/
def Declaration.keepsName (declaration : Declaration) : Bool :=
  match declaration.introduction with
  | .variable | .iterator => false
  | .parameter | .function => true

/-- The declarations of the open blocks out to the first one that has the given declaration. -/
def reach (declaration : Declaration) : List Block → List Declaration
  | [] => []
  | block :: outer => if declaration ∈ block then block else block ++ reach declaration outer

/-- The other declaration takes the name of the first one, and one of the two keeps its own name:
the other, or the first one as a function. -/
def Declaration.CapturedBy (declaration other : Declaration) : Prop :=
  other.name = declaration.name ∧ other ≠ declaration ∧
    (other.keepsName = true ∨ declaration.introduction = .function)

/-- A declared name resolves to its declaration when no other declaration of that name stands in the
blocks out to it. Assumes: a declaration of an open block. -/
theorem resolvesTo_iff {declaration : Declaration} {blocks : List Block}
    (h : declaration ∈ blocks.flatten) :
    ResolvesTo declaration.name declaration blocks ↔
      ∀ other ∈ reach declaration blocks, other.name = declaration.name → other = declaration := by
  induction blocks with
  | nil => cases h
  | cons block outer ih =>
    unfold ResolvesTo meanings reach
    by_cases hblock : declaration ∈ block
    · rw [if_pos hblock]
      have hfound : declaration ∈ block.filter fun other ↦ other.name = declaration.name :=
        List.mem_filter.mpr ⟨hblock, decide_eq_true rfl⟩
      split
      · next hnone =>
        rw [hnone] at hfound
        cases hfound
      · refine ⟨fun hresolves other hother hname ↦ ?_, fun honly ↦ ⟨hfound, fun other hother ↦ ?_⟩⟩
        · exact hresolves.2 other (List.mem_filter.mpr ⟨hother, decide_eq_true hname⟩)
        · obtain ⟨hmem, hname⟩ := List.mem_filter.mp hother
          exact honly other hmem (of_decide_eq_true hname)
    · rw [if_neg hblock]
      have houter : declaration ∈ outer.flatten := by
        rw [List.flatten_cons, List.mem_append] at h
        exact h.resolve_left hblock
      split
      · next hnone =>
        have hother : ∀ other ∈ block, other.name ≠ declaration.name := by
          intro other hmem hname
          have hfilter := List.filter_eq_nil_iff.mp hnone other hmem
          exact hfilter (decide_eq_true hname)
        refine (ih houter).trans ⟨fun honly other hmem hname ↦ ?_, fun honly other hmem ↦ ?_⟩
        · rcases List.mem_append.mp hmem with hin | hout
          · exact (hother other hin hname).elim
          · exact honly other hout hname
        · exact honly other (List.mem_append_right block hmem)
      · next hsome =>
        refine ⟨fun hresolves ↦ (hblock (List.mem_filter.mp hresolves.1).1).elim, fun honly ↦ ?_⟩
        obtain ⟨other, hother⟩ := List.exists_mem_of_ne_nil _ hsome
        obtain ⟨hmem, hname⟩ := List.mem_filter.mp hother
        have heq := honly other (List.mem_append_left _ hmem) (of_decide_eq_true hname)
        rw [heq] at hmem
        exact (hblock hmem).elim

end Script

/-! ### Levels -/

/-- One open block of a script, with the frame of the program that it belongs to. -/
structure Level where
  frame : Frame
  block : Bindings String String
  declared : Bindings String Nat
  past : Block
  future : Block

/-- The declaration stands for the entity: it has the written name and the right identity. -/
def Entity.WrittenBy (nameOf : Variable → String) (ownerOf : Variable → Nat)
    (declaration : Declaration) : Entity → Prop
  | .var target => nameOf target = declaration.name ∧ ownerOf target = declaration.owner
  | .func target => declaration = ⟨.function, target.name, target.id⟩
  | .type _ => False

namespace Level

variable {nameOf nameOf' : Variable → String} {ownerOf ownerOf' : Variable → Nat}

/-- All declarations of the block. -/
def declarations (level : Level) : Block := level.past ++ level.future

/-- The names bound in open blocks. -/
def visible (levels : List Level) : List String := levels.flatMap fun level ↦ level.block.values

/-- The parts of a level belong together; see the head of this module. -/
structure Sound (nameOf : Variable → String) (ownerOf : Variable → Nat) (level : Level)
    (outer : List Level) : Prop where
  mirrors : level.block.Mirrors level.frame
  bound : ∀ name entity, level.frame.get? name = some entity → entity.IsValue →
    ∃ declaration ∈ level.past, level.block.get? name = some declaration.name ∧
      level.declared.get? name = some declaration.owner ∧
      entity.WrittenBy nameOf ownerOf declaration
  past_visible : ∀ declaration ∈ level.past, declaration.name ∈ level.block.values
  past_fresh : ∀ declaration ∈ level.past, declaration.keepsName = false →
    declaration.name ∉ visible outer
  past_distinct : ∀ declaration ∈ level.past, declaration.keepsName = false →
    ∀ other ∈ level.past, other.introduction ≠ .function → other.name = declaration.name →
      other = declaration
  future_fresh : ∀ declaration ∈ level.future, declaration.keepsName = false →
    declaration.name ∉ visible (level :: outer)

/-- Every level is sound with the levels around it. -/
def AllSound (nameOf : Variable → String) (ownerOf : Variable → Nat) : List Level → Prop
  | [] => True
  | level :: outer => level.Sound nameOf ownerOf outer ∧ AllSound nameOf ownerOf outer

/-- What a name means was declared in an open block, and no variable takes its name: another
declaration of that name in the blocks out to it is a function or a parameter, unless the entity
itself is a function. -/
theorem exists_declaration {levels : List Level} (h : AllSound nameOf ownerOf levels)
    {name : String} {entity : Entity} (hentity : entity.IsValue)
    (hlookup : Frame.lookup? (levels.map Level.frame) name = some entity) :
    ∃ declaration ∈ (levels.map Level.declarations).flatten, declaration.name ∈ visible levels ∧
      entity.WrittenBy nameOf ownerOf declaration ∧
      ∀ other ∈ Script.reach declaration (levels.map Level.declarations),
        other.name = declaration.name → other ≠ declaration →
          other.keepsName = true ∨ declaration.introduction = .function := by
  induction levels with
  | nil => cases hlookup
  | cons level outer ih =>
    obtain ⟨hlevel, houter⟩ := h
    unfold Frame.lookup? at hlookup
    rw [List.map_cons, List.findSome?_cons] at hlookup
    split at hlookup
    · next found hfound =>
      obtain rfl := Option.some.inj hlookup
      obtain ⟨declaration, hpast, -, -, hwritten⟩ := hlevel.bound name found hfound hentity
      have hmem : declaration ∈ level.declarations := List.mem_append_left _ hpast
      have hvisible := hlevel.past_visible declaration hpast
      refine ⟨declaration, List.mem_append_left _ hmem, List.mem_append_left _ hvisible, hwritten,
        fun other hother hname hne ↦ ?_⟩
      rw [List.map_cons, Script.reach, if_pos hmem] at hother
      by_cases hkeeps : other.keepsName = true
      · exact Or.inl hkeeps
      · right
        by_contra hfunction
        have hchosen : other.keepsName = false := Bool.eq_false_iff.mpr hkeeps
        rcases List.mem_append.mp hother with hotherPast | hotherFuture
        · exact hne (hlevel.past_distinct other hotherPast hchosen declaration hpast hfunction
            hname.symm).symm
        · refine hlevel.future_fresh other hotherFuture hchosen ?_
          rw [hname]
          exact List.mem_append_left _ hvisible
    · obtain ⟨declaration, hmem, hvisible, hwritten, hothers⟩ := ih houter hlookup
      refine ⟨declaration, List.mem_append_right _ hmem, List.mem_append_right _ hvisible, hwritten,
        fun other hother hname hne ↦ ?_⟩
      -- In a block inside that of the declaration, a chosen name avoids all names around.
      have hinner : other ∈ level.declarations → other.keepsName = true := by
        intro hlevelMem
        by_contra hkeeps
        have hchosen : other.keepsName = false := Bool.eq_false_iff.mpr hkeeps
        rcases List.mem_append.mp hlevelMem with hotherPast | hotherFuture
        · refine hlevel.past_fresh other hotherPast hchosen ?_
          rw [hname]
          exact hvisible
        · refine hlevel.future_fresh other hotherFuture hchosen ?_
          rw [hname]
          exact List.mem_append_right _ hvisible
      rw [List.map_cons, Script.reach] at hother
      split at hother
      · exact Or.inl (hinner hother)
      · rcases List.mem_append.mp hother with hin | hout
        · exact Or.inl (hinner hin)
        · exact hothers other hout hname hne

/-! ### Steps of a level -/

/-- The level after a declaration has been met, with nothing known of what is to come. -/
def declare (level : Level) (name : String) (entity : Entity) (declaration : Declaration) : Level :=
  ⟨level.frame.insert name entity, level.block.insert name declaration.name,
    level.declared.insert name declaration.owner, level.past ++ [declaration], []⟩

/-- The level after its name has been bound to another entity. -/
def rebind (level : Level) (name : String) (entity : Entity) : Level :=
  { level with frame := level.frame.insert name entity }

/-- The level with the declarations that are to come. -/
def withFuture (level : Level) (future : Block) : Level := { level with future := future }

/-- A block in which nothing has been met. -/
def ofFrame (frame : Frame) : Level := ⟨frame, .empty, .empty, [], []⟩

/-- A block that has just been opened. -/
def empty : Level := ofFrame .empty

theorem sound_ofFrame {frame : Frame} (h : ∀ name, ¬ frame.BindsValue name) (outer : List Level) :
    (ofFrame frame).Sound nameOf ownerOf outer where
  mirrors := Bindings.Mirrors.empty_of_not_bindsValue h
  bound name entity hentity hvalue := (h name ⟨entity, hentity, hvalue⟩).elim
  past_visible _ hmem := by cases hmem
  past_fresh _ hmem := by cases hmem
  past_distinct _ hmem := by cases hmem
  future_fresh _ hmem := by cases hmem

theorem sound_empty (outer : List Level) : empty.Sound nameOf ownerOf outer := by
  refine sound_ofFrame (fun name ↦ ?_) outer
  rintro ⟨entity, hentity, -⟩
  cases hentity

/-- Only what is written for the variables of a frame matters. -/
theorem Sound.congr {level : Level} {outer : List Level} (h : level.Sound nameOf ownerOf outer)
    (hsame : ∀ name target, level.frame.get? name = some (.var target) →
      nameOf' target = nameOf target ∧ ownerOf' target = ownerOf target) :
    level.Sound nameOf' ownerOf' outer where
  mirrors := h.mirrors
  bound name entity hentity hvalue := by
    obtain ⟨declaration, hpast, hblock, hdeclared, hwritten⟩ := h.bound name entity hentity hvalue
    refine ⟨declaration, hpast, hblock, hdeclared, ?_⟩
    cases entity with
    | var target =>
      obtain ⟨hname, howner⟩ := hsame name target hentity
      exact ⟨hname.trans hwritten.1, howner.trans hwritten.2⟩
    | func target => exact hwritten
    | type ty => exact hwritten
  past_visible := h.past_visible
  past_fresh := h.past_fresh
  past_distinct := h.past_distinct
  future_fresh := h.future_fresh

theorem AllSound.congr {levels : List Level} (h : AllSound nameOf ownerOf levels)
    (hsame : ∀ level ∈ levels, ∀ name target, level.frame.get? name = some (.var target) →
      nameOf' target = nameOf target ∧ ownerOf' target = ownerOf target) :
    AllSound nameOf' ownerOf' levels := by
  induction levels with
  | nil => trivial
  | cons level outer ih =>
    refine ⟨h.1.congr (hsame level List.mem_cons_self), ih h.2 fun other hother ↦ ?_⟩
    exact hsame other (List.mem_cons_of_mem level hother)

theorem Sound.withFuture {level : Level} {outer : List Level} (h : level.Sound nameOf ownerOf outer)
    {future : Block} (hfuture : ∀ declaration ∈ future, declaration.keepsName = false →
      declaration.name ∉ visible (level :: outer)) :
    (level.withFuture future).Sound nameOf ownerOf outer :=
  { h with future_fresh := hfuture }

/-- Meeting a declaration. A chosen name is new in all open blocks, no name that the block binds
gets lost, and parameters come before chosen names. -/
theorem Sound.declare {level : Level} {outer : List Level} (h : level.Sound nameOf ownerOf outer)
    {name : String} {entity : Entity} {declaration : Declaration}
    (hkept : ∀ written ∈ level.block.values,
      written ∈ (level.block.insert name declaration.name).values)
    (hwritten : entity.WrittenBy nameOf ownerOf declaration)
    (hchosen : declaration.keepsName = false → declaration.name ∉ visible (level :: outer))
    (hparameter : declaration.introduction = .parameter →
      ∀ earlier ∈ level.past, earlier.keepsName = true) :
    (level.declare name entity declaration).Sound nameOf ownerOf outer where
  mirrors := by
    have hentity : entity.IsValue := by
      cases entity with
      | var target => trivial
      | func target => trivial
      | type ty => exact hwritten
    exact h.mirrors.insert name declaration.name hentity
  bound other found hfound hvalue := by
    unfold Level.declare at hfound ⊢
    rw [Bindings.get?_insert] at hfound
    rw [Bindings.get?_insert, Bindings.get?_insert]
    split at hfound
    · next hname =>
      obtain rfl := Option.some.inj hfound
      rw [if_pos hname, if_pos hname]
      exact ⟨declaration, List.mem_append_right _ (List.mem_singleton_self _), rfl, rfl, hwritten⟩
    · next hname =>
      rw [if_neg hname, if_neg hname]
      obtain ⟨earlier, hpast, hrest⟩ := h.bound other found hfound hvalue
      exact ⟨earlier, List.mem_append_left _ hpast, hrest⟩
  past_visible earlier hearlier := by
    rcases List.mem_append.mp hearlier with hpast | hnew
    · exact hkept earlier.name (h.past_visible earlier hpast)
    · obtain rfl := List.mem_singleton.mp hnew
      exact List.mem_cons_self
  past_fresh earlier hearlier hkeeps := by
    rcases List.mem_append.mp hearlier with hpast | hnew
    · exact h.past_fresh earlier hpast hkeeps
    · obtain rfl := List.mem_singleton.mp hnew
      exact fun houter ↦ hchosen hkeeps (List.mem_append_right _ houter)
  past_distinct earlier hearlier hkeeps other hother hfunction hname := by
    have hvisible : ∀ old ∈ level.past, old.name ∈ visible (level :: outer) :=
      fun old hold ↦ List.mem_append_left _ (h.past_visible old hold)
    rcases List.mem_append.mp hearlier with hpast | hnew
    · rcases List.mem_append.mp hother with hotherPast | hotherNew
      · exact h.past_distinct earlier hpast hkeeps other hotherPast hfunction hname
      · -- A new function does not count and a parameter comes too early, so the name was chosen.
        obtain rfl := List.mem_singleton.mp hotherNew
        have hotherKeeps : other.keepsName = false := by
          unfold Declaration.keepsName
          cases hintroduction : other.introduction with
          | «variable» => rfl
          | iterator => rfl
          | parameter =>
            rw [hparameter hintroduction earlier hpast] at hkeeps
            cases hkeeps
          | function => exact (hfunction hintroduction).elim
        exact (hchosen hotherKeeps (hname ▸ hvisible earlier hpast)).elim
    · obtain rfl := List.mem_singleton.mp hnew
      rcases List.mem_append.mp hother with hotherPast | hotherNew
      · exact (hchosen hkeeps (hname ▸ hvisible other hotherPast)).elim
      · exact List.mem_singleton.mp hotherNew
  future_fresh _ hmem := by cases hmem

/-- Rebinding a name to a variable that is written as the name is. -/
theorem Sound.rebind {level : Level} {outer : List Level} (h : level.Sound nameOf ownerOf outer)
    {name : String} {target : Variable} (hname : level.frame.BindsValue name)
    (hwritten : level.block.get? name = some (nameOf target))
    (howner : level.declared.get? name = some (ownerOf target)) :
    (level.rebind name (.var target)).Sound nameOf ownerOf outer where
  mirrors := h.mirrors.rebind hname trivial
  bound other found hfound hvalue := by
    unfold Level.rebind at hfound
    rw [Bindings.get?_insert] at hfound
    split at hfound
    · next hother =>
      obtain rfl := Option.some.inj hfound
      obtain rfl := eq_of_beq hother
      obtain ⟨entity, hentity, hentityValue⟩ := hname
      obtain ⟨declaration, hpast, hblock, hdeclared, -⟩ := h.bound other entity hentity hentityValue
      refine ⟨declaration, hpast, hblock, hdeclared, ?_, ?_⟩
      · exact Option.some.inj (hwritten.symm.trans hblock)
      · exact Option.some.inj (howner.symm.trans hdeclared)
    · exact h.bound other found hfound hvalue
  past_visible := h.past_visible
  past_fresh := h.past_fresh
  past_distinct := h.past_distinct
  future_fresh := h.future_fresh

/-! ### Parameters -/

/-- The level after parameters have been met, which have the identities from `next` on. -/
def withParameters (level : Level) (next : Nat) : List Parameter → Level
  | [] => level
  | parameter :: rest =>
    withParameters
      (level.declare parameter.name (.var ⟨next, parameter.name, parameter.ty?⟩)
        ⟨.parameter, parameter.name, next⟩)
      (next + 1) rest

theorem frame_withParameters (level : Level) (next : Nat) (parameters : List Parameter) :
    (level.withParameters next parameters).frame = level.frame.withParameters next parameters := by
  induction parameters generalizing level next with
  | nil => rfl
  | cons parameter rest ih => exact ih _ (next + 1)

theorem block_withParameters (level : Level) (next : Nat) (parameters : List Parameter)
    {state : Emitter} (h : level.block = state.block) :
    (level.withParameters next parameters).block =
      (parameters.foldl (fun state parameter ↦ state.bind parameter.name) state).block := by
  induction parameters generalizing level next state with
  | nil => exact h
  | cons parameter rest ih =>
    refine ih _ (next + 1) ?_
    show level.block.insert parameter.name parameter.name = _
    rw [h]
    rfl

theorem declared_withParameters (level : Level) (next : Nat) (parameters : List Parameter) :
    (level.withParameters next parameters).declared =
      Ownership.declareParameters level.declared next parameters := by
  induction parameters generalizing level next with
  | nil => rfl
  | cons parameter rest ih => exact ih _ (next + 1)

theorem past_withParameters (level : Level) (next : Nat) (parameters : List Parameter)
    (emitter : Emitter) :
    (level.withParameters next parameters).past =
      level.past ++ Script.Parameter.declarations next (parameters.map emitter.parameter) := by
  induction parameters generalizing level next with
  | nil => exact (List.append_nil level.past).symm
  | cons parameter rest ih =>
    refine (ih _ (next + 1)).trans ?_
    exact List.append_assoc level.past [⟨.parameter, parameter.name, next⟩] _

theorem future_withParameters {level : Level} (h : level.future = []) (next : Nat)
    (parameters : List Parameter) : (level.withParameters next parameters).future = [] := by
  induction parameters generalizing level next with
  | nil => exact h
  | cons parameter rest ih => exact ih rfl (next + 1)

/-- Meeting parameters in a block where every name so far is written as it is. A parameter may take
the name of an earlier one, and is then what the name means. -/
theorem Sound.withParameters {level : Level} {outer : List Level}
    (h : level.Sound nameOf ownerOf outer)
    (hkeeps : ∀ declaration ∈ level.past, declaration.keepsName = true)
    (hsame : ∀ entry ∈ level.block.entries, entry.2 = entry.1) {next : Nat}
    (hnew : ∀ target : Variable, next ≤ target.id →
      nameOf target = target.name ∧ ownerOf target = target.id)
    (parameters : List Parameter) :
    (level.withParameters next parameters).Sound nameOf ownerOf outer := by
  induction parameters generalizing level next with
  | nil => exact h
  | cons parameter rest ih =>
    have hkept : ∀ written ∈ level.block.values,
        written ∈ (level.block.insert parameter.name parameter.name).values := by
      intro written hwritten
      obtain ⟨entry, hentry, rfl⟩ := List.mem_map.mp hwritten
      by_cases hname : entry.1 = parameter.name
      · rw [hsame entry hentry, hname]
        exact List.mem_cons_self
      · refine List.mem_cons_of_mem _ (List.mem_map.mpr ⟨entry, ?_, rfl⟩)
        exact List.mem_filter.mpr ⟨hentry, by simpa using hname⟩
    have hwritten : Entity.WrittenBy nameOf ownerOf ⟨.parameter, parameter.name, next⟩
        (.var ⟨next, parameter.name, parameter.ty?⟩) :=
      hnew ⟨next, parameter.name, parameter.ty?⟩ (Nat.le_refl next)
    refine ih (h.declare hkept hwritten (fun hchosen ↦ ?_) (fun _ ↦ hkeeps))
      (fun declaration hmem ↦ ?_) (fun entry hentry ↦ ?_)
      (fun target htarget ↦ hnew target (Nat.le_of_succ_le htarget))
    · cases hchosen
    · rcases List.mem_append.mp hmem with hpast | hparameter
      · exact hkeeps declaration hpast
      · obtain rfl := List.mem_singleton.mp hparameter
        rfl
    · rcases List.mem_cons.mp hentry with rfl | hold
      · rfl
      · exact hsame entry (List.mem_filter.mp hold).1

/-! ### Identities -/

/-- The identities from `first` up to `last` are free: no declaration of the levels has one, the
declarations that were met have smaller ones and those to come have larger ones. -/
structure Separate (first last : Nat) (levels : List Level) : Prop where
  nodup : ((levels.flatMap Level.declarations).map Declaration.owner).Nodup
  past_below : ∀ level ∈ levels, ∀ declaration ∈ level.past, declaration.owner < first
  future_above : ∀ level ∈ levels, ∀ declaration ∈ level.future, last ≤ declaration.owner

/-- The declarations have increasing identities from `first` up to `last`. -/
def Ascending (first last : Nat) (block : Block) : Prop :=
  (block.map Declaration.owner).Pairwise (· < ·) ∧
    ∀ declaration ∈ block, first ≤ declaration.owner ∧ declaration.owner < last

theorem Separate.mono {first last first' last' : Nat} {levels : List Level}
    (h : Separate first last levels) (hfirst : first ≤ first') (hlast : last' ≤ last) :
    Separate first' last' levels where
  nodup := h.nodup
  past_below level hlevel declaration hdeclaration :=
    Nat.lt_of_lt_of_le (h.past_below level hlevel declaration hdeclaration) hfirst
  future_above level hlevel declaration hdeclaration :=
    Nat.le_trans hlast (h.future_above level hlevel declaration hdeclaration)

theorem Separate.openBlock {first last : Nat} {levels : List Level}
    (h : Separate first last levels) :
    Separate first last (empty :: levels) where
  nodup := h.nodup
  past_below level hlevel declaration hdeclaration := by
    rcases List.mem_cons.mp hlevel with rfl | hlevel
    · cases hdeclaration
    · exact h.past_below level hlevel declaration hdeclaration
  future_above level hlevel declaration hdeclaration := by
    rcases List.mem_cons.mp hlevel with rfl | hlevel
    · cases hdeclaration
    · exact h.future_above level hlevel declaration hdeclaration

/-- Free identities are those of no declaration. -/
theorem Separate.owner_not_mem {first last : Nat} {levels : List Level}
    (h : Separate first last levels) (owner : Nat) (hfirst : first ≤ owner) (hlast : owner < last) :
    owner ∉ (levels.flatMap Level.declarations).map Declaration.owner := by
  intro hmem
  obtain ⟨declaration, hdeclaration, rfl⟩ := List.mem_map.mp hmem
  obtain ⟨level, hlevel, hlevelMem⟩ := List.mem_flatMap.mp hdeclaration
  rcases List.mem_append.mp hlevelMem with hpast | hfuture
  · have hbelow := h.past_below level hlevel declaration hpast
    omega
  · have habove := h.future_above level hlevel declaration hfuture
    omega

/-- Meeting a declaration with the first free identity. -/
theorem Separate.declare {first last : Nat} {level : Level} {outer : List Level}
    (h : Separate first last (level :: outer)) (hfuture : level.future = []) (hlast : first < last)
    (name : String) (entity : Entity) (declaration : Declaration)
    (howner : declaration.owner = first) :
    Separate (first + 1) last (level.declare name entity declaration :: outer) where
  nodup := by
    have hfree := h.owner_not_mem first (Nat.le_refl first) hlast
    have hnodup := h.nodup
    simp only [List.flatMap_cons, declarations, hfuture, List.append_nil, List.map_append]
      at hfree hnodup
    simp only [List.flatMap_cons, declarations, Level.declare, List.append_nil, List.map_append,
      List.append_assoc, List.map_cons, List.singleton_append, howner]
    exact List.nodup_middle.mpr (List.nodup_cons.mpr ⟨hfree, hnodup⟩)
  past_below other hother earlier hearlier := by
    rcases List.mem_cons.mp hother with rfl | houter
    · rcases List.mem_append.mp hearlier with hpast | hnew
      · exact Nat.lt_succ_of_lt (h.past_below level List.mem_cons_self earlier hpast)
      · obtain rfl := List.mem_singleton.mp hnew
        exact howner ▸ Nat.lt_succ_self _
    · have hbelow := h.past_below other (List.mem_cons_of_mem level houter) earlier hearlier
      exact Nat.lt_succ_of_lt hbelow
  future_above other hother later hlater := by
    rcases List.mem_cons.mp hother with rfl | houter
    · cases hlater
    · exact h.future_above other (List.mem_cons_of_mem level houter) later hlater

theorem Separate.withParameters {first last : Nat} {level : Level} {outer : List Level}
    (h : Separate first last (level :: outer)) (hfuture : level.future = [])
    (parameters : List Parameter) (hlast : first + parameters.length ≤ last) :
    Separate (first + parameters.length) last (level.withParameters first parameters :: outer) := by
  induction parameters generalizing level first with
  | nil => exact h
  | cons parameter rest ih =>
    rw [List.length_cons] at hlast
    have hdeclared := h.declare hfuture (by omega) parameter.name
      (.var ⟨first, parameter.name, parameter.ty?⟩) ⟨.parameter, parameter.name, first⟩ rfl
    have hrest := ih hdeclared rfl (by omega)
    rw [List.length_cons, Nat.add_comm rest.length 1, ← Nat.add_assoc]
    exact hrest

/-- Declarations to come take the last free identities. -/
theorem Separate.withFuture {first middle last : Nat} {level : Level} {outer : List Level}
    (h : Separate first last (level :: outer)) (hfuture : level.future = []) {future : Block}
    (hascending : Ascending middle last future) (hfirst : first ≤ middle) (hlast : middle ≤ last) :
    Separate first middle (level.withFuture future :: outer) where
  nodup := by
    have hnodup := h.nodup
    have hfree := h.owner_not_mem
    simp only [List.flatMap_cons, declarations, hfuture, List.append_nil, List.map_append]
      at hfree hnodup
    simp only [List.flatMap_cons, declarations, Level.withFuture, List.map_append]
    rw [List.append_assoc]
    refine (List.perm_append_comm_assoc _ _ _).nodup_iff.mpr ?_
    refine List.nodup_append.mpr ⟨hascending.1.imp Nat.ne_of_lt, hnodup, ?_⟩
    rintro owner howner other hother rfl
    obtain ⟨later, hlater, rfl⟩ := List.mem_map.mp howner
    obtain ⟨hlow, hhigh⟩ := hascending.2 later hlater
    exact hfree later.owner (Nat.le_trans hfirst hlow) hhigh hother
  past_below other hother earlier hearlier := by
    rcases List.mem_cons.mp hother with rfl | houter
    · exact h.past_below level List.mem_cons_self earlier hearlier
    · exact h.past_below other (List.mem_cons_of_mem level houter) earlier hearlier
  future_above other hother later hlater := by
    rcases List.mem_cons.mp hother with rfl | houter
    · exact (hascending.2 later hlater).1
    · have habove := h.future_above other (List.mem_cons_of_mem level houter) later hlater
      exact Nat.le_trans hlast habove

end Level

end Presage
