import Presage.Proofs.Placement

/-!
Walks through the statements of a program with a state. A `Walker` says what a statement makes of
the state and in which state its body is entered; an emitter and a stack of frames are both carried
along so. `Walker.Meets` gives the statements that a walk comes to, each with the state there and
with the statements around it, which were met before.

A walk comes to every statement (`Walker.within_iff_meets`), and past a statement it is a walk
through the body of that statement (`Meets.split`). What holds along a walk is then proved by
induction on `Meets`: for what stands at the top, and for what stands in the body of a statement
that was met.
-/

set_option autoImplicit false
set_option relaxedAutoImplicit false

namespace Presage

/-- How a state is carried through statements: what is left of it after a statement, and what it is
at the start of the body of one. -/
structure Walker (σ : Type) where
  step : σ → Statement → σ
  enter : σ → Statement → σ

namespace Walker

variable {σ : Type} (walker : Walker σ) {start : σ} {statements : List Statement}

/-- A walk through the statements from the state `start` on comes to a statement: in which state,
and with which statements around whose bodies it is in, from the inside out, each with the state in
which it was met itself. -/
inductive Meets (start : σ) (statements : List Statement) :
    List (σ × Statement) → σ × Statement → Prop
  | top {before after : List Statement} {statement : Statement}
      (h : statements = before ++ statement :: after) :
      Meets start statements [] (before.foldl walker.step start, statement)
  | inner {around : List (σ × Statement)} {outer : σ × Statement} {before after : List Statement}
      {statement : Statement} (houter : Meets start statements around outer)
      (h : outer.2.body = before ++ statement :: after) :
      Meets start statements (outer :: around)
        (before.foldl walker.step (walker.enter outer.1 outer.2), statement)

variable {walker}

/-- A walk comes to every statement, inside of the statements that it stands in. -/
theorem within_iff_meets {around : List Statement} {statement : Statement} :
    Statement.Within statements around statement ↔
      ∃ visits met, walker.Meets start statements visits met ∧ around = visits.map Prod.snd ∧
        statement = met.2 := by
  constructor
  · intro h
    induction h with
    | top hmem =>
      obtain ⟨before, after, hstatements⟩ := List.append_of_mem hmem
      exact ⟨[], _, .top hstatements, rfl, rfl⟩
    | inner _ hmem ih =>
      obtain ⟨visits, outer, houter, rfl, rfl⟩ := ih
      obtain ⟨before, after, hbody⟩ := List.append_of_mem hmem
      exact ⟨outer :: visits, _, .inner houter hbody, rfl, rfl⟩
  · rintro ⟨visits, met, h, rfl, rfl⟩
    induction h with
    | top hstatements =>
      refine .top ?_
      rw [hstatements]
      exact List.mem_append_right _ List.mem_cons_self
    | inner _ hbody ih =>
      refine .inner ih ?_
      rw [hbody]
      exact List.mem_append_right _ List.mem_cons_self

theorem Meets.within {visits : List (σ × Statement)} {met : σ × Statement}
    (h : walker.Meets start statements visits met) :
    Statement.Within statements (visits.map Prod.snd) met.2 :=
  within_iff_meets.mpr ⟨visits, met, h, rfl, rfl⟩

/-- A walk that comes to a statement inside of another one came to that one, and went on through its
body. -/
theorem Meets.split {inside around : List (σ × Statement)} {outer met : σ × Statement}
    (h : walker.Meets start statements (inside ++ outer :: around) met) :
    walker.Meets start statements around outer ∧
      walker.Meets (walker.enter outer.1 outer.2) outer.2.body inside met := by
  induction inside generalizing met with
  | nil =>
    cases h with
    | inner houter hbody => exact ⟨houter, .top hbody⟩
  | cons first inside ih =>
    cases h with
    | inner hfirst hbody =>
      obtain ⟨houter, hinside⟩ := ih hfirst
      exact ⟨houter, .inner hinside hbody⟩

end Walker

end Presage
