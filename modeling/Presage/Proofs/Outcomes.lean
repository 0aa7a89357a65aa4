import Mathlib.Control.Monad.Basic

/-!
Outcomes of computations that may fail, taken apart into those of their parts. That a closed
computation succeeds is decided without writing down its result; `exists_of_isOk` and
`exists_of_any` turn the decision into the outcome.
-/

set_option autoImplicit false
set_option relaxedAutoImplicit false

namespace Presage

/-- A result of two computations in turn comes from a result of the first. -/
theorem exists_of_bind_eq_ok {ε α β : Type} {first : Except ε α} {second : α → Except ε β}
    {result : β} (h : (first >>= second) = .ok result) :
    ∃ value, first = .ok value ∧ second value = .ok result := by
  cases first with
  | error cause => cases h
  | ok value => exact ⟨value, rfl, h⟩

/-- Two computations in turn fail with the first or, after it, with the second. -/
theorem of_bind_eq_error {ε α β : Type} {first : Except ε α} {second : α → Except ε β} {cause : ε}
    (h : (first >>= second) = .error cause) :
    first = .error cause ∨ ∃ value, first = .ok value ∧ second value = .error cause := by
  cases first with
  | error other =>
    obtain rfl := Except.error.inj h
    exact Or.inl rfl
  | ok value => exact Or.inr ⟨value, rfl, h⟩

/-- A computation that succeeds has a result. -/
theorem exists_of_isOk {ε α : Type} {result : Except ε α} (h : result.isOk = true) :
    ∃ value, result = .ok value := by
  cases result with
  | error cause => cases h
  | ok value => exact ⟨value, rfl⟩

/-- What is decided of a result is had of it. -/
theorem exists_of_any {ε α : Type} {result : Except ε α} {property : α → Prop}
    [DecidablePred property]
    (h : result.toOption.any (fun value ↦ decide (property value)) = true) :
    ∃ value, result = .ok value ∧ property value := by
  cases result with
  | error cause => cases h
  | ok value => exact ⟨value, rfl, of_decide_eq_true h⟩

theorem of_map_eq_error {ε α β : Type} {result : Except ε α} {view : α → β} {cause : ε}
    (h : result.map view = .error cause) : result = .error cause := by
  cases result with
  | error other => exact congrArg Except.error (Except.error.inj h)
  | ok value => cases h

end Presage
