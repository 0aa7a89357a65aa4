/-!
Finite maps that keep one value for each key. Inserting replaces the value a key had, so a value
that was replaced is no longer among the `values`.
-/

set_option autoImplicit false
set_option relaxedAutoImplicit false

namespace Presage

/-- A finite map, as its entries with the latest first. -/
structure Bindings (κ α : Type) where
  entries : List (κ × α)

namespace Bindings

variable {κ α : Type} [BEq κ]

def empty : Bindings κ α := ⟨[]⟩

def get? (bindings : Bindings κ α) (key : κ) : Option α := bindings.entries.lookup key

/-- Gives `key` the value `value`, whatever value it had. -/
def insert (bindings : Bindings κ α) (key : κ) (value : α) : Bindings κ α :=
  ⟨(key, value) :: bindings.entries.filter fun entry ↦ !(entry.1 == key)⟩

def values (bindings : Bindings κ α) : List α := bindings.entries.map Prod.snd

@[simp] theorem get?_empty (key : κ) : (empty : Bindings κ α).get? key = none := rfl

theorem lookup_filter_of_ne [LawfulBEq κ] {key other : κ} (h : other ≠ key)
    (entries : List (κ × α)) :
    (entries.filter fun entry ↦ !(entry.1 == key)).lookup other = entries.lookup other := by
  induction entries with
  | nil => rfl
  | cons entry rest ih =>
    obtain ⟨first, value⟩ := entry
    by_cases hfirst : first = key
    · simp [hfirst, List.lookup_cons, ih, beq_eq_false_iff_ne.mpr h]
    · simp [hfirst, List.lookup_cons, ih]

theorem get?_insert [LawfulBEq κ] (bindings : Bindings κ α) (key other : κ) (value : α) :
    (bindings.insert key value).get? other =
      if other == key then some value else bindings.get? other := by
  by_cases h : other = key
  · simp [get?, insert, h]
  · simp [get?, insert, List.lookup_cons, lookup_filter_of_ne h, beq_eq_false_iff_ne.mpr h]

end Bindings

end Presage
