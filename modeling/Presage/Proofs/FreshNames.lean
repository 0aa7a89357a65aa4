import Mathlib.Data.List.Nodup
import Mathlib.Data.List.Perm.Basic
import Mathlib.Data.Nat.Init
import Mathlib.Logic.Function.Basic
import Mathlib.Order.Bounds.Defs
import Presage.Script.Emitter

/-!
Fresh names are found, and they are the first free ones. The candidates for a variable are its own
name and that name with a number, and no two of them are equal (`candidate_injective`). There is one
more candidate in the search than there are names taken, so one of them is free
(`exists_candidate_not_mem`), and the name that the search gives is the first that is
(`exists_isLeast_freshName`).

`Searches` is the search without a bound, which goes on to the next candidate as long as the one at
hand is taken. It ends, and with the fresh name alone (`searches_iff`). To declare a variable
changes how that variable is written and what its name is written as in the innermost block, and
nothing else (`declare_takes_least_name`).
-/

set_option autoImplicit false
set_option relaxedAutoImplicit false

namespace Presage.Emitter

/-! ### Candidates -/

/-- Different numbers have different decimal forms. -/
theorem repr_injective {first second : Nat} (h : first.repr = second.repr) : first = second := by
  have hdigits : Nat.toDigits 10 first = Nat.toDigits 10 second := by
    rw [← Nat.toList_repr, ← Nat.toList_repr, h]
  rw [← Nat.ofDigitChars_ten_toDigits (n := first), hdigits, Nat.ofDigitChars_ten_toDigits]

/-- A name with a number is longer than the name. -/
theorem candidate_succ_ne (name : String) (number : Nat) :
    candidate name (number + 1) ≠ name := by
  intro h
  have hlength := congrArg String.length h
  simp only [candidate, String.length_append] at hlength
  have hunderscore : "_".length = 1 := rfl
  omega

/-- No two candidates for a name are equal. -/
theorem candidate_injective (name : String) : Function.Injective (candidate name) := by
  intro first second h
  cases first with
  | zero =>
    cases second with
    | zero => rfl
    | succ second => exact (candidate_succ_ne name second h.symm).elim
  | succ first =>
    cases second with
    | zero => exact (candidate_succ_ne name first h).elim
    | succ second =>
      simp only [candidate] at h
      exact repr_injective ((String.append_right_inj _).mp h)

/-- Of one more candidates than there are names taken, one is free. -/
theorem exists_candidate_not_mem (taken : List String) (name : String) :
    ∃ number ∈ List.range (taken.length + 1), candidate name number ∉ taken := by
  by_contra hnone
  push Not at hnone
  have hsubset : (List.range (taken.length + 1)).map (candidate name) ⊆ taken := by
    intro written hwritten
    obtain ⟨number, hnumber, rfl⟩ := List.mem_map.mp hwritten
    exact hnone number hnumber
  have hnodup : ((List.range (taken.length + 1)).map (candidate name)).Nodup :=
    List.Nodup.map (candidate_injective name) List.nodup_range
  have hlength := (List.subperm_of_subset hnodup hsubset).length_le
  rw [List.length_map, List.length_range] at hlength
  omega

/-! ### The search -/

/-- The numbers of the candidates that are not taken. -/
def freeNumbers (taken : List String) (name : String) : Set Nat :=
  {number | candidate name number ∉ taken}

/-- A fresh name is the first candidate that is not taken. Its number is at most the number of names
taken. -/
theorem exists_isLeast_freshName (taken : List String) (name : String) :
    ∃ number ≤ taken.length, IsLeast (freeNumbers taken name) number ∧
      freshName taken name = candidate name number := by
  unfold freshName
  cases hfind : (List.range (taken.length + 1)).find? fun number ↦
      !taken.contains (candidate name number) with
  | none =>
    obtain ⟨number, hnumber, hfree⟩ := exists_candidate_not_mem taken name
    have htaken := List.find?_eq_none.mp hfind number hnumber
    rw [List.contains_eq_mem] at htaken
    simp [hfree] at htaken
  | some number =>
    obtain ⟨hfree, hrange, hbefore⟩ := List.find?_range_eq_some.mp hfind
    refine ⟨number, Nat.le_of_lt_succ (List.mem_range.mp hrange), ⟨?_, ?_⟩, rfl⟩
    · show candidate name number ∉ taken
      simpa using hfree
    · intro other hother
      by_contra hlt
      have htaken := hbefore other (Nat.lt_of_not_le hlt)
      exact hother (by simpa using htaken)

/-- A fresh name is not taken. -/
theorem freshName_not_mem (taken : List String) (name : String) :
    freshName taken name ∉ taken := by
  obtain ⟨number, -, hleast, hfresh⟩ := exists_isLeast_freshName taken name
  rw [hfresh]
  exact hleast.1

/-- The search for a name, from the candidate with a given number on: it ends at a candidate that is
free, and goes on from one that is taken. -/
inductive Searches (taken : List String) (name : String) : Nat → String → Prop
  | found {number : Nat} (hfree : candidate name number ∉ taken) :
      Searches taken name number (candidate name number)
  | next {number : Nat} {written : String} (htaken : candidate name number ∈ taken)
      (hrest : Searches taken name (number + 1) written) : Searches taken name number written

/-- The search ends with one name at most. -/
theorem Searches.unique {taken : List String} {name first second : String} {number : Nat}
    (h : Searches taken name number first) (h' : Searches taken name number second) :
    first = second := by
  induction h with
  | found hfree =>
    cases h' with
    | found => rfl
    | next htaken => exact (hfree htaken).elim
  | next htaken _ ih =>
    cases h' with
    | found hfree => exact (hfree htaken).elim
    | next _ hrest => exact ih hrest

/-- The search reaches the first candidate that is free, from every number up to it. -/
theorem searches_of_isLeast {taken : List String} {name : String} {first number : Nat}
    (hleast : IsLeast (freeNumbers taken name) first) (hle : number ≤ first) :
    Searches taken name number (candidate name first) := by
  -- Backwards from the first free number: every number before it is one step further away.
  induction hle using Nat.decreasingInduction with
  | self => exact .found hleast.1
  | of_succ earlier hlt ih =>
    refine .next ?_ ih
    by_contra hfree
    exact Nat.not_le_of_lt hlt (hleast.2 hfree)

/-- The search ends, and with the fresh name alone. -/
theorem searches_iff (taken : List String) (name written : String) :
    Searches taken name 0 written ↔ written = freshName taken name := by
  obtain ⟨number, -, hleast, hfresh⟩ := exists_isLeast_freshName taken name
  have hsearch := searches_of_isLeast hleast (Nat.zero_le number)
  rw [hfresh]
  constructor
  · exact fun h ↦ h.unique hsearch
  · rintro rfl
    exact hsearch

/-! ### Declaring a variable -/

/-- Some open block writes a name this way. -/
def Writes (emitter : Emitter) (written : String) : Prop :=
  ∃ block ∈ emitter.block :: emitter.outer, ∃ name, (name, written) ∈ block.entries

theorem mem_visible_iff (emitter : Emitter) (written : String) :
    written ∈ emitter.visible ↔ emitter.Writes written := by
  simp only [visible, Writes, Bindings.values, List.mem_flatMap, List.mem_map, Prod.exists,
    exists_eq_right]

/-- A variable is declared under the name `written`. The search for a name ends with it and no
other. It is the variable's own name if no open block writes that, and otherwise that name with the
least number from one on that no open block writes. What is new after it is how this variable is
written, and what its name is written as in the innermost block. -/
structure Declares (emitter : Emitter) (target : Variable) (written : String) (after : Emitter) :
    Prop where
  search : ∀ found, Searches emitter.visible target.name 0 found ↔ found = written
  own : ¬ emitter.Writes target.name → written = target.name
  numbered : emitter.Writes target.name → ∃ number ≤ emitter.visible.length,
    IsLeast {number | 1 ≤ number ∧ ¬ emitter.Writes (target.name ++ "_" ++ number.repr)} number ∧
      written = target.name ++ "_" ++ number.repr
  nameOf_self : after.nameOf target = written
  nameOf_other : ∀ other : Variable, other.id ≠ target.id →
    after.nameOf other = emitter.nameOf other
  lookup : after.block.get? = Function.update emitter.block.get? target.name (some written)
  entries : ∀ name text, (name, text) ∈ after.block.entries ↔
    name = target.name ∧ text = written ∨ name ≠ target.name ∧ (name, text) ∈ emitter.block.entries
  outer : after.outer = emitter.outer
  inFunction : after.inFunction = emitter.inFunction

/-- Where a name is taken, the first free candidate is the name with the least free number. -/
theorem isLeast_numbered {emitter : Emitter} {name : String} {number : Nat}
    (hwrites : emitter.Writes name)
    (hleast : IsLeast (freeNumbers emitter.visible name) number) :
    IsLeast {number | 1 ≤ number ∧ ¬ emitter.Writes (name ++ "_" ++ number.repr)} number ∧
      candidate name number = name ++ "_" ++ number.repr := by
  have hfree (other : Nat) :
      other + 1 ∈ freeNumbers emitter.visible name ↔
        ¬ emitter.Writes (name ++ "_" ++ (other + 1).repr) :=
    not_congr (mem_visible_iff emitter _)
  cases number with
  | zero => exact (hleast.1 ((mem_visible_iff emitter name).mpr hwrites)).elim
  | succ number =>
    refine ⟨⟨⟨Nat.succ_pos number, (hfree number).mp hleast.1⟩, ?_⟩, rfl⟩
    rintro other ⟨hpos, hother⟩
    obtain ⟨previous, rfl⟩ := Nat.exists_eq_succ_of_ne_zero (Nat.pos_iff_ne_zero.mp hpos)
    exact hleast.2 ((hfree previous).mpr hother)

theorem get?_block_declare (emitter : Emitter) (target : Variable) :
    (emitter.declare target).2.block.get? =
      Function.update emitter.block.get? target.name (some (emitter.declare target).1) := by
  funext name
  unfold declare
  rw [Bindings.get?_insert, Function.update_apply]
  simp only [beq_iff_eq]

/-- Declaring a variable takes the first free name for it, and changes nothing but how the variable
and its name in the innermost block are written. -/
theorem declare_takes_least_name (emitter : Emitter) (target : Variable) :
    Declares emitter target (emitter.declare target).1 (emitter.declare target).2 := by
  obtain ⟨number, hbound, hleast, hfresh⟩ :=
    exists_isLeast_freshName emitter.visible target.name
  constructor
  case search => exact searches_iff emitter.visible target.name
  case own =>
    intro hwrites
    have hzero : number ≤ 0 := hleast.2 (mt (mem_visible_iff emitter target.name).mp hwrites)
    obtain rfl := Nat.le_zero.mp hzero
    exact hfresh
  case numbered =>
    intro hwrites
    obtain ⟨hnumbered, hcandidate⟩ := isLeast_numbered hwrites hleast
    exact ⟨number, hbound, hnumbered, hfresh.trans hcandidate⟩
  case nameOf_self => simp [nameOf, declare, Bindings.get?_insert]
  case nameOf_other =>
    intro other hother
    simp [nameOf, declare, Bindings.get?_insert, hother]
  case lookup => exact get?_block_declare emitter target
  case entries =>
    intro name text
    simp only [declare, Bindings.insert, List.mem_cons, List.mem_filter, Prod.mk.injEq]
    simp [and_comm]
  case outer => rfl
  case inFunction => rfl

end Presage.Emitter
