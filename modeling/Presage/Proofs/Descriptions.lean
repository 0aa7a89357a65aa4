import Mathlib.Data.List.Nodup
import Presage.Proofs.Assignability

/-!
Descriptions tell types apart. A type is `Plain` if it is made of the simple types, arrays and
functions. Plain types are equivalent only if they are equal (`Plain.eq_of_equivalent`), and their
descriptions can be read in one way (`Plain.splits`): where two texts start with a description and
are equal, the types are the same and so is what follows.

No look ahead is needed for this. The first character of a description, its `mark`, tells the simple
types from one another and from arrays and functions, and a parameter list goes on after a comma and
ends with a parenthesis, neither of which starts a description.
-/

set_option autoImplicit false
set_option relaxedAutoImplicit false

namespace Presage

namespace Ty

/-! ### Plain types -/

/-- The types that have no parts and no identity. -/
def simpleTypes : List Ty := [int, float, string, boolean, void, any]

/-- Made of the simple types, arrays and functions. -/
inductive Plain : Ty → Prop
  | simple {type : Ty} (hsimple : type ∈ simpleTypes) : Plain type
  | array {element : Ty} (helement : Plain element) : Plain (.array element)
  | function {parameters : List Ty} {result : Ty}
      (hparameters : ∀ parameter ∈ parameters, Plain parameter) (hresult : Plain result) :
      Plain (.function parameters result)

theorem parts_of_mem_simpleTypes {type : Ty} (h : type ∈ simpleTypes) : type.parts = [] := by
  have hparts : ∀ type ∈ simpleTypes, type.parts = [] := by simp [simpleTypes, parts]
  exact hparts type h

theorem Plain.eq_of_equivalent {first second : Ty} (hplain : Plain first)
    (h : equivalent first second = true) : first = second := by
  induction hplain generalizing second with
  | simple hsimple =>
    cases rule_of_equivalent h with
    | simple => rfl
    | struct => simp [simpleTypes] at hsimple
    | function | array | optional => cases parts_of_mem_simpleTypes hsimple
  | array _ ih =>
    cases rule_of_equivalent h with
    | simple => rfl
    | array helement => rw [ih helement]
  | function _ _ ihparameters ihresult =>
    cases rule_of_equivalent h with
    | simple => rfl
    | function =>
      obtain ⟨hresult, hlength, hparameters⟩ := equivalent_function_iff.mp h
      rw [ihresult hresult]
      congr 1
      refine List.ext_getElem hlength fun index hindex hindex' ↦ ?_
      exact ihparameters _ (List.getElem_mem hindex) (hparameters index hindex hindex')

/-! ### Unique reading -/

/-- The character that a description starts with. -/
def mark (type : Ty) : Option Char := type.describe.toList.head?

@[simp] theorem mark_array (element : Ty) : mark (array element) = some '[' := by
  simp [mark, describe]

@[simp] theorem mark_function (parameters : List Ty) (result : Ty) :
    mark (function parameters result) = some '(' := by
  simp [mark, describe]

/-- Simple types are told apart by their first letters. -/
theorem eq_of_mark_eq {first second : Ty} (hfirst : first ∈ simpleTypes)
    (hsecond : second ∈ simpleTypes) (h : mark first = mark second) : first = second := by
  have hnodup : (simpleTypes.map mark).Nodup := by decide +kernel
  exact List.inj_on_of_nodup_map hnodup hfirst hsecond h

/-- A simple type starts with a letter, not with a bracket. -/
theorem mark_simple {type : Ty} (h : type ∈ simpleTypes) :
    mark type ∉ [none, some ')', some '(', some '['] := by
  have hmarks : ∀ type ∈ simpleTypes, mark type ∉ [none, some ')', some '(', some '['] := by
    simp [simpleTypes, mark, describe]
  exact hmarks type h

theorem Plain.mark_ne {type : Ty} (h : Plain type) :
    mark type ≠ none ∧ mark type ≠ some ')' := by
  cases h with
  | simple hsimple =>
    have hmark := mark_simple hsimple
    simp only [List.mem_cons, not_or] at hmark
    exact ⟨hmark.1, hmark.2.1⟩
  | array | function => simp

/-- Texts that start with descriptions start with their marks. -/
theorem Plain.head?_append {type : Ty} (h : Plain type) (rest : List Char) :
    (type.describe.toList ++ rest).head? = mark type := by
  rw [List.head?_append, Option.or_of_isSome]
  · rfl
  · exact Option.isSome_iff_ne_none.mpr h.mark_ne.1

/-- A description at the head of a text can be split off in one way. -/
def Splits (type : Ty) : Prop :=
  ∀ other, Plain other → ∀ rest rest' : List Char,
    type.describe.toList ++ rest = other.describe.toList ++ rest' → type = other ∧ rest = rest'

/-- Further parameters, each after a comma. -/
def listed (parameters : List Ty) : List Char :=
  parameters.flatMap fun parameter ↦ ',' :: ' ' :: parameter.describe.toList

theorem toList_intercalate (first : Ty) (rest : List Ty) :
    (", ".intercalate (describeAll (first :: rest))).toList =
      first.describe.toList ++ listed rest := by
  induction rest generalizing first with
  | nil => simp [describeAll, listed]
  | cons second rest ih =>
    rw [describeAll, describeAll, String.intercalate_cons_cons, ← describeAll]
    simp only [String.toList_append, ih second]
    simp [listed]

theorem toList_describe_function (parameters : List Ty) (result : Ty) (rest : List Char) :
    (function parameters result).describe.toList ++ rest =
      '(' :: ((", ".intercalate (describeAll parameters)).toList ++
        ')' :: '-' :: '>' :: (result.describe.toList ++ rest)) := by
  simp [describe]

theorem listed_of_append {first second : List Ty} {rest rest' : List Char}
    (hfirst : ∀ type ∈ first, Splits type) (hsecond : ∀ type ∈ second, Plain type)
    (h : listed first ++ ')' :: rest = listed second ++ ')' :: rest') :
    first = second ∧ rest = rest' := by
  induction first generalizing second with
  | nil =>
    cases second with
    | nil => simpa [listed] using h
    | cons => simp [listed] at h
  | cons type first ih =>
    cases second with
    | nil => simp [listed] at h
    | cons other second =>
      obtain ⟨htype, htypes⟩ := List.forall_mem_cons.mp hfirst
      obtain ⟨hother, hothers⟩ := List.forall_mem_cons.mp hsecond
      have htail : type.describe.toList ++ (listed first ++ ')' :: rest) =
          other.describe.toList ++ (listed second ++ ')' :: rest') := by
        simpa [listed] using h
      obtain ⟨rfl, hlisted⟩ := htype other hother _ _ htail
      obtain ⟨rfl, hrest⟩ := ih htypes hothers hlisted
      exact ⟨rfl, hrest⟩

/-- Parameters between parentheses can be read in one way. -/
theorem parameters_of_append {first second : List Ty} {rest rest' : List Char}
    (hplain : ∀ type ∈ first, Plain type) (hfirst : ∀ type ∈ first, Splits type)
    (hsecond : ∀ type ∈ second, Plain type)
    (h : (", ".intercalate (describeAll first)).toList ++ ')' :: rest =
      (", ".intercalate (describeAll second)).toList ++ ')' :: rest') :
    first = second ∧ rest = rest' := by
  have hhead (type : Ty) (types : List Ty) (htype : Plain type) (tail : List Char) :
      ((", ".intercalate (describeAll (type :: types))).toList ++ tail).head? ≠ some ')' := by
    rw [toList_intercalate, List.append_assoc, htype.head?_append]
    exact htype.mark_ne.2
  cases first with
  | nil =>
    cases second with
    | nil => simpa using h
    | cons other second =>
      refine (hhead other second (hsecond other List.mem_cons_self) (')' :: rest') ?_).elim
      rw [← h]
      rfl
  | cons type first =>
    cases second with
    | nil =>
      refine (hhead type first (hplain type List.mem_cons_self) (')' :: rest) ?_).elim
      rw [h]
      rfl
    | cons other second =>
      rw [toList_intercalate, toList_intercalate, List.append_assoc, List.append_assoc] at h
      obtain ⟨htype, htypes⟩ := List.forall_mem_cons.mp hfirst
      obtain ⟨hother, hothers⟩ := List.forall_mem_cons.mp hsecond
      obtain ⟨rfl, hlisted⟩ := htype other hother _ _ h
      obtain ⟨rfl, hrest⟩ := listed_of_append htypes hothers hlisted
      exact ⟨rfl, hrest⟩

/-- Texts that start with descriptions and are equal start with the same mark. -/
theorem Plain.mark_eq {first second : Ty} (hfirst : Plain first) (hsecond : Plain second)
    {rest rest' : List Char}
    (h : first.describe.toList ++ rest = second.describe.toList ++ rest') :
    mark first = mark second := by
  rw [← hfirst.head?_append rest, h, hsecond.head?_append]

/-- Plain types can be read off the head of a text in one way. The first character tells simple
types, arrays and functions apart. -/
theorem Plain.splits {type : Ty} (h : Plain type) : Splits type := by
  induction h with
  | simple hsimple =>
    intro other hother rest rest' heq
    have hmark := (Plain.simple hsimple).mark_eq hother heq
    cases hother with
    | simple hother =>
      obtain rfl := eq_of_mark_eq hsimple hother hmark
      exact ⟨rfl, List.append_cancel_left heq⟩
    | array | function =>
      refine (mark_simple hsimple ?_).elim
      simp [hmark]
  | @array element helement ih =>
    intro other hother rest rest' heq
    have hmark := (Plain.array helement).mark_eq hother heq
    cases hother with
    | simple hother =>
      refine (mark_simple hother ?_).elim
      simp [← hmark]
    | @array element' helement' =>
      have htail : element.describe.toList ++ ']' :: rest =
          element'.describe.toList ++ ']' :: rest' := by
        simpa [describe] using heq
      obtain ⟨rfl, hrest⟩ := ih element' helement' _ _ htail
      exact ⟨rfl, List.tail_eq_of_cons_eq hrest⟩
    | function => simp at hmark
  | @function parameters result hparameters hresult ihparameters ihresult =>
    intro other hother rest rest' heq
    have hmark := (Plain.function hparameters hresult).mark_eq hother heq
    cases hother with
    | simple hother =>
      refine (mark_simple hother ?_).elim
      simp [← hmark]
    | array => simp at hmark
    | @function parameters' result' hparameters' hresult' =>
      rw [toList_describe_function, toList_describe_function] at heq
      obtain ⟨rfl, harrow⟩ := parameters_of_append hparameters ihparameters hparameters'
        (List.tail_eq_of_cons_eq heq)
      simp only [List.cons.injEq, true_and] at harrow
      obtain ⟨rfl, hrest⟩ := ihresult result' hresult' _ _ harrow
      exact ⟨rfl, hrest⟩

/-- Plain types have the same description exactly if they are equivalent. -/
theorem describe_eq_iff {first second : Ty} (hfirst : Plain first) (hsecond : Plain second) :
    first.describe = second.describe ↔ first.equivalent second = true := by
  constructor
  · intro h
    obtain ⟨rfl, -⟩ := hfirst.splits second hsecond [] [] (by rw [h])
    exact equivalent_refl first
  · intro h
    rw [hfirst.eq_of_equivalent h]

end Ty

end Presage
