import Mathlib.Data.List.Forall2
import Presage.Ty

/-!
Assignability orders the types. Two types are equivalent exactly when each is assignable to the
other, and up to equivalence assignability is a partial order with `any` as its greatest element.

`fits` carries a variance because a function type exchanges the roles of its parameters.
`fits_flip` removes it: to exchange the roles is to exchange the types. With that,
`assignable_function_iff` reads function types as they are meant, and the laws follow by induction
on one type. For transitivity this is the type in the middle, which stays in the middle when the
other two are exchanged.
-/

set_option autoImplicit false
set_option relaxedAutoImplicit false

namespace Presage.Ty

/-! ### Parts of a type -/

/-- The types that a type is made of. -/
def parts : Ty → List Ty
  | function parameters result => result :: parameters
  | array element | optional element => [element]
  | _ => []

theorem sizeOf_lt_of_mem_parts {type part : Ty} (h : part ∈ type.parts) :
    sizeOf part < sizeOf type := by
  have hlist : ∀ types : List Ty, part ∈ types → sizeOf part < sizeOf types :=
    fun _ ↦ List.sizeOf_lt_of_mem
  cases type <;> grind [parts]

/-- Induction on a type by the types it is made of. -/
theorem parts_induction {motive : Ty → Prop}
    (step : ∀ type, (∀ part ∈ type.parts, motive part) → motive type) (type : Ty) : motive type :=
  step type fun part _ ↦ parts_induction step part
termination_by sizeOf type
decreasing_by exact sizeOf_lt_of_mem_parts ‹_›

theorem result_mem_parts (parameters : List Ty) (result : Ty) :
    result ∈ (function parameters result).parts :=
  List.mem_cons_self

theorem getElem_mem_parts {parameters : List Ty} (result : Ty) {index : Nat}
    (h : index < parameters.length) : parameters[index] ∈ (function parameters result).parts :=
  List.mem_cons_of_mem result (List.getElem_mem h)

/-! ### Equivalence -/

theorem equivalentAll_iff {first second : List Ty} :
    equivalentAll first second = true ↔
      first.length = second.length ∧ ∀ index (h : index < first.length)
        (h' : index < second.length), equivalent first[index] second[index] = true := by
  have hforall : equivalentAll first second = true ↔
      List.Forall₂ (fun type type' ↦ equivalent type type' = true) first second := by
    induction first generalizing second with
    | nil => cases second <;> simp [equivalentAll]
    | cons type rest ih => cases second <;> simp [equivalentAll, ih]
  rw [hforall, List.forall₂_iff_get]
  rfl

theorem equivalent_function_iff {parameters parameters' : List Ty} {result result' : Ty} :
    equivalent (function parameters result) (function parameters' result') = true ↔
      equivalent result result' = true ∧ parameters.length = parameters'.length ∧
        ∀ index (h : index < parameters.length) (h' : index < parameters'.length),
          equivalent parameters[index] parameters'[index] = true := by
  rw [equivalent, Bool.and_eq_true, equivalentAll_iff]

/-- The ways in which two types are equivalent. -/
inductive EquivalenceRule : Ty → Ty → Prop
  | simple {type : Ty} (hparts : type.parts = []) : EquivalenceRule type type
  | struct {first second : StructType} (hid : first.id = second.id) :
      EquivalenceRule (.struct first) (.struct second)
  | function {parameters parameters' : List Ty} {result result' : Ty} :
      EquivalenceRule (.function parameters result) (.function parameters' result')
  | array {element element' : Ty} (helement : equivalent element element' = true) :
      EquivalenceRule (.array element) (.array element')
  | optional {element element' : Ty} (helement : equivalent element element' = true) :
      EquivalenceRule (.optional element) (.optional element')

theorem rule_of_equivalent {first second : Ty} (h : equivalent first second = true) :
    EquivalenceRule first second := by
  rw [equivalent.eq_def] at h
  split at h
  case h_7 => exact .struct (eq_of_beq h)
  case h_8 => exact .function
  case h_9 => exact .array h
  case h_10 => exact .optional h
  case h_11 => cases h
  all_goals exact .simple rfl

/-- Only functions are equivalent to functions. -/
theorem exists_function_of_equivalent {type : Ty} {parameters : List Ty} {result : Ty}
    (h : equivalent type (function parameters result) = true) :
    ∃ parameters' result', type = function parameters' result' := by
  cases rule_of_equivalent h with
  | simple => exact ⟨parameters, result, rfl⟩
  | function => exact ⟨_, _, rfl⟩

theorem equivalent_any_iff {type : Ty} : equivalent type any = true ↔ type = any := by
  constructor
  · intro h
    cases rule_of_equivalent h with
    | simple => rfl
  · rintro rfl
    rfl

theorem equivalent_refl (type : Ty) : equivalent type type = true := by
  induction type using parts_induction with
  | step type ih =>
    cases type with
    | function parameters result =>
      refine equivalent_function_iff.mpr ⟨ih result (result_mem_parts _ _), rfl, fun _ h _ ↦ ?_⟩
      exact ih _ (getElem_mem_parts result h)
    | array element | optional element =>
      rw [equivalent]
      exact ih element (List.mem_singleton_self element)
    | _ => simp [equivalent]

theorem equivalent_symm {first second : Ty} (h : equivalent first second = true) :
    equivalent second first = true := by
  induction first using parts_induction generalizing second with
  | step first ih =>
    cases rule_of_equivalent h with
    | simple => exact h
    | struct hid =>
      rw [equivalent, hid]
      exact beq_self_eq_true _
    | function =>
      obtain ⟨hresult, hlength, hparameters⟩ := equivalent_function_iff.mp h
      refine equivalent_function_iff.mpr
        ⟨ih _ (result_mem_parts _ _) hresult, hlength.symm, fun index h' hindex ↦ ?_⟩
      exact ih _ (getElem_mem_parts _ hindex) (hparameters index hindex h')
    | array helement | optional helement =>
      rw [equivalent]
      exact ih _ (List.mem_singleton_self _) helement

theorem equivalent_comm (first second : Ty) : equivalent first second = equivalent second first :=
  Bool.eq_iff_iff.mpr ⟨equivalent_symm, equivalent_symm⟩

theorem equivalent_trans {first second third : Ty} (h : equivalent first second = true)
    (h' : equivalent second third = true) : equivalent first third = true := by
  induction second using parts_induction generalizing first third with
  | step second ih =>
    cases rule_of_equivalent h with
    | simple => exact h'
    | struct hid =>
      cases rule_of_equivalent h' with
      | simple => exact h
      | struct hid' =>
        rw [equivalent, hid, hid']
        exact beq_self_eq_true _
    | function =>
      obtain ⟨parameters₂, result₂, rfl⟩ := exists_function_of_equivalent (equivalent_symm h')
      obtain ⟨hresult, hlength, hparameters⟩ := equivalent_function_iff.mp h
      obtain ⟨hresult', hlength', hparameters'⟩ := equivalent_function_iff.mp h'
      refine equivalent_function_iff.mpr ⟨ih _ (result_mem_parts _ _) hresult hresult',
        hlength.trans hlength', fun index h₁ h₂ ↦ ?_⟩
      have hindex := hlength ▸ h₁
      exact ih _ (getElem_mem_parts _ hindex) (hparameters index h₁ hindex)
        (hparameters' index hindex h₂)
    | array helement =>
      cases rule_of_equivalent h' with
      | simple => exact h
      | array helement' =>
        rw [equivalent]
        exact ih _ (List.mem_singleton_self _) helement helement'
    | optional helement =>
      cases rule_of_equivalent h' with
      | simple => exact h
      | optional helement' =>
        rw [equivalent]
        exact ih _ (List.mem_singleton_self _) helement helement'

/-! ### Assignability -/

theorem isAny_iff {type : Ty} : type.isAny = true ↔ type = any := by
  cases type <;> simp [isAny]

theorem Variance.expected_flip (variance : Variance) (first second : Ty) :
    variance.flip.expected first second = variance.expected second first := by
  cases variance <;> rfl

theorem fitsAll_iff {variance : Variance} {first second : List Ty} :
    fitsAll variance first second = true ↔
      first.length = second.length ∧ ∀ index (h : index < first.length)
        (h' : index < second.length), fits variance first[index] second[index] = true := by
  have hforall : fitsAll variance first second = true ↔
      List.Forall₂ (fun type type' ↦ fits variance type type' = true) first second := by
    induction first generalizing second with
    | nil => cases second <;> simp [fitsAll]
    | cons type rest ih => cases second <;> simp [fitsAll, ih]
  rw [hforall, List.forall₂_iff_get]
  rfl

theorem fits_iff {variance : Variance} {first second : Ty} :
    fits variance first second = true ↔
      variance.expected first second = any ∨ equivalent first second = true ∨
        ∃ parameters result parameters' result', first = function parameters result ∧
          second = function parameters' result' ∧ fits variance result result' = true ∧
          fitsAll variance.flip parameters parameters' = true := by
  rw [fits.eq_def, Bool.or_eq_true, Bool.or_eq_true, isAny_iff, or_assoc]
  refine or_congr_right (or_congr_right ?_)
  split
  · next parameters result parameters' result' =>
    rw [Bool.and_eq_true]
    constructor
    · exact fun h ↦ ⟨parameters, result, parameters', result', rfl, rfl, h⟩
    · rintro ⟨_, _, _, _, hfirst, hsecond, h⟩
      cases hfirst
      cases hsecond
      exact h
  · next hother =>
    refine ⟨fun h ↦ absurd h Bool.false_ne_true, ?_⟩
    rintro ⟨parameters, result, parameters', result', rfl, rfl, -⟩
    exact (hother parameters result parameters' result' rfl rfl).elim

/-- To exchange the roles of two types is to exchange the types. -/
theorem fits_flip (variance : Variance) (first second : Ty) :
    fits variance.flip first second = fits variance second first := by
  induction first using parts_induction generalizing variance second with
  | step first ih =>
    rw [Bool.eq_iff_iff, fits_iff, fits_iff, Variance.expected_flip, equivalent_comm]
    refine or_congr_right (or_congr_right ?_)
    constructor
    · rintro ⟨parameters, result, parameters', result', rfl, rfl, hresult, hparameters⟩
      rw [ih result (result_mem_parts _ _)] at hresult
      refine ⟨parameters', result', parameters, result, rfl, rfl, hresult, ?_⟩
      rw [fitsAll_iff] at hparameters ⊢
      refine ⟨hparameters.1.symm, fun index h' h ↦ ?_⟩
      rw [← ih _ (getElem_mem_parts result h)]
      exact hparameters.2 index h h'
    · rintro ⟨parameters', result', parameters, result, rfl, rfl, hresult, hparameters⟩
      rw [← ih result (result_mem_parts _ _)] at hresult
      refine ⟨parameters, result, parameters', result', rfl, rfl, hresult, ?_⟩
      rw [fitsAll_iff] at hparameters ⊢
      refine ⟨hparameters.1.symm, fun index h h' ↦ ?_⟩
      rw [ih _ (getElem_mem_parts result h)]
      exact hparameters.2 index h' h

theorem assignable_of_equivalent {source target : Ty} (h : equivalent source target = true) :
    assignable source target = true :=
  fits_iff.mpr (Or.inr (Or.inl h))

theorem assignable_any (source : Ty) : assignable source any = true := fits_iff.mpr (Or.inl rfl)

/-- A type may stand for `any`, a function for a function, and all else for what is equivalent. -/
theorem assignable_cases {source target : Ty} (h : assignable source target = true) :
    target = any ∨
      (∃ parameters result parameters' result', source = function parameters result ∧
        target = function parameters' result') ∨
      equivalent source target = true ∧
        ∀ parameters result, source ≠ function parameters result := by
  rcases fits_iff.mp h with hany | hequivalent | ⟨_, _, _, _, hsource, htarget, -⟩
  · exact Or.inl hany
  · by_cases hfunction : ∃ parameters result, source = function parameters result
    · obtain ⟨parameters, result, rfl⟩ := hfunction
      obtain ⟨_, _, htarget⟩ := exists_function_of_equivalent (equivalent_symm hequivalent)
      exact Or.inr (Or.inl ⟨_, _, _, _, rfl, htarget⟩)
    · push Not at hfunction
      exact Or.inr (Or.inr ⟨hequivalent, hfunction⟩)
  · exact Or.inr (Or.inl ⟨_, _, _, _, hsource, htarget⟩)

/-- A function may stand for another if its result may, and each of the other's parameters may stand
for its own. The test for equivalence allows nothing more. -/
theorem assignable_function_iff {parameters parameters' : List Ty} {result result' : Ty} :
    assignable (function parameters result) (function parameters' result') = true ↔
      parameters.length = parameters'.length ∧ assignable result result' = true ∧
        ∀ index (h : index < parameters.length) (h' : index < parameters'.length),
          assignable parameters'[index] parameters[index] = true := by
  have hflip (first second : Ty) :
      fits Variance.covariant.flip first second = assignable second first :=
    fits_flip .covariant first second
  constructor
  · intro h
    rcases fits_iff.mp h with hany | hequivalent | ⟨_, _, _, _, hsource, htarget, hresult, hall⟩
    · cases hany
    · obtain ⟨hresult, hlength, hall⟩ := equivalent_function_iff.mp hequivalent
      refine ⟨hlength, assignable_of_equivalent hresult, fun index h h' ↦ ?_⟩
      exact assignable_of_equivalent (equivalent_symm (hall index h h'))
    · cases hsource
      cases htarget
      obtain ⟨hlength, hall⟩ := fitsAll_iff.mp hall
      exact ⟨hlength, hresult, fun index h h' ↦ hflip _ _ ▸ hall index h h'⟩
  · rintro ⟨hlength, hresult, hall⟩
    refine fits_iff.mpr (Or.inr (Or.inr ⟨_, _, _, _, rfl, rfl, hresult, fitsAll_iff.mpr ?_⟩))
    exact ⟨hlength, fun index h h' ↦ (hflip _ _).symm ▸ hall index h h'⟩

theorem any_assignable_iff {target : Ty} : assignable any target = true ↔ target = any := by
  constructor
  · intro h
    rcases assignable_cases h with hany | ⟨_, _, _, _, hsource, -⟩ | ⟨hequivalent, -⟩
    · exact hany
    · cases hsource
    · exact equivalent_any_iff.mp (equivalent_symm hequivalent)
  · rintro rfl
    exact assignable_any any

theorem assignable_refl (type : Ty) : assignable type type = true :=
  assignable_of_equivalent (equivalent_refl type)

theorem assignable_trans {source middle target : Ty} (h : assignable source middle = true)
    (h' : assignable middle target = true) : assignable source target = true := by
  induction middle using parts_induction generalizing source target with
  | step middle ih =>
    rcases assignable_cases h' with
      rfl | ⟨parameters, result, parameters₂, result₂, rfl, rfl⟩ | ⟨hequivalent', hmiddle⟩
    · exact assignable_any source
    · -- Only functions stand for functions. The parameters go the other way round.
      rcases assignable_cases h with
        hany | ⟨parameters₁, result₁, _, _, rfl, -⟩ | ⟨hequivalent, hsource⟩
      · cases hany
      · obtain ⟨hlength, hresult, hall⟩ := assignable_function_iff.mp h
        obtain ⟨hlength', hresult', hall'⟩ := assignable_function_iff.mp h'
        refine assignable_function_iff.mpr ⟨hlength.trans hlength',
          ih result (result_mem_parts _ _) hresult hresult', fun index h₁ h₂ ↦ ?_⟩
        have hindex : index < parameters.length := hlength ▸ h₁
        exact ih _ (getElem_mem_parts result hindex) (hall' index hindex h₂) (hall index h₁ hindex)
      · obtain ⟨_, _, hfunction⟩ := exists_function_of_equivalent hequivalent
        exact (hsource _ _ hfunction).elim
    · rcases assignable_cases h with rfl | ⟨_, _, _, _, -, hfunction⟩ | ⟨hequivalent, -⟩
      · rw [any_assignable_iff.mp h']
        exact assignable_any source
      · exact (hmiddle _ _ hfunction).elim
      · exact assignable_of_equivalent (equivalent_trans hequivalent hequivalent')

/-- Types that may stand for each other are equivalent. -/
theorem equivalent_of_assignable {first second : Ty} (h : assignable first second = true)
    (h' : assignable second first = true) : equivalent first second = true := by
  induction first using parts_induction generalizing second with
  | step first ih =>
    rcases assignable_cases h with
      rfl | ⟨parameters, result, parameters', result', rfl, rfl⟩ | ⟨hequivalent, -⟩
    · rw [any_assignable_iff.mp h']
      exact equivalent_refl any
    · obtain ⟨hlength, hresult, hall⟩ := assignable_function_iff.mp h
      obtain ⟨-, hresult', hall'⟩ := assignable_function_iff.mp h'
      refine equivalent_function_iff.mpr ⟨ih result (result_mem_parts _ _) hresult hresult',
        hlength, fun index hindex hindex' ↦ ?_⟩
      exact ih _ (getElem_mem_parts result hindex) (hall' index hindex' hindex)
        (hall index hindex hindex')
    · exact hequivalent

/-- Equivalent types may stand for the same types, and the same types for them. -/
theorem assignable_congr {source source' target target' : Ty}
    (hsource : equivalent source source' = true) (htarget : equivalent target target' = true) :
    assignable source target = assignable source' target' := by
  rw [Bool.eq_iff_iff]
  constructor
  · intro h
    exact assignable_trans (assignable_of_equivalent (equivalent_symm hsource))
      (assignable_trans h (assignable_of_equivalent htarget))
  · intro h
    exact assignable_trans (assignable_of_equivalent hsource)
      (assignable_trans h (assignable_of_equivalent (equivalent_symm htarget)))

/-- Equivalence is an equivalence relation, which tells struct types apart by identity.
Assignability is reflexive and transitive, types that are assignable to each other are exactly the
equivalent ones, and equivalent types can be exchanged on either side. The type `any` is above all
others and below none. A function type is assignable to another exactly if they have one arity, the
result is assignable to the result, and every parameter of the other to the one at its index. -/
theorem assignable_orders_types :
    ((∀ type : Ty, type.equivalent type = true) ∧
      (∀ first second : Ty, first.equivalent second = true → second.equivalent first = true) ∧
      (∀ first second third : Ty, first.equivalent second = true →
        second.equivalent third = true → first.equivalent third = true) ∧
      ∀ first second : StructType,
        (struct first).equivalent (struct second) = true ↔ first.id = second.id) ∧
    ((∀ type : Ty, type.assignable type = true) ∧
      (∀ source middle target : Ty, source.assignable middle = true →
        middle.assignable target = true → source.assignable target = true) ∧
      (∀ first second : Ty, first.assignable second = true ∧ second.assignable first = true ↔
        first.equivalent second = true) ∧
      ∀ source source' target target' : Ty, source.equivalent source' = true →
        target.equivalent target' = true →
          source.assignable target = source'.assignable target') ∧
    ((∀ source : Ty, source.assignable any = true) ∧
      ∀ target : Ty, any.assignable target = true ↔ target = any) ∧
    ∀ (parameters parameters' : List Ty) (result result' : Ty),
      (function parameters result).assignable (function parameters' result') = true ↔
        parameters.length = parameters'.length ∧ result.assignable result' = true ∧
          ∀ index (h : index < parameters.length) (h' : index < parameters'.length),
            parameters'[index].assignable parameters[index] = true := by
  refine ⟨⟨equivalent_refl, fun _ _ ↦ equivalent_symm, fun _ _ _ ↦ equivalent_trans, ?_⟩,
    ⟨assignable_refl, fun _ _ _ ↦ assignable_trans, fun first second ↦ ⟨?_, ?_⟩,
      fun _ _ _ _ ↦ assignable_congr⟩,
    ⟨assignable_any, fun _ ↦ any_assignable_iff⟩, fun _ _ _ _ ↦ assignable_function_iff⟩
  · intro first second
    rw [equivalent, beq_iff_eq]
  · rintro ⟨h, h'⟩
    exact equivalent_of_assignable h h'
  · intro h
    exact ⟨assignable_of_equivalent h, assignable_of_equivalent (equivalent_symm h)⟩

end Presage.Ty
