import Mathlib
import Presage.Proofs.Evaluation
import Presage.Proofs.Lockstep

/-!
Folding beside the arithmetic of a script. The numbers of a script hold the integers of at most 53
significant bits (`Script.Representable`), and a literal or the result of an operation is rounded to
the nearest of these, of two to the even one. `Script.rounded` computes this number, and
`Script.isNearest_rounded` says that it is the one described.

Folding computes with integers of 64 bits and rounds only the literal that is left. The two agree
where the operands of a folded operation are represented exactly, whatever the result is
(`Expr.number?_fold`), and so a script prints the same number whether the program was folded or not
(`folding_keeps_numbers`). Beyond the integers of 53 bits they differ
(`folding_changes_printed_number`).
-/

set_option autoImplicit false
set_option relaxedAutoImplicit false

namespace Presage

namespace Script

/-! ### Integers that a number holds -/

/-- The integer has at most 53 significant bits. -/
def Representable (value : Int) : Prop :=
  ∃ (significand : Int) (exponent : Nat),
    significand.natAbs < 2 ^ 53 ∧ value = significand * 2 ^ exponent

/-- The distance of the numbers around a magnitude. -/
def spacing (magnitude : Nat) : Nat := 2 ^ (magnitude.log2 + 1 - 53)

/-- The multiple of `unit` that is nearest to a magnitude, and of two the even one. -/
def nearestMultiple (unit magnitude : Nat) : Nat :=
  if 2 * (magnitude % unit) < unit ∨ 2 * (magnitude % unit) = unit ∧ magnitude / unit % 2 = 0 then
    magnitude / unit * unit
  else (magnitude / unit + 1) * unit

/-- The number that an integer is rounded to. -/
def rounded : Int → Int
  | .ofNat magnitude => nearestMultiple (spacing magnitude) magnitude
  | .negSucc magnitude => -nearestMultiple (spacing (magnitude + 1)) (magnitude + 1)

/-- Of the integers with at most 53 significant bits, `number` is the nearest to `value`, and if
there is another as near, `number` is an even multiple of their distance. -/
structure IsNearest (value number : Int) : Prop where
  representable : Representable number
  le : ∀ other, Representable other → (value - number).natAbs ≤ (value - other).natAbs
  even : ∀ other, Representable other → (value - other).natAbs = (value - number).natAbs →
    other ≠ number → 2 * (other - number) ∣ number

theorem Representable.neg {value : Int} (h : Representable value) : Representable (-value) := by
  obtain ⟨significand, exponent, hlt, rfl⟩ := h
  exact ⟨-significand, exponent, by omega, (neg_mul _ _).symm⟩

/-- Small integers are multiples of one. -/
theorem representable_of_natAbs_lt {value : Int} (h : value.natAbs < 2 ^ 53) :
    Representable value :=
  ⟨value, 0, h, (mul_one value).symm⟩

theorem representable_mul_pow {multiple : Nat} (h : multiple ≤ 2 ^ 53) (exponent : Nat) :
    Representable (multiple * 2 ^ exponent : Nat) := by
  rcases Nat.lt_or_eq_of_le h with hlt | rfl
  · exact ⟨multiple, exponent, hlt, by push_cast; rfl⟩
  · exact ⟨2 ^ 52, exponent + 1, by decide, by push_cast; ring⟩

theorem spacing_pos (magnitude : Nat) : 0 < spacing magnitude := Nat.two_pow_pos _

/-- A magnitude is less than `2 ^ 53` times the distance of the numbers around it. -/
theorem div_spacing_lt (magnitude : Nat) : magnitude / spacing magnitude < 2 ^ 53 := by
  refine Nat.div_lt_of_lt_mul ?_
  calc magnitude < 2 ^ (magnitude.log2 + 1) := Nat.lt_log2_self
    _ ≤ 2 ^ (magnitude.log2 + 1 - 53 + 53) := Nat.pow_le_pow_right Nat.two_pos (by omega)
    _ = spacing magnitude * 2 ^ 53 := Nat.pow_add 2 _ 53

/-- Between the multiples around a magnitude there is no number. -/
theorem Representable.le_or_le {other : Int} (h : Representable other) (magnitude : Nat) :
    other ≤ (magnitude / spacing magnitude * spacing magnitude : Nat) ∨
      ((magnitude / spacing magnitude + 1) * spacing magnitude : Nat) ≤ other := by
  obtain ⟨significand, exponent, hlt, rfl⟩ := h
  by_cases hexponent : magnitude.log2 + 1 - 53 ≤ exponent
  · -- The number is itself a multiple of the distance.
    obtain ⟨more, rfl⟩ := Nat.exists_eq_add_of_le hexponent
    have hunit : (0 : Int) ≤ spacing magnitude := Int.natCast_nonneg _
    have hmultiple : significand * 2 ^ (magnitude.log2 + 1 - 53 + more) =
        significand * 2 ^ more * spacing magnitude := by
      rw [spacing, pow_add]
      push_cast
      ring
    rw [hmultiple]
    push_cast
    rcases lt_or_ge (magnitude / spacing magnitude : Int) (significand * 2 ^ more) with
      habove | hbelow
    · exact Or.inr (Int.mul_le_mul_of_nonneg_right habove hunit)
    · exact Or.inl (Int.mul_le_mul_of_nonneg_right hbelow hunit)
  · -- The number has a smaller unit, and then it is smaller than all of this magnitude.
    left
    have hlog : magnitude.log2 = 52 + (magnitude.log2 + 1 - 53) := by omega
    have hnonzero : magnitude ≠ 0 := by
      rintro rfl
      exact absurd hlog (by decide)
    have hlarge : 2 ^ 52 * spacing magnitude ≤ magnitude := by
      rw [spacing, ← Nat.pow_add, ← hlog]
      exact Nat.log2_self_le hnonzero
    have hquotient : 2 ^ 52 ≤ magnitude / spacing magnitude :=
      (Nat.le_div_iff_mul_le (spacing_pos magnitude)).mpr hlarge
    have hsmall : (significand * 2 ^ exponent).natAbs ≤ 2 ^ 52 * spacing magnitude := by
      rw [Int.natAbs_mul, Int.natAbs_pow]
      calc significand.natAbs * 2 ^ exponent ≤ 2 ^ 53 * 2 ^ exponent :=
            Nat.mul_le_mul_right _ hlt.le
        _ = 2 ^ 52 * 2 ^ (exponent + 1) := by ring
        _ ≤ 2 ^ 52 * spacing magnitude :=
            Nat.mul_le_mul_left _ (Nat.pow_le_pow_right Nat.two_pos (by omega))
    have hle := hsmall.trans (Nat.mul_le_mul_right (spacing magnitude) hquotient)
    exact Int.le_natAbs.trans (Int.ofNat_le.mpr hle)

/-! ### Rounding -/

/-- The nearest multiple is the one below or the one above, as the remainder is at most or at least
half of the unit. -/
theorem nearestMultiple_cases (unit magnitude : Nat) :
    nearestMultiple unit magnitude = magnitude / unit * unit ∧ 2 * (magnitude % unit) ≤ unit ∧
        (2 * (magnitude % unit) = unit → magnitude / unit % 2 = 0) ∨
      nearestMultiple unit magnitude = (magnitude / unit + 1) * unit ∧
        unit ≤ 2 * (magnitude % unit) ∧
        (2 * (magnitude % unit) = unit → (magnitude / unit + 1) % 2 = 0) := by
  unfold nearestMultiple
  split
  · left
    exact ⟨rfl, by omega, by omega⟩
  · right
    exact ⟨rfl, by omega, by omega⟩

/-- Two neighbours differ by the unit, so an even multiple is a multiple of twice their distance. -/
theorem two_mul_dvd_of_even {multiple : Nat} (h : multiple % 2 = 0) (unit : Nat) {distance : Int}
    (hdistance : distance = unit ∨ distance = -unit) :
    2 * distance ∣ (multiple * unit : Nat) := by
  obtain ⟨half, rfl⟩ := Nat.dvd_of_mod_eq_zero h
  rcases hdistance with rfl | rfl
  · exact ⟨half, by push_cast; ring⟩
  · exact ⟨-half, by push_cast; ring⟩

theorem isNearest_ofNat (magnitude : Nat) :
    IsNearest magnitude (nearestMultiple (spacing magnitude) magnitude) := by
  have hdivision := Nat.div_add_mod' magnitude (spacing magnitude)
  have hrest := Nat.mod_lt magnitude (spacing_pos magnitude)
  have hquotient := div_spacing_lt magnitude
  have hsides : ∀ other, Representable other →
      other ≤ (magnitude / spacing magnitude * spacing magnitude : Nat) ∨
        (magnitude / spacing magnitude * spacing magnitude : Nat) + spacing magnitude ≤ other := by
    intro other hother
    have hside := hother.le_or_le magnitude
    rwa [Nat.add_one_mul, Int.natCast_add] at hside
  rcases nearestMultiple_cases (spacing magnitude) magnitude with
    ⟨hnearest, hhalf, heven⟩ | ⟨hnearest, hhalf, heven⟩
  · rw [hnearest]
    refine ⟨representable_mul_pow hquotient.le _, fun other hother ↦ ?_,
      fun other hother hdistance hne ↦ ?_⟩
    · have hside := hsides other hother
      omega
    · have hside := hsides other hother
      exact two_mul_dvd_of_even (heven (by omega)) _ (by omega)
  · rw [hnearest]
    have habove := Nat.add_one_mul (magnitude / spacing magnitude) (spacing magnitude)
    refine ⟨representable_mul_pow hquotient _, fun other hother ↦ ?_,
      fun other hother hdistance hne ↦ ?_⟩
    · have hside := hsides other hother
      rw [habove]
      omega
    · have hside := hsides other hother
      rw [habove] at hdistance hne
      exact two_mul_dvd_of_even (heven (by omega)) _ (by rw [habove]; omega)

/-- Rounding is the same on both sides of zero. -/
theorem IsNearest.neg {value number : Int} (h : IsNearest value number) :
    IsNearest (-value) (-number) where
  representable := h.representable.neg
  le other hother := by
    have hle := h.le (-other) hother.neg
    omega
  even other hother hdistance hne := by
    have hdvd := h.even (-other) hother.neg (by omega) (by omega)
    have hsides : 2 * (other - -number) = -(2 * (-other - number)) := by ring
    rw [hsides]
    exact Int.neg_dvd.mpr (Int.dvd_neg.mpr hdvd)

/-- An integer is rounded to the nearest number, and of two to the even one. -/
theorem isNearest_rounded (value : Int) : IsNearest value (rounded value) := by
  cases value with
  | ofNat magnitude => exact isNearest_ofNat magnitude
  | negSucc magnitude => exact (isNearest_ofNat (magnitude + 1)).neg

/-- What a number holds is not changed by rounding. -/
theorem rounded_of_representable {value : Int} (h : Representable value) :
    rounded value = value := by
  have hle := (isNearest_rounded value).le value h
  omega

/-! ### Numbers of terms -/

/-- The operators that give an integer for every two integers. -/
def integerOperators : List String := ["+", "-", "*"]

/-- What an operation on two numbers gives. -/
def operate (operator : String) (left right : Int) : Option Int :=
  if operator = "+" then some (rounded (left + right))
  else if operator = "-" then some (rounded (left - right))
  else if operator = "*" then some (rounded (left * right))
  else none

section Operators

variable {operator : String}

theorem eq_of_mem_integerOperators (h : operator ∈ integerOperators) :
    operator = "+" ∨ operator = "-" ∨ operator = "*" := by
  simpa [integerOperators] using h

theorem exists_operate (h : operator ∈ integerOperators) (left right : Int) :
    ∃ number, operate operator left right = some number := by
  rcases eq_of_mem_integerOperators h with rfl | rfl | rfl
  · exact ⟨rounded (left + right), rfl⟩
  · exact ⟨rounded (left - right), rfl⟩
  · exact ⟨rounded (left * right), rfl⟩

/-- An operation that is folded gives the literal that is left, rounded. -/
theorem operate_of_foldIntegers (h : operator ∈ integerOperators) {left right value : Int}
    (hvalue : foldIntegers operator left right = some value) :
    operate operator left right = some (rounded value) := by
  rcases eq_of_mem_integerOperators h with rfl | rfl | rfl
  · rw [Interpretation.eq_of_fit? hvalue]
    rfl
  · rw [Interpretation.eq_of_fit? hvalue]
    rfl
  · rw [Interpretation.eq_of_fit? hvalue]
    rfl

theorem scriptOperator_of_mem (h : operator ∈ integerOperators) :
    Emitter.scriptOperator operator = operator := by
  rcases eq_of_mem_integerOperators h with rfl | rfl | rfl <;> rfl

end Operators

/-- The number that a term of literals and arithmetic evaluates to. -/
def Term.number? : Term → Option Int
  | .number value => some (rounded value)
  | .binary operator left right =>
    (Term.number? left).bind fun first ↦ (Term.number? right).bind fun second ↦
      operate operator first second
  | _ => none

/-- The number that a statement prints. -/
def Stmt.printed? : Stmt → Option Int
  | .log value => value.number?
  | _ => none

end Script

open Script (Representable)

namespace Expr

/-- Expressions of integer literals with `+`, `-` and `*`. -/
inductive Arithmetic : Expr → Prop
  | number {value : Int} {ty : Ty} : Arithmetic (.number value ty)
  | binary {operator : String} {left right : Expr} {ty? : Option Ty}
      (hoperator : operator ∈ Script.integerOperators) (hleft : Arithmetic left)
      (hright : Arithmetic right) : Arithmetic (.binary operator left right ty?)

/-- Every operation that folding replaces has operands that numbers hold exactly. -/
def FoldsExactly : Expr → Prop
  | .binary operator left right _ =>
    FoldsExactly left ∧ FoldsExactly right ∧
      ∀ first second firstTy secondTy, left.fold = .number first firstTy →
        right.fold = .number second secondTy → (foldIntegers operator first second).isSome →
          Representable first ∧ Representable second
  | _ => True

/-- An operation on folded arithmetic stays, or it is one on two literals that is folded. -/
theorem Arithmetic.fold_binary {left right : Expr} (hleft : left.fold.Arithmetic)
    (hright : right.fold.Arithmetic) (operator : String) (ty? : Option Ty) :
    (Expr.binary operator left right ty?).fold = .binary operator left.fold right.fold ty? ∨
      ∃ first second firstTy secondTy value, left.fold = .number first firstTy ∧
        right.fold = .number second secondTy ∧ foldIntegers operator first second = some value ∧
        (Expr.binary operator left right ty?).fold = .number value .int := by
  simp only [Expr.fold]
  generalize left.fold = leftFold at hleft ⊢
  generalize right.fold = rightFold at hright ⊢
  cases hleft with
  | binary => exact Or.inl rfl
  | @number first firstTy =>
    cases hright with
    | binary => exact Or.inl rfl
    | @number second secondTy =>
      cases hvalue : foldIntegers operator first second with
      | none =>
        left
        simp only [foldBinary, hvalue, Option.map_none, Option.getD_none]
      | some value =>
        right
        refine ⟨first, second, firstTy, secondTy, value, rfl, rfl, hvalue, ?_⟩
        simp only [foldBinary, hvalue, Option.map_some, Option.getD_some]

theorem Arithmetic.fold {value : Expr} (h : value.Arithmetic) : value.fold.Arithmetic := by
  induction h with
  | number => exact .number
  | @binary operator left right ty? hoperator _ _ ihleft ihright =>
    rcases fold_binary ihleft ihright operator ty? with hstays | ⟨_, _, _, _, _, _, _, _, hfolded⟩
    · rw [hstays]
      exact .binary hoperator ihleft ihright
    · rw [hfolded]
      exact .number

/-- Arithmetic and what it is folded to are written as terms of the same number. -/
theorem number?_fold (emitter : Emitter) {value : Expr} (h : value.Arithmetic)
    (hexact : value.FoldsExactly) :
    ∃ number, (emitter.term value).number? = some number ∧
      (emitter.term value.fold).number? = some number := by
  induction h with
  | @number value ty => exact ⟨Script.rounded value, rfl, rfl⟩
  | @binary operator left right ty? hoperator hleft hright ihleft ihright =>
    obtain ⟨hexactLeft, hexactRight, hoperands⟩ := hexact
    obtain ⟨first, hfirst, hfirstFold⟩ := ihleft hexactLeft
    obtain ⟨second, hsecond, hsecondFold⟩ := ihright hexactRight
    obtain ⟨number, hnumber⟩ := Script.exists_operate hoperator first second
    have hplain : (emitter.term (.binary operator left right ty?)).number? = some number := by
      simp only [Emitter.term, Script.scriptOperator_of_mem hoperator, Script.Term.number?, hfirst,
        hsecond, Option.bind_some, hnumber]
    refine ⟨number, hplain, ?_⟩
    rcases Arithmetic.fold_binary hleft.fold hright.fold operator ty? with
      hstays | ⟨leftValue, rightValue, leftTy, rightTy, value, hl, hr, hvalue, hfolded⟩
    · rw [hstays]
      simp only [Emitter.term, Script.scriptOperator_of_mem hoperator, Script.Term.number?,
        hfirstFold, hsecondFold, Option.bind_some, hnumber]
    · -- The operands are held exactly, so that reading them as literals does not change them.
      obtain ⟨hleftExact, hrightExact⟩ := hoperands leftValue rightValue leftTy rightTy hl hr
        (Option.isSome_iff_exists.mpr ⟨value, hvalue⟩)
      rw [hl] at hfirstFold
      rw [hr] at hsecondFold
      have hleftValue : leftValue = first :=
        (Script.rounded_of_representable hleftExact).symm.trans (Option.some.inj hfirstFold)
      have hrightValue : rightValue = second :=
        (Script.rounded_of_representable hrightExact).symm.trans (Option.some.inj hsecondFold)
      rw [hfolded, ← hnumber, ← hleftValue, ← hrightValue,
        Script.operate_of_foldIntegers hoperator hvalue]
      rfl

end Expr

/-! ### Printed numbers -/

/-- A folded program is the program of the same source, which is analysed before it is folded. -/
theorem Source.program_fold {source : Source} {program : Program}
    (h : source.program false = .ok program) : source.program true = .ok program.folded := by
  rw [Source.program_eq] at h ⊢
  obtain ⟨tree, htree, h⟩ := exists_of_bind_eq_ok h
  obtain ⟨analysed, hanalysed, h⟩ := exists_of_bind_eq_ok h
  obtain rfl := Except.ok.inj h
  rw [htree]
  show (Program.ofNode source tree >>= _) = _
  rw [hanalysed]
  rfl

/-- Where every operation that is folded has operands of at most 53 significant bits, arithmetic on
integer literals is written as a term of the same number whether it is folded or not. So where a
source prints it, the folded and the unfolded script print the same number at the same place. -/
theorem folding_keeps_numbers {value : Expr} (hvalue : value.Arithmetic)
    (hexact : value.FoldsExactly) :
    (∀ emitter : Emitter, ∃ number, (emitter.term value).number? = some number ∧
      (emitter.term value.fold).number? = some number) ∧
    ∀ source program emitter, Source.program source false = .ok program →
      (emitter, .print value) ∈ Emitter.initial.visitsAll program.statements →
        source.program true = .ok program.folded ∧
          (emitter, .print value.fold) ∈ Emitter.initial.visitsAll program.folded.statements ∧
          ∃ number, (Emitter.lineOf (emitter, .print value)).printed? = some number ∧
            (Emitter.lineOf (emitter, .print value.fold)).printed? = some number := by
  refine ⟨fun emitter ↦ Expr.number?_fold emitter hvalue hexact, ?_⟩
  intro source program emitter hprogram hmet
  refine ⟨Source.program_fold hprogram, ?_, Expr.number?_fold emitter hvalue hexact⟩
  show _ ∈ Emitter.initial.visitsAll (Statement.foldedAll program.statements)
  rw [Emitter.visitsAll_foldAll]
  exact List.mem_map.mpr ⟨_, hmet, rfl⟩

/-- The theorem at a source that prints two operations, of which one is folded after the other. -/
theorem folding_keeps_numbers_nested :
    ∃ value : Expr, value = .binary "-" (.binary "*" (.number 2 .int) (.number 3 .int) (some .int))
        (.number 7 .int) (some .int) ∧ value.Arithmetic ∧ value.FoldsExactly ∧
      ∃ source program, source = Source.ofText "" "print 2 * 3 - 7" ∧
        source.program false = .ok program ∧
        (Emitter.initial, .print value) ∈ Emitter.initial.visitsAll program.statements ∧
        source.program true = .ok program.folded ∧
        (Emitter.initial, .print value.fold) ∈
          Emitter.initial.visitsAll program.folded.statements ∧
        ∃ number, (Emitter.lineOf (.initial, .print value)).printed? = some number ∧
          (Emitter.lineOf (.initial, .print value.fold)).printed? = some number := by
  obtain ⟨value, hdefinition⟩ : ∃ value : Expr, value = .binary "-"
    (.binary "*" (.number 2 .int) (.number 3 .int) (some .int)) (.number 7 .int) (some .int) :=
    ⟨_, rfl⟩
  have hvalue : value.Arithmetic := by
    rw [hdefinition]
    exact .binary (by decide) (.binary (by decide) .number .number) .number
  have hexact : value.FoldsExactly := by
    rw [hdefinition]
    refine ⟨⟨trivial, trivial, fun first second _ _ hfirst hsecond _ ↦ ?_⟩, trivial,
      fun first second _ _ hfirst hsecond _ ↦ ?_⟩
    · obtain ⟨rfl, -⟩ := Expr.number.inj hfirst
      obtain ⟨rfl, -⟩ := Expr.number.inj hsecond
      exact ⟨Script.representable_of_natAbs_lt (by decide),
        Script.representable_of_natAbs_lt (by decide)⟩
    · obtain ⟨rfl, -⟩ := Expr.number.inj hfirst
      obtain ⟨rfl, -⟩ := Expr.number.inj hsecond
      exact ⟨Script.representable_of_natAbs_lt (by decide),
        Script.representable_of_natAbs_lt (by decide)⟩
  obtain ⟨program, hprogram, hmet⟩ : ∃ program,
      (Source.ofText "" "print 2 * 3 - 7").program false = .ok program ∧
        (Emitter.initial, .print value) ∈ Emitter.initial.visitsAll program.statements := by
    rw [hdefinition]
    exact ⟨_, by cbv, List.mem_cons_self⟩
  exact ⟨value, hdefinition, hvalue, hexact, _, program, rfl, hprogram, hmet,
    (folding_keeps_numbers hvalue hexact).2 _ program _ hprogram hmet⟩

-- The result of a folded operation need not be represented: here it is rounded in both scripts.
example : (Script.Term.binary "+" (.number 9007199254740992) (.number 9007199254740991)).number? =
    (Script.Term.number 18014398509481983).number? := by decide +kernel

/-- Beyond the integers that numbers hold, folding changes what is printed: in the script the sum is
rounded back after each step, and in the folded one it is not. -/
theorem folding_changes_printed_number :
    ∃ source, source = Source.ofText "" "print 9007199254740992 + 1 + 1" ∧
      source.compile false = .ok "console.log(((9007199254740992 + 1) + 1));\n" ∧
      source.compile true = .ok "console.log(9007199254740994);\n" ∧
      ∃ program, source.program false = .ok program ∧
        program.script.map Script.Stmt.printed? = [some 9007199254740992] ∧
        program.folded.script.map Script.Stmt.printed? = [some 9007199254740994] := by
  exact ⟨_, rfl, by decide +kernel, by decide +kernel, exists_of_any (by decide +kernel)⟩

end Presage
