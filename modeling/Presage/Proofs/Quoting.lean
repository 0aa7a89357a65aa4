import Mathlib.Algebra.Ring.Parity
import Mathlib.Data.List.Induction
import Mathlib.Logic.Function.Basic
import Presage.Script.Quote

/-!
String literals of a script, read back. `Script.decode?` reads a literal as a script does: from its
opening quote to the first quote that is not escaped, which has to be the last character, with the
five escapes replaced by what they stand for. A line break cannot stand inside, and a backslash only
before a character that it escapes.

Each character is escaped by itself, so a literal is read one escape at a time
(`readInside?_escape`), and what was quoted comes back (`decode?_quote`). That no quote inside ends
the literal is also said without a reader: every quote inside has an odd number of backslashes
before it, and the closing one an even number (`isLiteral_quote`).
-/

set_option autoImplicit false
set_option relaxedAutoImplicit false

namespace Presage.Script

/-! ### Reading literals -/

/-- What a backslash with the character behind it stands for. -/
def unescape? : Char → Option Char
  | '\"' => some '\"'
  | '\\' => some '\\'
  | 'n' => some '\n'
  | 'r' => some '\r'
  | 't' => some '\t'
  | _ => none

/-- Reads a literal from behind its opening quote to its closing quote, and gives what it stands for
with what follows it. -/
def readInside? : List Char → Option (List Char × List Char)
  | [] => none
  | '\"' :: rest => some ([], rest)
  | '\\' :: c :: rest => do
    let meant ← unescape? c
    let (inside, after) ← readInside? rest
    return (meant :: inside, after)
  | c :: rest =>
    if c = '\\' ∨ c = '\n' ∨ c = '\r' then none
    else (readInside? rest).map fun (inside, after) ↦ (c :: inside, after)

/-- The text that a string literal stands for, if the literal goes to the end. -/
def decode? (literal : String) : Option String :=
  match literal.toList with
  | '\"' :: rest =>
    match readInside? rest with
    | some (inside, []) => some (String.ofList inside)
    | _ => none
  | _ => none

/-- An escaped character is read as the character. -/
theorem readInside?_escape (c : Char) (rest : List Char) :
    readInside? (escape c ++ rest) =
      (readInside? rest).map fun (inside, after) ↦ (c :: inside, after) := by
  unfold escape
  split
  case h_6 hquote hbackslash hfeed hreturn htab =>
    have hstands : ¬ (c = '\\' ∨ c = '\n' ∨ c = '\r') := by
      rintro (h | h | h)
      · exact hbackslash h
      · exact hfeed h
      · exact hreturn h
    rw [List.singleton_append, readInside?, if_neg hstands]
    · exact hquote
    · rintro d tail rfl
      exact (hbackslash rfl).elim
  all_goals
    simp only [List.cons_append, List.nil_append, readInside?, unescape?]
    cases readInside? rest <;> rfl

/-- Escaped text before a quote is read as the text, up to that quote. -/
theorem readInside?_flatMap_escape (text after : List Char) :
    readInside? (text.flatMap escape ++ '\"' :: after) = some (text, after) := by
  induction text with
  | nil => rfl
  | cons c rest ih =>
    rw [List.flatMap_cons, List.append_assoc, readInside?_escape, ih]
    rfl

theorem toList_quote (text : String) :
    (quote text).toList = '\"' :: (text.toList.flatMap escape ++ ['\"']) :=
  String.toList_ofList

/-- What was quoted comes back. -/
theorem decode?_quote (text : String) : decode? (quote text) = some text := by
  unfold decode?
  rw [toList_quote]
  simp only [readInside?_flatMap_escape, String.ofList_toList]

/-! ### Escaped quotes -/

/-- The number of backslashes at the end of a text. A character behind it is escaped if there is an
odd number of them. -/
def backslashes (text : List Char) : Nat := (text.reverse.takeWhile (· == '\\')).length

theorem backslashes_concat_backslash (text : List Char) :
    backslashes (text ++ ['\\']) = backslashes text + 1 := by
  simp [backslashes]

/-- A backslash is written as two, and no other character ends with one. -/
theorem backslashes_append_escape (text : List Char) (c : Char) :
    backslashes (text ++ escape c) = if c = '\\' then backslashes text + 2 else 0 := by
  unfold escape
  split
  case h_6 => simp_all [backslashes]
  all_goals simp [backslashes]

theorem even_backslashes (text : List Char) : Even (backslashes (text.flatMap escape)) := by
  induction text using List.reverseRecOn with
  | nil => exact Even.zero
  | append_singleton text c ih =>
    rw [List.flatMap_append, List.flatMap_singleton, backslashes_append_escape]
    split
    · exact ih.add even_two
    · exact Even.zero

/-- A quote in an escaped character stands behind a backslash, at the end. -/
theorem eq_of_escape_eq_append {c : Char} {before after : List Char}
    (h : escape c = before ++ '\"' :: after) : before = ['\\'] ∧ after = [] := by
  unfold escape at h
  split at h
  case h_6 hquote _ _ _ _ =>
    obtain ⟨-, hhead⟩ : before = [] ∧ '\"' = c ∧ after = [] := by
      simpa [List.cons_eq_append_iff] using h
    exact (hquote hhead.1.symm).elim
  all_goals simp_all [List.cons_eq_append_iff]

/-- The text before a quote in escaped text is escaped text and a backslash. -/
theorem exists_of_flatMap_escape {text before after : List Char}
    (h : text.flatMap escape = before ++ '\"' :: after) :
    ∃ first : List Char, before = first.flatMap escape ++ ['\\'] := by
  induction text generalizing before with
  | nil => simp at h
  | cons c rest ih =>
    rw [List.flatMap_cons] at h
    obtain ⟨tail, rfl, hrest⟩ | ⟨tail, hescape, htail⟩ := List.append_eq_append_iff.mp h
    · obtain ⟨first, rfl⟩ := ih hrest
      exact ⟨c :: first, by rw [List.flatMap_cons, List.append_assoc]⟩
    · cases tail with
      | nil =>
        -- The quote would be the first character behind an escaped one.
        obtain ⟨first, hfirst⟩ := @ih [] htail.symm
        simp at hfirst
      | cons d tail =>
        obtain ⟨rfl, -⟩ := List.cons.inj htail
        obtain ⟨rfl, -⟩ := eq_of_escape_eq_append hescape
        exact ⟨[], rfl⟩

/-- A literal on one line: quotes around an inside in which every quote is escaped, with the closing
quote not escaped. -/
structure IsLiteral (literal : String) (inside : List Char) : Prop where
  quoted : literal.toList = '\"' :: (inside ++ ['\"'])
  oneLine : '\n' ∉ inside ∧ '\r' ∉ inside
  escaped : ∀ before after, inside = before ++ '\"' :: after → Odd (backslashes before)
  closed : Even (backslashes inside)

theorem not_mem_escape {d : Char} (h : d = '\n' ∨ d = '\r') (c : Char) : d ∉ escape c := by
  unfold escape
  split
  all_goals
    rcases h with rfl | rfl <;> simp_all [eq_comm]

theorem isLiteral_quote (text : String) :
    IsLiteral (quote text) (text.toList.flatMap escape) where
  quoted := toList_quote text
  oneLine := by
    constructor
    all_goals
      intro hmem
      obtain ⟨c, -, hc⟩ := List.mem_flatMap.mp hmem
      exact not_mem_escape (by simp) c hc
  escaped before after h := by
    obtain ⟨first, rfl⟩ := exists_of_flatMap_escape h
    rw [backslashes_concat_backslash]
    exact (even_backslashes first).add_one
  closed := even_backslashes text.toList

theorem quote_injective : Function.Injective quote := by
  intro first second h
  have hdecode := congrArg decode? h
  rw [decode?_quote, decode?_quote] at hdecode
  exact Option.some.inj hdecode

end Presage.Script
