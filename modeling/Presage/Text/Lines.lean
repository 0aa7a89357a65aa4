/-!
The lines of a text, by the byte offsets at which they start. `lineStarts` lists the offsets in
order, and `search` looks one up by halving: it gives the index of an offset that is in the list,
and else the index at which it would have to be inserted.
-/

set_option autoImplicit false
set_option relaxedAutoImplicit false

namespace Presage.Text

/-- The offsets behind the line feeds of a text whose first character stands at `offset`. -/
def feedEnds (offset : Nat) : List Char → List Nat
  | [] => []
  | c :: rest =>
    if c = '\n' then (offset + c.utf8Size) :: feedEnds (offset + c.utf8Size) rest
    else feedEnds (offset + c.utf8Size) rest

/-- The offsets at which the lines of a text start. -/
def lineStarts (text : List Char) : Array Nat := (0 :: feedEnds 0 text).toArray

/-- Looks for a key in the part of a sorted array from `low` up to `high`. -/
def searchBetween (values : Array Nat) (key low high : Nat) : Except Nat Nat :=
  if low < high then
    let middle := (low + high) / 2
    if values.getD middle 0 < key then searchBetween values key (middle + 1) high
    else if key < values.getD middle 0 then searchBetween values key low middle
    else .ok middle
  else .error low
termination_by high - low

/-- The index of a key in a sorted array, or else the index of its place. -/
def search (values : Array Nat) (key : Nat) : Except Nat Nat :=
  searchBetween values key 0 values.size

/-- Line feeds and carriage returns, which end lines. -/
def endsLine (c : Char) : Bool := c == '\n' || c == '\r'

/-- A text without the characters of a class at its end. -/
def trimEnd (class? : Char → Bool) (text : List Char) : List Char :=
  (text.reverse.dropWhile class?).reverse

end Presage.Text
