/-!
Places in a text. A position is a byte offset with the line and column that it has in its text. All
three are kept in words of 32 bits, so that of a number that does not fit only the low bits are
left.
-/

set_option autoImplicit false
set_option relaxedAutoImplicit false

namespace Presage

/-- What a word of 32 bits keeps of a number. -/
def toWord (number : Nat) : Nat := number % UInt32.size

/-- A byte offset with its line and column, both counted from one. Columns count characters. -/
structure Position where
  offset : Nat
  line : Nat
  column : Nat
deriving DecidableEq, Inhabited

/-- Where every text starts. -/
def Position.start : Position := ⟨0, 1, 1⟩

/-- A stretch of text from `start` up to `stop`. -/
structure Span where
  start : Position
  stop : Position
deriving DecidableEq, Inhabited

end Presage
