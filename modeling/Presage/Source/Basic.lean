import Presage.Text.Bytes
import Presage.Text.Lines
import Presage.Source.Position

/-!
Source texts. A source keeps the offsets at which its lines start, and everything about lines is
read off that table: `position?` looks an offset up in it and `lineText` cuts out what is between
two starts. `slice?` reads the text between two offsets. Offsets inside a character have no position
and bound no slice.
-/

set_option autoImplicit false
set_option relaxedAutoImplicit false

namespace Presage

/-- A named source text with the table of its lines. -/
structure Source where
  name : String
  chars : List Char
  /-- The byte offsets at which the lines start. -/
  lineStarts : Array Nat
  lineStarts_eq : lineStarts = Text.lineStarts chars

namespace Source

/-- The source that has the given characters. -/
def ofChars (name : String) (chars : List Char) : Source :=
  ⟨name, chars, Text.lineStarts chars, rfl⟩

def ofText (name text : String) : Source := ofChars name text.toList

/-- The empty text without a place of its own. -/
def null : Source := ofText "<null>" ""

/-- The size of the text in bytes. -/
def size (source : Source) : Nat := Text.byteSize source.chars

/-- The character at a byte offset, or the null character at the end of the text. -/
def charAt? (source : Source) (offset : Nat) : Option Char :=
  (Text.drop? offset source.chars).map fun rest ↦ rest.head?.getD '\x00'

/-- The text between two byte offsets, of which the first is not behind the last. -/
def slice? (source : Source) (first last : Nat) : Option String :=
  if first ≤ last then do
    let rest ← Text.drop? first source.chars
    let (middle, _) ← Text.splitAt? (last - first) rest
    return String.ofList middle
  else none

/-- The text of a span. A span that bounds no text reads as empty. -/
def read (source : Source) (span : Span) : String :=
  (source.slice? span.start.offset span.stop.offset).getD ""

theorem read_eq {source : Source} {span : Span} {text : String}
    (h : source.slice? span.start.offset span.stop.offset = some text) :
    source.read span = text := by
  rw [read, h, Option.getD_some]

/-! ### Lines -/

/-- The index of the line that an offset is on: the last that does not start behind it. -/
def lineIndex (source : Source) (offset : Nat) : Nat :=
  match Text.search source.lineStarts offset with
  | .ok index => index
  | .error index => index - 1

/-- The position at a byte offset. Offsets past the end give the end. -/
def position? (source : Source) (offset : Nat) : Option Position :=
  let offset := min offset source.size
  let line := source.lineIndex offset
  (source.slice? (source.lineStarts.getD line 0) offset).map fun before ↦
    ⟨toWord offset, toWord (toWord line + 1), toWord (before.length + 1)⟩

/-- The position at an offset that is not inside a character. -/
def position (source : Source) (offset : Nat) : Position := (source.position? offset).getD .start

def lineCount (source : Source) : Nat := source.lineStarts.size

/-- The line with a given number, without what ends it. There is nothing on lines that do not
exist. -/
def lineText (source : Source) (number : Nat) : String :=
  if number = 0 ∨ source.lineCount < number then ""
  else
    let first := source.lineStarts.getD (number - 1) 0
    let last := source.lineStarts.getD number source.size
    String.ofList (Text.trimEnd Text.endsLine ((source.slice? first last).getD "").toList)

end Source

end Presage
