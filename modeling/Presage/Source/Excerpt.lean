import Presage.Source.Basic

/-!
The excerpt of a source that goes before a diagnostic: the line of a position between its
neighbours, line numbers in a gutter of equal width, and a caret under the column.
-/

set_option autoImplicit false
set_option relaxedAutoImplicit false

namespace Presage

/-- Spaces before `text` up to `width` characters. -/
def Text.padLeft (width : Nat) (text : String) : String :=
  String.ofList (List.replicate (width - text.length) ' ') ++ text

namespace Source

/-- One line of an excerpt: a mark, the gutter and what stands right of it. -/
def excerptLine (mark : String) (width : Nat) (label content : String) : String :=
  mark ++ " " ++ Text.padLeft width label ++ " | " ++ content ++ "\n"

/-- The width of the gutter: that of the greatest line number shown. -/
def gutterWidth (source : Source) (line : Nat) : Nat :=
  (min (line + 1) source.lineCount).repr.length

/-- The line of `position`, marked and with a caret below its column, between the lines before and
after it. -/
def excerpt (source : Source) (position : Position) : String :=
  let line := position.line
  let width := source.gutterWidth line
  let numbered (mark : String) (number : Nat) : String :=
    excerptLine mark width number.repr (source.lineText number)
  "Line " ++ line.repr ++ ", col " ++ position.column.repr ++ ":\n"
    ++ (if 1 < line then numbered " " (line - 1) else "")
    ++ numbered ">" line
    ++ excerptLine " " width "" (Text.padLeft position.column "^")
    ++ (if line < source.lineCount then numbered " " (line + 1) else "")

end Source

end Presage
