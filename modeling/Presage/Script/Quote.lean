/-!
String literals of a script. A quote, a backslash, a line feed, a carriage return and a tab are
escaped, and every other character stands for itself.
-/

set_option autoImplicit false
set_option relaxedAutoImplicit false

namespace Presage.Script

/-- The form of a character inside a string literal. -/
def escape : Char → List Char
  | '\"' => ['\\', '\"']
  | '\\' => ['\\', '\\']
  | '\n' => ['\\', 'n']
  | '\r' => ['\\', 'r']
  | '\t' => ['\\', 't']
  | c => [c]

/-- The string literal for a text. -/
def quote (text : String) : String :=
  String.ofList ('\"' :: (text.toList.flatMap escape ++ ['\"']))

end Presage.Script
