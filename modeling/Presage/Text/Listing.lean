import Presage.Text.Blank

/-!
Listings: named records, tuples and lists in writing. `pretty` gives every field and item a line of
its own, four spaces deeper for every level, and `compact` writes everything on one line.
-/

set_option autoImplicit false
set_option relaxedAutoImplicit false

namespace Presage

inductive Listing where
  | atom (text : String)
  | record (name : String) (fields : List (String × Listing))
  | tuple (name : String) (items : List Listing)
  | list (items : List Listing)

namespace Listing

/-! ### Quoted text -/

/-- The escaped form of a character in a quoted text. Control characters and the blanks other than
the space are written by their code points. -/
def escape (c : Char) : String :=
  match c with
  | '\"' => "\\\""
  | '\\' => "\\\\"
  | '\n' => "\\n"
  | '\r' => "\\r"
  | '\t' => "\\t"
  | '\x00' => "\\0"
  | ' ' => " "
  | c =>
    if c.toNat < 0x20 ∨ (0x7F ≤ c.toNat ∧ c.toNat ≤ 0x9F) ∨ Text.isBlank c then
      "\\u\x7b" ++ String.ofList (Nat.toDigits 16 c.toNat) ++ "\x7d"
    else String.singleton c

def quoted (text : String) : Listing :=
  atom ("\"" ++ String.join (text.toList.map escape) ++ "\"")

/-! ### Optional values -/

/-- A value that may be missing. -/
def option : Option Listing → Listing
  | none => atom "None"
  | some value => tuple "Some" [value]

/-! ### Layout -/

def indentation (depth : Nat) : String := String.ofList (List.replicate (4 * depth) ' ')

mutual

/-- A listing over several lines, of which all but the first start `depth` levels deep. -/
def pretty (depth : Nat) : Listing → String
  | atom text => text
  | record name fields =>
    name ++ " \x7b\n" ++ prettyFields (depth + 1) fields ++ indentation depth ++ "\x7d"
  | tuple name items => name ++ "(\n" ++ prettyItems (depth + 1) items ++ indentation depth ++ ")"
  | list [] => "[]"
  | list (first :: rest) =>
    "[\n" ++ prettyItems (depth + 1) (first :: rest) ++ indentation depth ++ "]"

def prettyFields (depth : Nat) : List (String × Listing) → String
  | [] => ""
  | (name, value) :: rest =>
    indentation depth ++ name ++ ": " ++ pretty depth value ++ ",\n" ++ prettyFields depth rest

def prettyItems (depth : Nat) : List Listing → String
  | [] => ""
  | value :: rest => indentation depth ++ pretty depth value ++ ",\n" ++ prettyItems depth rest

end

mutual

/-- A listing on one line. -/
def compact : Listing → String
  | atom text => text
  | record name fields => name ++ " \x7b " ++ ", ".intercalate (compactFields fields) ++ " \x7d"
  | tuple name items => name ++ "(" ++ ", ".intercalate (compactItems items) ++ ")"
  | list items => "[" ++ ", ".intercalate (compactItems items) ++ "]"

def compactFields : List (String × Listing) → List String
  | [] => []
  | (name, value) :: rest => (name ++ ": " ++ compact value) :: compactFields rest

def compactItems : List Listing → List String
  | [] => []
  | value :: rest => compact value :: compactItems rest

end

end Listing

end Presage
