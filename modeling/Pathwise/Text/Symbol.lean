import Pathwise.Text.Alphanumeric

/-!
# Pathwise.Text.Symbol

Names of the program turned into symbols of the constraint language. A symbol
holds only letters, digits, `_` and `.`, so it is one atom wherever it is
written; the brackets of types are spelled out, everything else is dropped.
-/

namespace Pathwise.Text

/-- Put `out` in place of each `a` directly followed by `b`, from left to right. -/
def replacePair (a b : Char) (out : List Char) : List Char → List Char
  | c :: d :: rest =>
    if c = a ∧ d = b then out ++ replacePair a b out rest
    else c :: replacePair a b out (d :: rest)
  | rest => rest

/-- The spelling of the characters of a generic type's name. -/
def spellBracket : Char → List Char
  | '<' => ['_', 'O', 'f', '_']
  | ',' => ['_']
  | '>' => []
  | c => [c]

/-- Characters that may stand in a symbol. -/
def isSymbolChar (c : Char) : Bool := isAlphanumeric c || c == '_' || c == '.'

/-- The characters of the symbol of a name. -/
def symbolChars (name : List Char) : List Char :=
  let spelled := (replacePair '[' ']' ['_', 'A', 'r', 'r', 'a', 'y'] name).flatMap spellBracket
  (replacePair ':' ':' ['.'] spelled).filter isSymbolChar

/-- The symbol of a name: `[]`, `<`, `,` and `::` become `_Array`, `_Of_`, `_` and `.`, and what
remains beyond letters, digits, `_` and `.` is dropped. -/
def symbol (name : String) : String := String.ofList (symbolChars name.toList)

theorem isSymbolChar_of_mem_symbolChars {c : Char} {name : List Char} (h : c ∈ symbolChars name) :
    isSymbolChar c = true :=
  (List.mem_filter.1 h).2

end Pathwise.Text
