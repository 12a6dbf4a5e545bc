/-! The two layouts that all printed forms share: comma lists and indented lines. -/

namespace TensorIR

/-- The items with a comma and a blank between them. -/
def commaSeparated (items : List String) : String := ", ".intercalate items

/-- The items as a comma list in parentheses. -/
def parenthesized (items : List String) : String := "(" ++ commaSeparated items ++ ")"

/-- A line break followed by `depth` levels of indentation, two blanks each. -/
def newline : (depth : Nat) → String
  | 0 => "\n"
  | depth + 1 => newline depth ++ "  "

end TensorIR
