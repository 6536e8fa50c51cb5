import GrammarTables.Text.Blank

/-!
# Text/Line — the lines of a text

A line ends with `\n` or `\r\n`, or with the text.  A carriage return that no `\n` follows is a
character of its line, and a text that ends with a line end has no further, empty line.
-/

namespace GrammarTables.Text

/-- `cs` without a carriage return at its end. -/
def dropReturn : List Char → List Char
  | [] => []
  | ['\r'] => []
  | c :: cs => c :: dropReturn cs

/-- The lines that the stretches between the `\n`s of a text make.  The last one ends with the text
and not with `\n`: it keeps its carriage return, and it is no line when it is empty. -/
def linesOf : List (List Char) → List (List Char)
  | [] => []
  | [last] => if last.isEmpty then [] else [last]
  | line :: rest => dropReturn line :: linesOf rest

/-- The lines of a text, without their ends. -/
def lines (cs : List Char) : List (List Char) :=
  linesOf (pieces (· == '\n') cs)

end GrammarTables.Text
