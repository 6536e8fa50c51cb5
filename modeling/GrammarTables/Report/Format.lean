import GrammarTables.Grammar.Symbol
import GrammarTables.Text.Tex

/-!
# Report/Format — the formats of a report, and symbols in LaTeX

How a name is written in LaTeX is up to the `escape` that a report is given.
-/

namespace GrammarTables

/-- The formats of a report. -/
inductive Format
  | plain
  | latex
  | json
deriving DecidableEq

/-- A sequence of names in LaTeX's mathematics.  The name of the empty string is shown as the
letter, wherever it stands in the text. -/
def texSequence (escape : String → String) (names : List String) : String :=
  Text.Tex.replaceAll Symbol.epsilonName "\\epsilon" ("\\ ".intercalate (names.map escape))

/-- The cells of a row of a LaTeX table. -/
def texRow (cells : List String) : String :=
  " & ".intercalate cells

/-- A LaTeX cell, in red when it has more than one entry. -/
def texCell (entries : Nat) (cell : String) : String :=
  if 1 < entries then "\x7b\\color\x7bred\x7d" ++ cell ++ "\x7d" else cell

end GrammarTables
