import GrammarTables.Analysis.Sets
import GrammarTables.Report.Format
import GrammarTables.Text.Align
import GrammarTables.Text.Json

/-!
# Report/Sets — nullable, FIRST, FOLLOW and PREDICT, spelled out
-/

namespace GrammarTables

open Text (Json)

/-- How a truth value is printed. -/
def printBool (b : Bool) : String :=
  if b then "true" else "false"

/-- What is known of one non-terminal. -/
structure SetsRow where
  name : String
  nullable : Bool
  first : List String
  follow : List String

/-- What is known of each non-terminal, in the order of their names. -/
structure SetsReport where
  rows : List SetsRow

/-- Nullable, FIRST and FOLLOW of every non-terminal. -/
def Grammar.setsReport (g : Grammar) : Except GrammarError SetsReport := do
  let sets ← g.sets
  return ⟨g.nonTerminalsByName.map fun nt =>
    ⟨nt.name, sets.nullableAll [nt.index], g.names (sets.firstOf g [nt.index]),
      g.names (sets.followOf nt.index)⟩⟩

namespace SetsReport

/-- One line for each non-terminal. -/
def plain (report : SetsReport) : String :=
  "\n".intercalate (report.rows.map fun row =>
    row.name ++ " | " ++ printBool row.nullable ++ " | " ++ ", ".intercalate row.first ++ " | " ++
      ", ".intercalate row.follow)

/-- One row for each non-terminal, under a head. -/
def latex (escape : String → String) (report : SetsReport) : String :=
  "\\begin\x7btabular\x7d\x7bc|c|c|c\x7d\nSymbol & Nullable & First & Follow\\\\\\hline\n" ++
    "\\\\\n ".intercalate (report.rows.map fun row =>
      texRow [escape row.name, printBool row.nullable, texSequence escape row.first,
        texSequence escape row.follow]) ++
    "\\\\\n\\end\x7btabular\x7d"

/-- One object for each non-terminal. -/
def json (report : SetsReport) : Json :=
  .obj [("data", .arr (report.rows.map fun row =>
    .obj [("name", .str row.name), ("nullable", .bool row.nullable),
      ("first", Json.strings row.first), ("follow", Json.strings row.follow)]))]

end SetsReport

/-- A production with its lookaheads. -/
structure PredictRow where
  ordinal : Nat
  left : String
  right : List String
  predict : List String

/-- Every production with its lookaheads, in the order of the ordinals. -/
structure PredictReport where
  rows : List PredictRow

/-- PREDICT of every production. -/
def Grammar.predictReport (g : Grammar) : Except GrammarError PredictReport := do
  let sets ← g.sets
  return ⟨g.productions.map fun p =>
    ⟨p.ordinal, g.nameOf p.left, g.spell p.right, g.names (sets.predict g p.left p.right)⟩⟩

namespace PredictReport

/-- One aligned line for each production. -/
def plain (report : PredictReport) : String :=
  Text.alignRows (report.rows.map fun row =>
    ["(" ++ row.ordinal.repr ++ ")", row.left ++ " -> " ++ " ".intercalate row.right,
      ", ".intercalate row.predict])

/-- One row for each production, under a head. -/
def latex (escape : String → String) (report : PredictReport) : String :=
  "\\begin\x7btabular\x7d\x7bc|l|l\x7d\n\\# & Production & Predict\\\\\\hline\n" ++
    "\\\\\n".intercalate (report.rows.map fun row =>
      texRow [row.ordinal.repr,
        "$" ++ escape row.left ++ " \\rightarrow " ++ texSequence escape row.right ++ "$",
        texSequence escape row.predict]) ++
    "\\\\\n\\end\x7btabular\x7d"

/-- One object for each production. -/
def json (report : PredictReport) : Json :=
  .obj [("data", .arr (report.rows.map fun row =>
    .obj [("ordinal", .nat row.ordinal), ("left", .str row.left),
      ("right", Json.strings row.right), ("predict", Json.strings row.predict)]))]

end PredictReport

end GrammarTables
